import DirectiveEngine.Number.Literal
import DirectiveEngine.Number.Notation
import DirectiveEngine.Yaml.Value

/-!
# Plain scalars

What an unquoted scalar denotes: nothing, a truth value, an integer in one of four bases, a float, or the text
itself.  A number with a superfluous leading zero is text.
-/

namespace DirectiveEngine.Yaml

def isNullText (t : Text) : Bool :=
  t = "null" || t = "Null" || t = "NULL" || t = "~"

def boolOf? (t : Text) : Option Bool :=
  if t = "true" ∨ t = "True" ∨ t = "TRUE" then some true
  else if t = "false" ∨ t = "False" ∨ t = "FALSE" then some false
  else none

/-- Digits with a leading zero, after an optional sign. -/
def hasLeadingZero (t : Text) : Bool :=
  let t := (Decimal.takeSign t).2
  1 < t.length && t.head? == some '0' && t.all isDigit

/-- The value of a digit in any base up to 36. -/
def digitIn? (base : Nat) (c : Char) : Option Nat :=
  let n :=
    if isDigit c then c.toNat - 48
    else if 'a' ≤ c ∧ c ≤ 'z' then c.toNat - 87
    else if 'A' ≤ c ∧ c ≤ 'Z' then c.toNat - 55
    else base
  if n < base then some n else none

def digitsIn? (base : Nat) (t : Text) : Option Nat :=
  if t.isEmpty then none
  else t.foldl (fun n c => do return (← n) * base + (← digitIn? base c)) (some 0)

/-- The magnitude of an integer behind its sign. -/
def magnitude? (t : Text) : Option Nat :=
  match t with
  | '0' :: 'x' :: r => digitsIn? 16 r
  | '0' :: 'o' :: r => digitsIn? 8 r
  | '0' :: 'b' :: r => digitsIn? 2 r
  | _ => digitsIn? 10 t

/-- An integer of any size. -/
def integerOf? (t : Text) : Option Int :=
  if hasLeadingZero t then none
  else
    match t with
    | '-' :: r => (magnitude? r).map fun n => -(n : Int)
    | '+' :: r => (magnitude? r).map Int.ofNat
    | _ => (magnitude? t).map Int.ofNat

/-- A float: a finite decimal literal, or one of the names that start with a point. -/
def floatOf? (t : Text) : Option Float :=
  let s := Decimal.takeSign t
  if s.2 = ".inf" ∨ s.2 = ".Inf" ∨ s.2 = ".INF" then some (if s.1 then -1.0 / 0.0 else 1.0 / 0.0)
  else if t = ".nan" ∨ t = ".NaN" ∨ t = ".NAN" then some (0.0 / 0.0)
  else (Decimal.read? t).filter Float.isFinite

/-- The largest and the smallest integer that a document may hold. -/
def intBounds : Int × Int :=
  (-0x8000000000000000, 0xFFFFFFFFFFFFFFFF)

/-- Integers beyond the bounds are read by nothing up to 128 bits, and are floats from there on. -/
def wideBounds : Int × Int :=
  (-0x80000000000000000000000000000000, 0xFFFFFFFFFFFFFFFFFFFFFFFFFFFFFFFF)

/-- The value of a plain scalar, `none` for an integer that no document may hold. -/
def ofPlain? (t : Text) : Option Yaml :=
  if t.isEmpty || isNullText t then some null
  else
    match boolOf? t, integerOf? t, floatOf? t with
    | some b, _, _ => some (bool b)
    | none, some n, x =>
      if intBounds.1 ≤ n ∧ n ≤ intBounds.2 then some (int n)
      else if wideBounds.1 ≤ n ∧ n ≤ wideBounds.2 then none
      else some (match x with | some x => float x | none => string t)
    | none, none, some x => some (if hasLeadingZero t then string t else float x)
    | none, none, none => some (string t)

end DirectiveEngine.Yaml
