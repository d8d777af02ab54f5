import DirectiveEngine.Text.LetterCase
import DirectiveEngine.Number.Binary64

/-!
# Reading numbers

Whole numbers within bounds, and decimal literals: an optional sign, digits with at most one point and at
least one digit, an optional exponent; infinity and not-a-number have names, in any letter case.
-/

namespace DirectiveEngine

def isDigit (c : Char) : Bool :=
  '0' ≤ c && c ≤ '9'

def digitValue (c : Char) : Nat :=
  c.toNat - '0'.toNat

/-- The value of a run of digits. -/
def digitsValue (t : Text) : Nat :=
  t.foldl (fun n c => 10 * n + digitValue c) 0

def digits? (t : Text) : Option Nat :=
  if !t.isEmpty && t.all isDigit then some (digitsValue t) else none

/-- Digits after an optional plus sign, with a value of at most `max`. -/
def natural? (max : Nat) (t : Text) : Option Nat :=
  (digits? ((Text.stripPrefix? "+" t).getD t)).filter (· ≤ max)

/-- Digits after an optional sign, with a value between `min` and `max`. -/
def integer? (min max : Int) (t : Text) : Option Int :=
  let n : Option Int :=
    match t with
    | '-' :: t => (digits? t).map fun n => -(n : Int)
    | '+' :: t => (digits? t).map Int.ofNat
    | t => (digits? t).map Int.ofNat
  n.filter fun n => min ≤ n && n ≤ max

def int64? (t : Text) : Option Int :=
  integer? (-0x8000000000000000) 0x7FFFFFFFFFFFFFFF t

namespace Decimal

/-- The sign in front of a literal, and the rest. -/
def takeSign : Text → Bool × Text
  | '-' :: t => (true, t)
  | '+' :: t => (false, t)
  | t => (false, t)

/-- The exponent after the digits of a literal, `none` if something else stands there. -/
def exponent? : Text → Option Int
  | [] => some 0
  | c :: t =>
    if c = 'e' ∨ c = 'E' then
      let s := takeSign t
      (digits? s.2).map fun n => if s.1 then -(n : Int) else n
    else none

/-- An unsigned decimal literal: the digits, the power of ten. -/
def unsigned? (t : Text) : Option (Nat × Int) :=
  let whole := t.takeWhile isDigit
  let rest := t.dropWhile isDigit
  let fraction := match rest with | '.' :: r => r.takeWhile isDigit | _ => []
  let rest := match rest with | '.' :: r => r.dropWhile isDigit | r => r
  if whole.isEmpty && fraction.isEmpty then none
  else (exponent? rest).map fun e => (digitsValue (whole ++ fraction), e - fraction.length)

/-- The double nearest to a decimal literal. -/
def read? (t : Text) : Option Float :=
  let s := takeSign t
  let word := s.2.lowerAscii
  if word = "inf" ∨ word = "infinity" then some (if s.1 then -1.0 / 0.0 else 1.0 / 0.0)
  else if word = "nan" then some (0.0 / 0.0)
  else (unsigned? s.2).map fun d => Binary64.ofDecimal s.1 d.1 d.2

end Decimal
end DirectiveEngine
