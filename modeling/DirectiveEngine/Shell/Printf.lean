import DirectiveEngine.Number.Literal
import DirectiveEngine.Number.Notation
import DirectiveEngine.Text.Utf8

/-!
# Formatted output

Backslash escapes, which may denote any byte, and the conversions of a format.  A format is used again as long
as there are arguments left for it.
-/

namespace DirectiveEngine.Shell

/-- Shells differ in which escapes they know and in what they report. -/
inductive Dialect where
  | posix
  | bash
  deriving DecidableEq

/-! ### Escapes -/

def isOctal (c : Char) : Bool :=
  '0' ≤ c && c ≤ '7'

/-- At most `n` octal digits as a byte, and the rest. -/
def octalByte (n : Nat) (t : Text) : UInt8 × Text :=
  let digits := (t.take n).takeWhile isOctal
  ((digits.foldl (fun v c => 8 * v + digitValue c) 0).toUInt8, t.drop digits.length)

/-- The byte of a letter escape. -/
def letterEscape? (dialect : Dialect) (c : Char) : Option UInt8 :=
  List.lookup c
    ([('a', 7), ('b', 8), ('t', 9), ('n', 10), ('v', 11), ('f', 12), ('r', 13), ('\\', 92)] ++
      if dialect = .bash then [('e', 27), ('E', 27)] else [])

def hexDigit? (c : Char) : Option Nat :=
  if isDigit c then some (digitValue c)
  else if 'a' ≤ c ∧ c ≤ 'f' then some (c.toNat - 87)
  else if 'A' ≤ c ∧ c ≤ 'F' then some (c.toNat - 55)
  else none

/-- What an escape behind its backslash denotes.  With `zeroOctal` an octal number has a zero in front. -/
def escapeBytes (dialect : Dialect) (zeroOctal : Bool) (t : Text) : Bytes × Text :=
  match t with
  | [] => ([92], [])
  | c :: r =>
    match letterEscape? dialect c with
    | some b => ([b], r)
    | none =>
      if zeroOctal && c == '0' then let (b, r) := octalByte 3 r; ([b], r)
      else if !zeroOctal && isOctal c then let (b, r) := octalByte 3 t; ([b], r)
      else if c = '"' ∧ !zeroOctal then ([34], r)
      else if dialect = .bash ∧ c = 'x' ∧ (r.head?.bind hexDigit?).isSome then
        let digits := (r.take 2).takeWhile fun c => (hexDigit? c).isSome
        ([((digits.filterMap hexDigit?).foldl (fun v d => 16 * v + d) 0).toUInt8], r.drop digits.length)
      else ([92], t)

/-- A text with its escapes replaced, and whether an escape ends all output. -/
def unescape (dialect : Dialect) (zeroOctal : Bool) : Nat → Text → Bytes × Bool
  | 0, _ => ([], false)
  | _, [] => ([], false)
  | _ + 1, '\\' :: 'c' :: _ => ([], true)
  | fuel + 1, '\\' :: t =>
    let (b, t) := escapeBytes dialect zeroOctal t
    let r := unescape dialect zeroOctal fuel t
    (b ++ r.1, r.2)
  | fuel + 1, c :: t =>
    let r := unescape dialect zeroOctal fuel t
    (utf8Bytes c ++ r.1, r.2)

/-! ### Conversions -/

structure Conversion where
  flags : Text
  width : Nat
  precision : Option Nat
  kind : Char

namespace Conversion

/-- Pads a text to the width, at the right if a flag says so. -/
def pad (v : Conversion) (bs : Bytes) : Bytes :=
  let fill := List.replicate (v.width - (Text.ofUtf8Lossy bs).length) (32 : UInt8)
  if '-' ∈ v.flags then bs ++ fill else fill ++ bs

/-- The sign of a number; the flags may ask for one of a number that is not negative. -/
def sign (v : Conversion) (negative : Bool) : Text :=
  if negative then "-" else if '+' ∈ v.flags then "+" else if ' ' ∈ v.flags then " " else ""

/-- The digits of a number in a base, with as many zeros in front as asked for. -/
def digits (v : Conversion) (base : Nat) (n : Nat) : Text :=
  let ds := Nat.toDigits base n
  let ds := if v.kind = 'X' then ds.map Char.toUpper else ds
  List.replicate (v.precision.getD 1 - ds.length) '0' ++ ds

def number (v : Conversion) (n : Int) : Bytes :=
  let base := if v.kind = 'o' then 8 else if v.kind = 'x' ∨ v.kind = 'X' then 16 else 10
  let signed := v.kind = 'd' ∨ v.kind = 'i'
  let magnitude := if signed then n.natAbs else (n % 0x10000000000000000).toNat
  let sign : Text := if signed then v.sign (n < 0) else []
  let ds := v.digits base magnitude
  if '0' ∈ v.flags ∧ '-' ∉ v.flags ∧ v.precision.isNone then
    Text.toUtf8 (sign ++ List.replicate (v.width - sign.length - ds.length) '0' ++ ds)
  else v.pad (Text.toUtf8 (sign ++ ds))

/-- A double with as many places behind the point as asked for, a half going to the even neighbour. -/
def fixed (v : Conversion) (x : Float) : Bytes :=
  let places := v.precision.getD 6
  match Binary64.parts x with
  | .nan => v.pad (Text.toUtf8 "nan")
  | .infinite negative => v.pad (Text.toUtf8 (Decimal.sign negative ++ "inf"))
  | .finite negative m e =>
    let n := Binary64.roundDiv (m * Nat.pow 10 places * Nat.pow 2 e.toNat) (Nat.pow 2 (-e).toNat)
    let ds := natText n
    let ds := List.replicate (places + 1 - ds.length) '0' ++ ds
    let point : Text := if places = 0 then [] else ['.']
    let t := ds.take (ds.length - places) ++ point ++ ds.drop (ds.length - places)
    let sign := v.sign negative
    if '0' ∈ v.flags ∧ '-' ∉ v.flags then
      Text.toUtf8 (sign ++ List.replicate (v.width - sign.length - t.length) '0' ++ t)
    else v.pad (Text.toUtf8 (sign ++ t))

end Conversion

/-- What is wrong with an argument, or with a conversion. -/
inductive FormatFault where
  | notANumber
  | trailing
  | unknownKind

/-- The number that an argument is taken for. -/
def argumentNumber (t : Text) : Int × Option FormatFault :=
  let t := t.dropWhile fun c => c == ' ' || c == '\t'
  match t with
  | '\'' :: c :: _ => (c.toNat, none)
  | '"' :: c :: _ => (c.toNat, none)
  | _ =>
    let (negative, body) := Decimal.takeSign t
    let (base, body') : Nat × Text := match body with
      | '0' :: 'x' :: r => (16, r)
      | '0' :: 'X' :: r => (16, r)
      | '0' :: r => (8, '0' :: r)
      | r => (10, r)
    let inBase (c : Char) : Bool := ((hexDigit? c).map fun d => decide (d < base)).getD false
    let ds := body'.takeWhile inBase
    let n : Int := ((ds.filterMap hexDigit?).foldl (fun v d => base * v + d) 0 : Nat)
    let fault :=
      if t.isEmpty then none
      else if ds.isEmpty then some .notANumber
      else if ds.length < body'.length then some .trailing
      else none
    (if negative then -n else n, fault)

structure Formatted where
  out : Bytes := []
  /-- The arguments that were no numbers, or the conversion that is none. -/
  faults : List (Text × FormatFault) := []
  args : List Text := []
  /-- An escape ended all output. -/
  ended : Bool := false

/-- The conversion behind a percent sign. -/
def takeConversion (t : Text) (args : List Text) : Option (Conversion × Text × List Text) :=
  let flags := t.takeWhile fun c => c ∈ ['-', '+', ' ', '0', '#']
  let t := t.drop flags.length
  let count (t : Text) (args : List Text) : Nat × Text × List Text :=
    match t with
    | '*' :: r => ((argumentNumber (args.headD [])).1.toNat, r, args.tail)
    | _ => (digitsValue (t.takeWhile isDigit), t.dropWhile isDigit, args)
  let (width, t, args) := count t args
  let (precision, t, args) := match t with
    | '.' :: r => let (n, r, args) := count r args; (some n, r, args)
    | _ => (none, t, args)
  match t with
  | c :: r => some (⟨flags, width, precision, c⟩, r, args)
  | [] => none

/-- Converts one argument. -/
def convert (dialect : Dialect) (v : Conversion) (arg : Text) (f : Formatted) : Formatted :=
  let cut (t : Text) : Text := match v.precision with | some p => t.take p | none => t
  if v.kind = 's' then { f with out := f.out ++ v.pad (Text.toUtf8 (cut arg)) }
  else if v.kind = 'c' then { f with out := f.out ++ v.pad (Text.toUtf8 (arg.take 1)) }
  else if v.kind = 'b' then
    let (bs, ended) := unescape dialect true (arg.length + 1) arg
    { f with out := f.out ++ v.pad bs, ended }
  else if v.kind = 'f' ∨ v.kind = 'F' then
    match Decimal.read? arg with
    | some x => { f with out := f.out ++ v.fixed x }
    | none =>
      { f with
        out := f.out ++ v.fixed 0.0
        faults := if arg.isEmpty then f.faults else f.faults ++ [(arg, .notANumber)] }
  else if v.kind ∉ ['d', 'i', 'u', 'o', 'x', 'X'] then
    { f with faults := f.faults ++ [(['%', v.kind], .unknownKind)], ended := true }
  else
    let (n, fault) := argumentNumber arg
    { f with
      out := f.out ++ v.number n
      faults := f.faults ++ (fault.map fun x => (arg, x)).toList }

/-- One use of a format. -/
def formatOnce (dialect : Dialect) : Nat → Text → Formatted → Formatted
  | 0, _, f => f
  | _, [], f => f
  | _ + 1, '\\' :: 'c' :: _, f => { f with ended := true }
  | fuel + 1, '\\' :: t, f =>
    let (b, t) := escapeBytes dialect false t
    formatOnce dialect fuel t { f with out := f.out ++ b }
  | fuel + 1, '%' :: '%' :: t, f => formatOnce dialect fuel t { f with out := f.out ++ [37] }
  | fuel + 1, '%' :: t, f =>
    match takeConversion t f.args with
    | none => { f with out := f.out ++ [37] }
    | some (v, t, args) =>
      let f := convert dialect v (args.headD []) { f with args := args.tail }
      if f.ended then f else formatOnce dialect fuel t f
  | fuel + 1, c :: t, f => formatOnce dialect fuel t { f with out := f.out ++ utf8Bytes c }

/-- Uses a format until no arguments are left, or until it takes none. -/
def formatAll (dialect : Dialect) (format : Text) : Nat → Formatted → Formatted
  | 0, f => f
  | n + 1, f =>
    let g := formatOnce dialect (format.length + 1) format f
    if g.ended || g.args.isEmpty || g.args.length == f.args.length then g else formatAll dialect format n g

end DirectiveEngine.Shell
