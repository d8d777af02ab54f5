import DirectiveEngine.Text.Basic
import DirectiveEngine.Number.Shortest

/-!
# Written numbers

Decimal notations of whole numbers and of doubles.  A double is written positionally for players, with a
single zero after the point of a whole value where a fraction is asked for, and in the notation of data files
with an exponent once it is very large or small.
-/

namespace DirectiveEngine

def natText (n : Nat) : Text :=
  Nat.toDigits 10 n

def intText : Int → Text
  | .ofNat n => natText n
  | .negSucc n => '-' :: natText (n + 1)

namespace Decimal

def sign (negative : Bool) : Text :=
  if negative then "-" else ""

/-- The decimal `d · 10 ^ k` without an exponent. -/
def positional (d : Nat) (k : Int) : Text :=
  let digits := natText d
  let point := digits.length + k
  if k ≥ 0 then digits ++ List.replicate k.toNat '0'
  else if point > 0 then digits.take point.toNat ++ '.' :: digits.drop point.toNat
  else "0." ++ List.replicate (-point).toNat '0' ++ digits

/-- The decimal `d · 10 ^ k` with one digit before the point and an exponent. -/
def scientific (d : Nat) (k : Int) : Text :=
  match natText d with
  | [] => []
  | c :: rest =>
    c :: (if rest.isEmpty then [] else '.' :: rest) ++ 'e' :: intText (k + rest.length)

/-- The fewest digits that read back, positionally. -/
def plain (x : Float) : Text :=
  match Binary64.parts x with
  | .nan => "NaN"
  | .infinite negative => sign negative ++ "inf"
  | .finite negative m e =>
    if m = 0 then sign negative ++ "0"
    else
      let r := shortest .up m e
      sign negative ++ positional r.1 r.2

/-- Like `plain`, but a whole number is written with all its digits and one zero after the point. -/
def withFraction (x : Float) : Text :=
  match Binary64.whole? x with
  | some (negative, n) => sign negative ++ natText n ++ ".0"
  | none => plain x

/-- The notation of data files: at least one digit on both sides of the point, and an exponent above
`10 ^ 16` and below `10 ^ -5`. -/
def inDocument (x : Float) : Text :=
  match Binary64.parts x with
  | .nan => ".nan"
  | .infinite negative => sign negative ++ ".inf"
  | .finite negative m e =>
    if m = 0 then sign negative ++ "0.0"
    else
      let r := shortest .even m e
      let point := (natText r.1).length + r.2
      sign negative ++
        (if 0 ≤ r.2 ∧ point ≤ 16 then positional r.1 r.2 ++ ".0"
        else if -5 < point ∧ point ≤ 16 then positional r.1 r.2
        else scientific r.1 r.2)

end Decimal
end DirectiveEngine
