/-!
# Binary64 numbers as exact values

A finite double is `m · 2 ^ e` for a natural number `m` and an integer `e`; here it is taken apart into these
and put together from a quotient of natural numbers, rounded to the nearest double, a tie going to the even
one.  Reading and writing decimals is exact arithmetic on these parts.
-/

namespace DirectiveEngine.Binary64

/-- A double taken apart. -/
inductive Parts where
  | nan
  | infinite (negative : Bool)
  | finite (negative : Bool) (mantissa : Nat) (exponent : Int)
  deriving DecidableEq

def parts (x : Float) : Parts :=
  let bits : Nat := x.toBits.toNat
  let negative := bits / 0x8000000000000000 == 1
  let biased : Nat := bits / 0x10000000000000 % 2048
  let fraction : Nat := bits % 0x10000000000000
  if biased = 2047 then (if fraction = 0 then .infinite negative else .nan)
  else if biased = 0 then .finite negative fraction (-1074)
  else .finite negative (0x10000000000000 + fraction) ((biased : Int) - 1075)

/-- The whole number nearest to `num / den`, a tie going to the even one. -/
def roundDiv (num den : Nat) : Nat :=
  let q := num / den
  let r := num % den
  if 2 * r > den ∨ (2 * r = den ∧ q % 2 = 1) then q + 1 else q

/-- The exponent `k` with `2 ^ k ≤ num / den < 2 ^ (k + 1)`, for positive `num` and `den`. -/
def log2Div (num den : Nat) : Int :=
  let k : Int := num.log2 - den.log2
  let reaches := if k ≥ 0 then num ≥ den * Nat.pow 2 k.toNat else num * Nat.pow 2 (-k).toNat ≥ den
  if reaches then k else k - 1

/-- The double nearest to `num / den`, with the given sign. -/
def ofRatio (negative : Bool) (num den : Nat) : Float :=
  let sign := if negative then 0x8000000000000000 else 0
  if num = 0 then Float.ofBits (UInt64.ofNat sign)
  else
    let e : Int := max (log2Div num den - 52) (-1074)
    let q := if e ≥ 0 then roundDiv num (den * Nat.pow 2 e.toNat) else roundDiv (num * Nat.pow 2 (-e).toNat) den
    let magnitude :=
      if q < 0x10000000000000 then q else (e + 1075).toNat * 0x10000000000000 + (q - 0x10000000000000)
    Float.ofBits (UInt64.ofNat (sign + min magnitude (2047 * 0x10000000000000)))

def ofNat (n : Nat) : Float :=
  ofRatio false n 1

/-- `digits · 10 ^ exponent`.  Exponents far outside the range of doubles are cut down first, so that no
astronomical power is computed. -/
def ofDecimal (negative : Bool) (digits : Nat) (exponent : Int) : Float :=
  let e := if exponent > 400 then 400 else max exponent (-(400 + digits.log2 : Int))
  if e ≥ 0 then ofRatio negative (digits * Nat.pow 10 e.toNat) 1
  else ofRatio negative digits (Nat.pow 10 (-e).toNat)

/-- The whole part, toward zero. -/
def trunc (x : Float) : Float :=
  if x < 0 then x.ceil else x.floor

/-- The remainder of the quotient rounded toward zero; it has the sign of `x` and is exact. -/
def rem (x y : Float) : Float :=
  match parts x, parts y with
  | .finite negative m e, .finite _ n f =>
    if n = 0 then 0.0 / 0.0
    else
      let low := min e f
      let r := m * Nat.pow 2 (e - low).toNat % (n * Nat.pow 2 (f - low).toNat)
      if low ≥ 0 then ofRatio negative (r * Nat.pow 2 low.toNat) 1 else ofRatio negative r (Nat.pow 2 (-low).toNat)
  | .finite .., .infinite _ => x
  | _, _ => 0.0 / 0.0

/-- The whole part clamped to the range of 64-bit signed integers; not-a-number becomes 0. -/
def toInt64 (x : Float) : Int :=
  match parts x with
  | .nan => 0
  | .infinite negative => if negative then -0x8000000000000000 else 0x7FFFFFFFFFFFFFFF
  | .finite negative m e =>
    let magnitude : Nat := if e ≥ 0 then m * Nat.pow 2 e.toNat else m / Nat.pow 2 (-e).toNat
    if negative then max (-(magnitude : Int)) (-0x8000000000000000) else min (magnitude : Int) 0x7FFFFFFFFFFFFFFF

/-- The magnitude as a natural number, if the double is a whole number. -/
def whole? (x : Float) : Option (Bool × Nat) :=
  match parts x with
  | .finite negative m e =>
    if e ≥ 0 then some (negative, m * Nat.pow 2 e.toNat)
    else if m % Nat.pow 2 (-e).toNat = 0 then some (negative, m / Nat.pow 2 (-e).toNat)
    else none
  | _ => none

end DirectiveEngine.Binary64
