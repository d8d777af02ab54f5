import DirectiveEngine.Number.Binary64

/-!
# The fewest digits that read back

`shortest` finds the decimal `d · 10 ^ k` with the fewest digits that is nearer to a double than to any other,
and of those the one nearest to its exact value.  For one, two, … digits it tests the two neighbours of the
value on that decimal grid; seventeen digits always suffice.
-/

namespace DirectiveEngine.Decimal

/-- Which of two equally near candidates is taken. -/
inductive Tie where
  | up
  | even
  deriving DecidableEq

/-- A positive rational number. -/
structure Ratio where
  num : Nat
  den : Nat

/-- Numerators, over a common denominator, of a positive double and of the ends of the interval of reals that
round to it. -/
structure Interval where
  low : Nat
  value : Nat
  high : Nat
  den : Nat
  /-- Whether the ends belong to the interval. -/
  closed : Bool

/-- The interval of `m · 2 ^ e`.  Below a power of two the doubles lie twice as dense. -/
def Interval.of (m : Nat) (e : Int) : Interval :=
  let below : Nat := if m = 0x10000000000000 ∧ e > -1074 then 1 else 2
  let up : Nat := if e ≥ 2 then Nat.pow 2 (e - 2).toNat else 1
  let den : Nat := if e ≥ 2 then 1 else Nat.pow 2 (2 - e).toNat
  { low := (4 * m - below) * up, value := 4 * m * up, high := (4 * m + 2) * up, den, closed := m % 2 == 0 }

/-- The decimal `d · 10 ^ k` lies in the interval. -/
def Interval.holds (i : Interval) (d : Nat) (k : Int) : Bool :=
  let x := if k ≥ 0 then d * Nat.pow 10 k.toNat * i.den else d * i.den
  let s := if k ≥ 0 then 1 else Nat.pow 10 (-k).toNat
  if i.closed then i.low * s ≤ x && x ≤ i.high * s else i.low * s < x && x < i.high * s

/-- The quotient of the value by `10 ^ k`. -/
def Interval.scaled (i : Interval) (k : Int) : Ratio :=
  if k ≥ 0 then ⟨i.value, i.den * Nat.pow 10 k.toNat⟩ else ⟨i.value * Nat.pow 10 (-k).toNat, i.den⟩

/-- The neighbour of the value on the grid of multiples of `10 ^ k` that is in the interval, the nearer one
if both are. -/
def Interval.onGrid? (i : Interval) (tie : Tie) (k : Int) : Option Nat :=
  let v := i.scaled k
  let d := v.num / v.den
  let r := v.num % v.den
  let upper := if 2 * r = v.den then tie == .up || d % 2 == 1 else 2 * r > v.den
  match i.holds d k && d != 0, i.holds (d + 1) k with
  | true, true => some (if upper then d + 1 else d)
  | true, false => some d
  | false, true => some (d + 1)
  | false, false => none

/-- The exponent of the leading decimal digit: `10 ^ k ≤ num / den < 10 ^ (k + 1)`. -/
def log10Div (num den : Nat) : Int :=
  let digits (n : Nat) : Nat := (Nat.toDigits 10 n).length
  let k : Int := digits num - digits den
  let reaches := if k ≥ 0 then num ≥ den * Nat.pow 10 k.toNat else num * Nat.pow 10 (-k).toNat ≥ den
  if reaches then k else k - 1

/-- Tries grids of more and more digits, the next one having `10 ^ k` as its unit. -/
def Interval.search (i : Interval) (tie : Tie) : Nat → Int → Nat × Int
  | 0, k => ((i.scaled k).num / (i.scaled k).den, k)
  | more + 1, k =>
    match i.onGrid? tie k with
    | some d => (d, k)
    | none => i.search tie more (k - 1)

/-- Digits without trailing zeros. -/
def stripZeros : Nat → Nat → Int → Nat × Int
  | 0, d, k => (d, k)
  | fuel + 1, d, k => if d ≠ 0 ∧ d % 10 = 0 then stripZeros fuel (d / 10) (k + 1) else (d, k)

/-- The digits and the exponent of the shortest decimal for `m · 2 ^ e`, with `m` positive. -/
def shortest (tie : Tie) (m : Nat) (e : Int) : Nat × Int :=
  let i := Interval.of m e
  let r := i.search tie 17 (log10Div i.value i.den)
  stripZeros 20 r.1 r.2

end DirectiveEngine.Decimal
