import DirectiveEngine.Proofs.Arithmetic.Call
import DirectiveEngine.Proofs.Arithmetic.Expression
import DirectiveEngine.Proofs.Text.Trim
import Mathlib.Data.List.Range
import Mathlib.Data.Rat.Floor

/-!
# Ranges

A range runs from the whole part of one value to that of another, where a whole part is the exact value of a double,
rounded toward zero and clamped to the 64-bit integers (`Binary64.Truncates`).  It lists one integer after the other
(`Arithmetic.Counts`), backward if its ends are exchanged, unless there are too many of them
(`Arithmetic.evaluate_range`).
-/

namespace DirectiveEngine

/-! ### Whole parts -/

namespace Binary64

/-- The exact value of a finite double. -/
def exact (negative : Bool) (m : Nat) (e : Int) : ℚ :=
  (if negative then -1 else 1) * (m * 2 ^ e)

def towardZero (q : ℚ) : Int :=
  if q < 0 then ⌈q⌉ else ⌊q⌋

/-- The nearest integer from `-2 ^ 63` to `2 ^ 63 - 1`. -/
def clamp64 (i : Int) : Int :=
  max (-2 ^ 63) (min i (2 ^ 63 - 1))

/-- The number has a whole part, which becomes `a` when it is clamped. -/
def Truncates (x : Float) (a : Int) : Prop :=
  match parts x with
  | .nan => False
  | .infinite negative => a = if negative then -2 ^ 63 else 2 ^ 63 - 1
  | .finite negative m e => a = clamp64 (towardZero (exact negative m e))

private theorem floor_magnitude (m : Nat) (e : Int) :
    ⌊(m * 2 ^ e : ℚ)⌋ = (if e ≥ 0 then m * Nat.pow 2 e.toNat else m / Nat.pow 2 (-e).toNat : Nat) := by
  split
  · rename_i he
    obtain ⟨k, rfl⟩ := Int.eq_ofNat_of_zero_le he
    have hcast : (m * 2 ^ (k : Int) : ℚ) = ((m * 2 ^ k : Nat) : ℚ) := by
      push_cast
      rw [zpow_natCast]
    rw [hcast, Int.floor_natCast]
    rfl
  · rename_i he
    obtain ⟨k, hk⟩ := Int.eq_ofNat_of_zero_le (Int.neg_nonneg_of_nonpos (Int.le_of_lt (Int.not_le.1 he)))
    obtain rfl : e = -(k : Int) := by omega
    have hcast : (m * 2 ^ (-(k : Int)) : ℚ) = (m : ℚ) / ((2 ^ k : Nat) : ℚ) := by
      push_cast
      rw [zpow_neg, zpow_natCast, div_eq_mul_inv]
    rw [hcast, Rat.floor_natCast_div_natCast, neg_neg, Int.toNat_natCast]
    rfl

private theorem towardZero_of_nonneg {q : ℚ} (hq : 0 ≤ q) : towardZero q = ⌊q⌋ :=
  if_neg hq.not_gt

private theorem towardZero_neg {q : ℚ} (hq : 0 ≤ q) : towardZero (-q) = -⌊q⌋ := by
  rcases hq.eq_or_lt with rfl | hq
  · simp [towardZero]
  · rw [towardZero, if_pos (neg_neg_of_pos hq), Int.ceil_neg]

/-- The whole part that ranges are made of is found by cutting bits off. -/
theorem toInt64_eq {x : Float} {a : Int} (h : Truncates x a) : toInt64 x = a := by
  cases hx : parts x with
  | nan =>
    rw [Truncates, hx] at h
    exact h.elim
  | infinite negative =>
    rw [Truncates, hx] at h
    rw [toInt64, hx, h]
    cases negative <;> rfl
  | finite negative m e =>
    have hnonneg : (0 : ℚ) ≤ m * 2 ^ e := mul_nonneg m.cast_nonneg (zpow_nonneg zero_le_two e)
    have hfloor := floor_magnitude m e
    rw [Truncates, hx] at h
    rw [toInt64, hx, h]
    simp only
    generalize (if e ≥ 0 then m * Nat.pow 2 e.toNat else m / Nat.pow 2 (-e).toNat : Nat) = n at hfloor ⊢
    cases negative with
    | false =>
      have hexact : exact false m e = m * 2 ^ e := by simp [exact]
      rw [hexact, towardZero_of_nonneg hnonneg, hfloor]
      simp only [clamp64, Bool.false_eq_true, if_false]
      omega
    | true =>
      have hexact : exact true m e = -(m * 2 ^ e) := by simp [exact]
      rw [hexact, towardZero_neg hnonneg, hfloor]
      simp only [clamp64, if_true]
      omega

end Binary64

namespace Arithmetic

variable {α : Type} {num : Numbers α} {s t u v w : Text} {n : Nat}

/-! ### Blanks around an expression -/

private theorem evaluateArithmetic_congr (h : compact s = compact t) :
    evaluateArithmetic num s = evaluateArithmetic num t := by
  change (if (compact s).isEmpty = true then _ else do run num [] (← program (← tokens num (compact s)))) = _
  rw [h]
  rfl

private theorem compact_blank (hw : Text.isBlankText w = true) : compact w = [] :=
  List.filter_eq_nil_iff.2 fun c hc => by simp [List.all_eq_true.1 hw c hc]

private theorem findCall?_blanks (hv : Text.isBlankText v = true) (hw : Text.isBlankText w = true) (s : Text) :
    findCall? (v ++ (s ++ w)) = (findCall? s).map fun r => (v ++ r.1, r.2.1, r.2.2 ++ w) := by
  have hname {g : Text} (hg : Text.isBlankText g = true) : ∀ c ∈ g, startsName c = false :=
    fun c hc => startsName_eq_false (by decide) (List.all_eq_true.1 hg c hc)
  have hclosing : ')' ∉ w := fun hmem => (ungrouped_of_isBlankText hw _ hmem).2 rfl
  rw [findCall?_append_of_startsName (hname hv), findCall?_append_right hclosing (hname hw), Option.map_map]
  rfl

private theorem substituteCalls_blanks (hv : Text.isBlankText v = true) (hw : Text.isBlankText w = true) (n : Nat)
    (s : Text) : substituteCalls num n (v ++ (s ++ w)) = (substituteCalls num n s).map fun s' => v ++ (s' ++ w) := by
  induction n generalizing s with
  | zero => rfl
  | succ n ih =>
    have hfind := findCall?_blanks hv hw s
    cases hcall : findCall? s with
    | none =>
      rw [hcall] at hfind
      rw [substituteCalls_of_none hcall, substituteCalls_of_none hfind]
      rfl
    | some r =>
      obtain ⟨before, call, rest⟩ := r
      rw [hcall] at hfind
      rw [substituteCalls_of_some hcall, substituteCalls_of_some hfind]
      cases evaluateArithmetic num call.argument with
      | error e => rfl
      | ok x => simpa [Except.bind] using ih (before ++ num.text (num.call call.function x) ++ rest)

/-- Blanks around an expression do not matter. -/
theorem evaluateNumber_blanks (hv : Text.isBlankText v = true) (hw : Text.isBlankText w = true) (s : Text) :
    evaluateNumber num (v ++ (s ++ w)) = evaluateNumber num s := by
  have hcompact (s : Text) : compact (v ++ (s ++ w)) = compact s := by
    rw [compact_append, compact_append, compact_blank hv, compact_blank hw, List.nil_append, List.append_nil]
  have hcount : (v ++ (s ++ w)).count '(' = s.count '(' := by
    rw [List.count_append, List.count_append, (ungrouped_of_isBlankText hv).count_eq_zero,
      (ungrouped_of_isBlankText hw).count_eq_zero, Nat.zero_add, Nat.add_zero]
  rw [evaluateNumber, evaluateNumber, hcount, substituteCalls_blanks hv hw]
  cases substituteCalls num (s.count '(') s with
  | error e => rfl
  | ok s' => exact evaluateArithmetic_congr (hcompact s')

theorem evaluateNumber_trimStart (s : Text) : evaluateNumber num s.trimStart = evaluateNumber num s := by
  have hblanks : evaluateNumber num (s.takeWhile isBlank ++ (s.trimStart ++ [])) = evaluateNumber num s.trimStart :=
    evaluateNumber_blanks List.all_takeWhile rfl s.trimStart
  rw [List.append_nil, Text.trimStart, List.takeWhile_append_dropWhile] at hblanks
  exact hblanks.symm

theorem evaluateNumber_trimEnd (s : Text) : evaluateNumber num s.trimEnd = evaluateNumber num s := by
  have hblank : Text.isBlankText (s.reverse.takeWhile isBlank).reverse = true := by simp [Text.isBlankText]
  have hblanks : evaluateNumber num ([] ++ (s.trimEnd ++ (s.reverse.takeWhile isBlank).reverse)) =
      evaluateNumber num s.trimEnd := evaluateNumber_blanks rfl hblank s.trimEnd
  rw [List.nil_append, Text.trimEnd, ← List.reverse_append, List.takeWhile_append_dropWhile, List.reverse_reverse]
    at hblanks
  exact hblanks.symm

/-! ### From one integer to another -/

/-- The integers from one to another, both included, one after the other. -/
structure Counts (a b : Int) (items : List Int) : Prop where
  length : items.length = (a - b).natAbs + 1
  head : items.head? = some a
  last : items.getLast? = some b
  chain : items.IsChain fun i j => if a ≤ b then j = i + 1 else i = j + 1

theorem length_integersBetween (a b : Int) : (integersBetween a b).length = (a - b).natAbs + 1 := by
  rw [integersBetween, List.length_map, List.length_range]
  omega

theorem counts_integersBetween (a b : Int) : Counts a b (integersBetween a b) where
  length := length_integersBetween a b
  head := by
    rw [integersBetween, List.head?_map, List.head?_range]
    simp
  last := by
    rw [integersBetween, List.range_succ, List.map_append, List.map_singleton, List.getLast?_concat, Option.some_inj]
    split <;> omega
  chain := by
    rw [integersBetween, List.isChain_map, List.isChain_range_succ]
    intro i _
    split <;> omega

theorem integersBetween_reverse (a b : Int) : (integersBetween a b).reverse = integersBetween b a := by
  refine List.ext_getElem (by rw [List.length_reverse, length_integersBetween, length_integersBetween]; omega) ?_
  intro i hi _
  rw [List.length_reverse, length_integersBetween] at hi
  simp only [integersBetween, List.getElem_reverse, List.getElem_map, List.getElem_range, List.length_map,
    List.length_range]
  split <;> split <;> omega

/-! ### Texts with separators -/

private theorem getLast?_trimStart {c : Char} (h : t.getLast? ≠ some c) : t.trimStart.getLast? ≠ some c := by
  obtain ⟨g, hg⟩ : t.trimStart <:+ t := List.dropWhile_suffix isBlank
  intro hlast
  rw [← hg, List.getLast?_append, hlast, Option.some_or] at h
  exact h rfl

/-- The ends of a range are found where they were put, and evaluated. -/
theorem evaluate?_range {ex ey : Text} (hex : ¬ (".." : Text) <:+: ex) (hey : ¬ (".." : Text) <:+: ey)
    (hlast : ex.getLast? ≠ some '.') :
    evaluate? num (ex ++ (".." ++ ey)) = (evaluateNumber num ex).bind fun x =>
      (evaluateNumber num ey).bind fun y => rangeText (num.toInt64 x) (num.toInt64 y) := by
  have htrim : Text.trim (ex ++ (".." ++ ey)) = ex.trimStart ++ '.' :: '.' :: ey.trimEnd := by
    have hdots : ∀ c ∈ (ex.trimStart ++ ".." : Text).getLast?, isBlank c = false := by
      rw [List.getLast?_append]
      simp [isBlank]
    rw [Text.trim, Text.trimStart_append (u := ".." ++ ey) (by simp [isBlank]), ← List.append_assoc,
      Text.trimEnd_append hdots, List.append_assoc]
    rfl
  have hstart : ¬ (".." : Text) <:+: ex.trimStart := fun h => hex (h.trans (List.dropWhile_suffix isBlank).isInfix)
  have hend : ¬ (".." : Text) <:+: ey.trimEnd := fun h => hey (h.trans (Text.trimEnd_prefix ey).isInfix)
  have hfirst : Text.splitFirst? ".." (ex.trimStart ++ '.' :: '.' :: ey.trimEnd) = some (ex.trimStart, ey.trimEnd) :=
    Text.splitFirst?_pair hstart (getLast?_trimStart hlast) ey.trimEnd
  have hsplit : Text.splitAll ".." (ex.trimStart ++ '.' :: '.' :: ey.trimEnd) = [ex.trimStart, ey.trimEnd] := by
    have hlen : (ex.trimStart ++ '.' :: '.' :: ey.trimEnd).length =
        (ex.trimStart.length + ey.trimEnd.length + 1) + 1 := by
      simp only [List.length_append, List.length_cons]
      omega
    rw [Text.splitAll, hlen, Text.splitUpTo, hfirst]
    simp only [Text.splitUpTo_of_not_infix hend]
  rw [evaluate?, htrim, hsplit]
  simp only [evaluateNumber_trimStart, evaluateNumber_trimEnd]
  rfl

/-- With a second separator there is no range. -/
theorem evaluate?_of_separators (u v w : Text) :
    evaluate? num (u ++ (".." ++ (v ++ (".." ++ w)))) = .error .invalidRange := by
  have hsep : (".." : Text) ≠ [] := by decide
  have hinfix : (".." ++ (v ++ "..") : Text) <:+: Text.trim (u ++ (".." ++ (v ++ (".." ++ w)))) := by
    have hlast : ∀ c ∈ (".." ++ (v ++ "..") : Text).getLast?, isBlank c = false := by
      rw [List.getLast?_append, List.getLast?_append]
      simp [isBlank]
    exact (Text.infix_trim_iff (by simp) (by simp [isBlank]) hlast).2 ⟨u, w, by simp⟩
  rw [evaluate?]
  generalize Text.trim (u ++ (".." ++ (v ++ (".." ++ w)))) = t at hinfix
  obtain ⟨u', w', rfl⟩ := hinfix
  have hparts : u' ++ (".." ++ (v ++ "..")) ++ w' = u' ++ (".." ++ (v ++ (".." ++ w'))) := by simp
  obtain ⟨a, b, hfirst, g, rfl⟩ := Text.exists_splitFirst? hsep u' (v ++ (".." ++ w'))
  obtain ⟨a', b', hsecond, -⟩ := Text.exists_splitFirst? hsep (g ++ v) w'
  rw [List.append_assoc] at hsecond
  have hlen : (u' ++ (".." ++ (v ++ (".." ++ w')))).length = (u'.length + v.length + w'.length + 2) + 1 + 1 := by
    simp only [List.length_append, String.length_toList]
    have : (".." : String).length = 2 := by decide
    omega
  obtain ⟨part, parts, hrest⟩ :=
    List.exists_cons_of_ne_nil (Text.splitUpTo_ne_nil ".." (u'.length + v.length + w'.length + 2) b')
  have hsplit : Text.splitAll ".." (u' ++ (".." ++ (v ++ (".." ++ w')))) = a :: a' :: part :: parts := by
    rw [Text.splitAll, hlen, Text.splitUpTo, hfirst]
    simp only
    rw [Text.splitUpTo, hsecond]
    simp only [hrest]
  simp only [hparts, hsplit]

/-! ### The items of a range -/

private theorem evaluate_of_ok (h : evaluate? num s = .ok t) : evaluate num s = t := by
  rw [evaluate, h]

private theorem evaluate_of_error {e : Error} (h : evaluate? num s = .error e) :
    evaluate num s = "ERROR: " ++ e.message := by
  rw [evaluate, h]

theorem rangeText_of_lt {a b : Int} (h : (a - b).natAbs < maxRangeSize) :
    rangeText a b = .ok (Text.join "," ((integersBetween a b).map intText)) := by
  rw [rangeText, if_neg (by omega)]

theorem rangeText_of_le {a b : Int} (h : maxRangeSize ≤ (a - b).natAbs) :
    rangeText a b = .error (.rangeTooLarge (min ((a - b).natAbs + 1) (2 ^ 64 - 1))) := by
  have hcomm : (b - a).natAbs = (a - b).natAbs := by omega
  rw [rangeText, hcomm, if_pos (by omega)]
  rfl

/-- A range lists the integers from one whole part to the other, and backward if its ends are exchanged, unless there
are more than can be; a text with two separators is no range. -/
theorem evaluate_range {ex ey : Text} {x y : Float} {a b : Int} (hx : evaluateNumber binary64 ex = .ok x)
    (hy : evaluateNumber binary64 ey = .ok y) (ha : Binary64.Truncates x a) (hb : Binary64.Truncates y b)
    (hex : ¬ (".." : Text) <:+: ex) (hey : ¬ (".." : Text) <:+: ey) (hlastx : ex.getLast? ≠ some '.')
    (hlasty : ey.getLast? ≠ some '.') :
    ((a - b).natAbs < 100000 → ∃ items, Counts a b items ∧
      evaluate binary64 (ex ++ (".." ++ ey)) = Text.join "," (items.map intText) ∧
      evaluate binary64 (ey ++ (".." ++ ex)) = Text.join "," (items.reverse.map intText)) ∧
    (100000 ≤ (a - b).natAbs →
      let tooLarge : Text :=
        "ERROR: Range too large: " ++ natText (min ((a - b).natAbs + 1) (2 ^ 64 - 1)) ++ " elements"
      evaluate binary64 (ex ++ (".." ++ ey)) = tooLarge ∧ evaluate binary64 (ey ++ (".." ++ ex)) = tooLarge) ∧
    ∀ u v w : Text,
      evaluate binary64 (u ++ (".." ++ (v ++ (".." ++ w)))) = "ERROR: Invalid range expression" := by
  have hforward : evaluate? binary64 (ex ++ (".." ++ ey)) = rangeText a b := by
    rw [evaluate?_range hex hey hlastx, hx, hy, ← Binary64.toInt64_eq ha, ← Binary64.toInt64_eq hb]
    rfl
  have hbackward : evaluate? binary64 (ey ++ (".." ++ ex)) = rangeText b a := by
    rw [evaluate?_range hey hex hlasty, hx, hy, ← Binary64.toInt64_eq ha, ← Binary64.toInt64_eq hb]
    rfl
  have hcomm : (b - a).natAbs = (a - b).natAbs := by omega
  refine ⟨fun h => ⟨integersBetween a b, counts_integersBetween a b, ?_, ?_⟩, fun h => ⟨?_, ?_⟩, fun u v w => ?_⟩
  · exact evaluate_of_ok (hforward.trans (rangeText_of_lt h))
  · rw [integersBetween_reverse]
    exact evaluate_of_ok (hbackward.trans (rangeText_of_lt (hcomm ▸ h)))
  · exact evaluate_of_error (hforward.trans (rangeText_of_le h))
  · have hlarge := rangeText_of_le (hcomm ▸ h : maxRangeSize ≤ (b - a).natAbs)
    rw [hcomm] at hlarge
    exact evaluate_of_error (hbackward.trans hlarge)
  · exact evaluate_of_error (evaluate?_of_separators u v w)

/-- From a number that is rounded up to that of a sum. -/
theorem evaluate_range_sum :
    let x := -Binary64.ofDecimal false 15 (-1)
    let y := Binary64.ofDecimal false 1 0 + Binary64.ofDecimal false 1 0
    evaluateNumber binary64 "-1.5" = .ok x ∧ evaluateNumber binary64 "1+1" = .ok y ∧
      Binary64.Truncates x (-1) ∧ Binary64.Truncates y 2 ∧
      ∃ items, Counts (-1) 2 items ∧
        evaluate binary64 ("-1.5" ++ (".." ++ "1+1")) = Text.join "," (items.map intText) ∧
        evaluate binary64 ("1+1" ++ (".." ++ "-1.5")) = Text.join "," (items.reverse.map intText) := by
  intro x y
  have hx : evaluateNumber binary64 "-1.5" = .ok x := rfl
  have hy : evaluateNumber binary64 "1+1" = .ok y := rfl
  have ha : Binary64.Truncates x (-1) := by
    have hparts : Binary64.parts x = .finite true 0x18000000000000 (-52) := by decide +kernel
    rw [Binary64.Truncates, hparts]
    norm_num [Binary64.exact, Binary64.towardZero, Binary64.clamp64]
  have hb : Binary64.Truncates y 2 := by
    have hparts : Binary64.parts y = .finite false 0x10000000000000 (-51) := by decide +kernel
    rw [Binary64.Truncates, hparts]
    norm_num [Binary64.exact, Binary64.towardZero, Binary64.clamp64]
  have hrange := evaluate_range hx hy ha hb (by decide) (by decide) (by decide) (by decide)
  exact ⟨hx, hy, ha, hb, hrange.1 (by decide)⟩

end Arithmetic

end DirectiveEngine
