import DirectiveEngine.Proofs.Arithmetic.Printed
import DirectiveEngine.Proofs.Number
import DirectiveEngine.Yaml.PlainText

/-!
# Texts as values

A text that is stored as a value is shown as itself again, unless it is taken for a float, which has a notation of its own.
So an integer is kept within the bounds of what is stored as one (`plainText_ofText_integer`), and a word of letters unless
it is the name of a float (`plainText_ofText_letters`).
-/

namespace DirectiveEngine.Yaml

variable {t : Text}

/-! ### Kinds of texts -/

/-- The notation of an integer without superfluous signs and zeros. -/
inductive IsNotation : Int → Text → Prop where
  | zero : IsNotation 0 ['0']
  | positive {c : Char} {r : Text} (hc : c ≠ '0') (h : ∀ d ∈ c :: r, isDigit d = true) :
    IsNotation (digitsValue (c :: r)) (c :: r)
  | negative {c : Char} {r : Text} (hc : c ≠ '0') (h : ∀ d ∈ c :: r, isDigit d = true) :
    IsNotation (-(digitsValue (c :: r))) ('-' :: c :: r)

/-- No characters but letters. -/
def IsLetters (t : Text) : Prop :=
  ∀ c ∈ t, c.isAlpha = true

instance (t : Text) : Decidable (IsLetters t) :=
  decidable_of_iff (t.all Char.isAlpha = true) List.all_eq_true

/-- The names of infinity and of what is no number, which are read in any letter case. -/
def floatNames : List Text :=
  ["inf", "infinity", "nan"]

theorem IsNotation.eq_intText {n : Int} (h : IsNotation n t) : t = intText n := by
  cases h with
  | zero => rfl
  | positive hc h => exact (natText_digitsValue hc h).1.symm
  | @negative c r hc h =>
    obtain ⟨htext, hpos⟩ := natText_digitsValue hc h
    obtain ⟨n, hn⟩ := Nat.exists_eq_add_one_of_ne_zero (Nat.ne_of_gt hpos)
    rw [hn] at htext ⊢
    exact congrArg _ htext.symm

/-! ### Floats -/

/-- The notation of a float has a point, or digits and an exponent. -/
theorem plainText_float_ne (hpoint : '.' ∉ t) (hexponent : 'e' ∈ t → ∀ c ∈ t, isDigit c = false) (x : Float) :
    plainText (float x) ≠ t := by
  rintro rfl
  rcases point_or_exponent_mem_inDocument x with hmem | ⟨hmem, c, hc, hdigit⟩
  · exact hpoint hmem
  · rw [hexponent hmem c hc] at hdigit
    cases hdigit

/-! ### Integers -/

private theorem not_mem_intText_of_foreign {c : Char} (hdigit : c.isDigit = false) (hminus : c ≠ '-') (n : Int) :
    c ∉ intText n := by
  cases n with
  | ofNat n => exact not_mem_natText hdigit
  | negSucc n => simpa [intText, hminus] using not_mem_natText (n := n + 1) hdigit

private theorem isSome_read?_intText (n : Int) : (Decimal.read? (intText n)).isSome := by
  have hliteral (n : Nat) := Arithmetic.isLiteral_natText n
  cases n with
  | ofNat n => exact (Arithmetic.isSome_read?_iff (hliteral n).chars).2 (hliteral n)
  | negSucc n => exact (Arithmetic.isSome_read?_minus (hliteral (n + 1)).chars).2 (hliteral (n + 1))

/-- An integer is kept within the bounds of what is stored as one, and becomes a float beyond them. -/
theorem plainText_ofText_integer (n : Int) :
    plainText (ofText (intText n)) = intText n ↔ storedBounds.1 ≤ n ∧ n ≤ storedBounds.2 := by
  unfold ofText
  rw [integer?_intText]
  by_cases hn : storedBounds.1 ≤ n ∧ n ≤ storedBounds.2
  · rw [if_pos hn]
    exact iff_of_true rfl hn
  · obtain ⟨x, hx⟩ := Option.isSome_iff_exists.1 (isSome_read?_intText n)
    rw [if_neg hn, hx]
    refine iff_of_false (plainText_float_ne ?_ ?_ x) hn
    · exact not_mem_intText_of_foreign (by decide) (by decide) n
    · exact fun hmem => absurd hmem (not_mem_intText_of_foreign (by decide) (by decide) n)

/-! ### Words -/

variable (ht : IsLetters t)
include ht

theorem IsLetters.not_mem {c : Char} (hc : c.isAlpha = false) : c ∉ t := fun hmem => by
  rw [ht c hmem] at hc
  cases hc

theorem IsLetters.isDigit_eq_false {c : Char} (hc : c ∈ t) : isDigit c = false := by
  have hranges : (decide (c.val ≥ 65 ∧ c.val ≤ 90) || c.val ≥ 97 && c.val ≤ 122) = true := ht c hc
  have hletter : (65 ≤ c.toNat ∧ c.toNat ≤ 90) ∨ (97 ≤ c.toNat ∧ c.toNat ≤ 122) := by
    simpa [UInt32.le_iff_toNat_le] using hranges
  have hnine : ¬ c ≤ '9' := fun hle => by
    have hle : c.toNat ≤ 57 := hle
    omega
  simp [isDigit, hnine]

private theorem IsLetters.no_sign : ∀ c ∈ t.head?, c ≠ '-' ∧ c ≠ '+' := by
  intro c hc
  have hmem : c ∈ t := List.mem_of_head? hc
  exact ⟨fun h => ht.not_mem (by decide) (h ▸ hmem), fun h => ht.not_mem (by decide) (h ▸ hmem)⟩

theorem IsLetters.integer?_eq_none (min max : Int) : integer? min max t = none := by
  have hdigits : digits? t = none := by
    cases t with
    | nil => rfl
    | cons c t => exact digits?_of_mem List.mem_cons_self (ht.isDigit_eq_false List.mem_cons_self)
  rw [integer?_of_head ht.no_sign, hdigits]
  rfl

private theorem IsLetters.unsigned?_eq_none : Decimal.unsigned? t = none := by
  cases t with
  | nil => rfl
  | cons c t =>
    have hdigit := ht.isDigit_eq_false List.mem_cons_self
    have hpoint : c ≠ '.' := fun h => ht.not_mem (c := '.') (by decide) (h ▸ List.mem_cons_self)
    simp [Decimal.unsigned?, hdigit, hpoint]

theorem IsLetters.read?_eq_none_iff : Decimal.read? t = none ↔ t.lowerAscii ∉ floatNames := by
  rw [Decimal.read?, Decimal.takeSign_of_head ht.no_sign]
  simp only [ht.unsigned?_eq_none, floatNames, List.mem_cons, List.not_mem_nil, or_false]
  rw [← or_assoc]
  by_cases hinf : t.lowerAscii = "inf" ∨ t.lowerAscii = "infinity"
  · rw [if_pos hinf]
    exact iff_of_false (Option.some_ne_none _) fun h => h (.inl hinf)
  · rw [if_neg hinf]
    by_cases hnan : t.lowerAscii = "nan"
    · rw [if_pos hnan]
      exact iff_of_false (Option.some_ne_none _) fun h => h (.inr hnan)
    · rw [if_neg hnan]
      exact iff_of_true rfl (not_or.2 ⟨hinf, hnan⟩)

/-- A word that is no truth value is kept unless it is the name of a float. -/
theorem plainText_ofText_letters (htrue : Text.sameAscii t "true" = false) (hfalse : Text.sameAscii t "false" = false) :
    plainText (ofText t) = t ↔ t.lowerAscii ∉ floatNames := by
  rw [← ht.read?_eq_none_iff]
  unfold ofText
  rw [ht.integer?_eq_none]
  cases hread : Decimal.read? t with
  | some x =>
    refine iff_of_false (plainText_float_ne ?_ ?_ x) (by simp)
    · exact ht.not_mem (by decide)
    · exact fun _ c hc => ht.isDigit_eq_false hc
  | none =>
    simp only [htrue, hfalse, Bool.false_eq_true, if_false, iff_true]
    rfl

end DirectiveEngine.Yaml
