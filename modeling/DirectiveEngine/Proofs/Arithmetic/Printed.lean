import DirectiveEngine.Proofs.Arithmetic.Expression
import DirectiveEngine.Proofs.Number

/-!
# Printed numbers

A finite double is printed as a literal, perhaps behind a minus sign, and any other one with a letter that no
expression holds (`isSome_printed?_iff`, `exists_stray_of_printed?`).  So a finite number may stand in an expression
wherever an operand may.
-/

namespace DirectiveEngine

namespace Binary64

def IsFinite (x : Float) : Prop :=
  ∃ negative m e, parts x = .finite negative m e

end Binary64

namespace Arithmetic

variable {α : Type} {num : Numbers α} {c : Char} {l s t : Text} {negative : Bool}

/-! ### Numbers as expressions -/

/-- The expression that a printed number is: a literal, or the negation of one. -/
def printed? : Text → Option Expression
  | '-' :: l => if h : IsLiteral l then some (.negate (.literal ⟨l, h⟩)) else none
  | l => if h : IsLiteral l then some (.literal ⟨l, h⟩) else none

theorem IsLiteral.head?_ne_minus (h : IsLiteral l) : l.head? ≠ some '-' := fun hhead =>
  absurd (h.chars '-' (List.mem_of_head? hhead)) (by decide)

theorem printed?_literal (h : IsLiteral l) : printed? l = some (.literal ⟨l, h⟩) := by
  unfold printed?
  split
  · exact absurd rfl h.head?_ne_minus
  · rw [dif_pos h]

theorem isSome_printed?_sign (h : IsLiteral l) : (printed? (Decimal.sign negative ++ l)).isSome := by
  cases negative with
  | false => exact Option.isSome_of_eq_some (printed?_literal h)
  | true =>
    change (if h : IsLiteral l then some (Expression.negate (.literal ⟨l, h⟩)) else none).isSome
    rw [dif_pos h]
    rfl

/-- A printed number is written like any other operand. -/
theorem written_of_printed? {e : Expression} (h : printed? s = some e) (n : Nat) : Written n e s := by
  unfold printed? at h
  split at h
  · split at h
    · rename_i l hl
      rw [← Option.some.inj h]
      exact .negate (.literal ⟨l, hl⟩)
    · cases h
  · split at h
    · rename_i hl
      rw [← Option.some.inj h]
      exact .literal ⟨_, hl⟩
    · cases h

/-- A printed number has a value. -/
theorem value_of_printed? (hnum : num.ReadsLiterals) {e : Expression} (h : printed? s = some e) :
    ∃ x, e.value num = .ok x := by
  unfold printed? at h
  split at h
  · split at h
    · rename_i l hl
      obtain ⟨x, -, hx⟩ := hnum.value_literal ⟨l, hl⟩
      refine ⟨num.neg x, ?_⟩
      rw [← Option.some.inj h, Expression.value, hx]
      rfl
    · cases h
  · split at h
    · rename_i hl
      obtain ⟨x, -, hx⟩ := hnum.value_literal ⟨_, hl⟩
      exact ⟨x, Option.some.inj h ▸ hx⟩
    · cases h

theorem char_of_printed? {e : Expression} (h : printed? s = some e) (hc : c ∈ s) :
    c = '-' ∨ isLiteralChar c = true := by
  unfold printed? at h
  split at h
  · split at h
    · rename_i l hl
      exact (List.mem_cons.1 hc).imp_right (hl.chars c)
    · cases h
  · split at h
    · rename_i hl
      exact .inr (hl.chars c hc)
    · cases h

/-- A character of no lexeme, blank or name. -/
def IsStray (c : Char) : Prop :=
  isLiteralChar c = false ∧ symbol? c = none ∧ isBlank c = false ∧ ∀ f : Function, c ∉ f.name

/-- Every number is printed as an expression, or with a stray character. -/
def Numbers.Prints (num : Numbers α) : Prop :=
  ∀ x, (printed? (num.text x)).isSome ∨ ∃ c ∈ num.text x, IsStray c

/-! ### Doubles -/

private theorem isLiteralChar_of_isDigit (h : isDigit c = true) : isLiteralChar c = true := by
  simp [isLiteralChar, h]

private theorem count_point_digits (h : ∀ c ∈ t, isDigit c = true) : t.count '.' = 0 :=
  List.count_eq_zero.2 fun hmem => absurd (h '.' hmem) (by decide)

/-- Digits with one point among them. -/
private theorem isLiteral_point {a b : Text} (ha : ∀ c ∈ a, isDigit c = true) (hb : ∀ c ∈ b, isDigit c = true)
    (hne : a ≠ []) : IsLiteral (a ++ '.' :: b) := by
  obtain ⟨c, hc⟩ := List.exists_mem_of_ne_nil a hne
  refine ⟨fun d hd => ?_, ?_, c, List.mem_append_left _ hc, ha c hc⟩
  · rcases List.mem_append.1 hd with hd | hd
    · exact isLiteralChar_of_isDigit (ha d hd)
    · rcases List.mem_cons.1 hd with rfl | hd
      · decide
      · exact isLiteralChar_of_isDigit (hb d hd)
  · rw [List.count_append, List.count_cons_self, count_point_digits ha, count_point_digits hb]

private theorem isLiteral_digits (h : ∀ c ∈ t, isDigit c = true) (hne : t ≠ []) : IsLiteral t := by
  obtain ⟨c, hc⟩ := List.exists_mem_of_ne_nil t hne
  refine ⟨fun d hd => isLiteralChar_of_isDigit (h d hd), ?_, c, hc, h c hc⟩
  rw [count_point_digits h]
  exact Nat.zero_le 1

private theorem isLiteral_zero : IsLiteral "0" :=
  isLiteral_digits (t := ['0']) (List.forall_mem_singleton.2 rfl) (List.cons_ne_nil _ _)

theorem isLiteral_natText (n : Nat) : IsLiteral (natText n) :=
  isLiteral_digits (fun _ hc => isDigit_natText hc) (natText_ne_nil n)

theorem isLiteral_positional (d : Nat) (k : Int) : IsLiteral (Decimal.positional d k) := by
  have hdigits : ∀ c ∈ natText d, isDigit c = true := fun _ hc => isDigit_natText hc
  have hzeros (n : Nat) : ∀ c ∈ List.replicate n '0', isDigit c = true := fun c hc => by
    rw [List.eq_of_mem_replicate hc]
    decide
  have happend {a b : Text} (ha : ∀ c ∈ a, isDigit c = true) (hb : ∀ c ∈ b, isDigit c = true) :
      ∀ c ∈ a ++ b, isDigit c = true := fun c hc => (List.mem_append.1 hc).elim (ha c) (hb c)
  unfold Decimal.positional
  simp only
  split
  · exact isLiteral_digits (happend hdigits (hzeros _)) (by simp [natText_ne_nil])
  · split
    · refine isLiteral_point (fun c hc => hdigits c (List.mem_of_mem_take hc))
        (fun c hc => hdigits c (List.mem_of_mem_drop hc)) ?_
      rw [Ne, List.take_eq_nil_iff]
      rintro (h | h)
      · omega
      · exact natText_ne_nil d h
    · exact isLiteral_point (a := ['0']) (List.forall_mem_singleton.2 rfl) (happend (hzeros _) hdigits) (by simp)

/-- A finite double is printed with an optional sign, digits and an optional fraction. -/
theorem floatText_of_isFinite {x : Float} (h : Binary64.IsFinite x) :
    ∃ negative l, IsLiteral l ∧ floatText x = Decimal.sign negative ++ l := by
  obtain ⟨negative, m, e, hx⟩ := h
  unfold floatText
  rw [hx]
  split
  · rename_i hparts
    cases hparts
  · rename_i negative n _ _
    split
    · exact ⟨false, "0", isLiteral_zero, rfl⟩
    · exact ⟨negative, natText n, isLiteral_natText n, rfl⟩
  · unfold Decimal.plain
    rw [hx]
    simp only
    split
    · exact ⟨negative, "0", isLiteral_zero, rfl⟩
    · exact ⟨negative, _, isLiteral_positional _ _, rfl⟩

private theorem isStray_upper : IsStray 'N' ∧ IsStray 'I' := by
  refine ⟨⟨rfl, rfl, rfl, fun f => ?_⟩, ⟨rfl, rfl, rfl, fun f => ?_⟩⟩
  all_goals cases f <;> decide

/-- Any other double is printed as a word with a capital letter. -/
theorem exists_stray_of_not_isFinite {x : Float} (h : ¬ Binary64.IsFinite x) : ∃ c ∈ floatText x, IsStray c := by
  cases hx : Binary64.parts x with
  | finite negative m e => exact absurd ⟨negative, m, e, hx⟩ h
  | infinite negative =>
    refine ⟨'I', ?_, isStray_upper.2⟩
    unfold floatText
    rw [hx]
    exact List.mem_append_right _ (by decide)
  | nan =>
    refine ⟨'N', ?_, isStray_upper.1⟩
    have hwhole : Binary64.whole? x = none := by rw [Binary64.whole?, hx]
    have hplain : Decimal.plain x = "NaN" := by rw [Decimal.plain, hx]
    unfold floatText
    rw [hx, hwhole, hplain]
    decide

theorem binary64_prints : binary64.Prints := by
  intro x
  by_cases hx : Binary64.IsFinite x
  · obtain ⟨negative, l, hl, htext⟩ := floatText_of_isFinite hx
    refine .inl ?_
    change (printed? (floatText x)).isSome
    rw [htext]
    exact isSome_printed?_sign hl
  · exact .inr (exists_stray_of_not_isFinite hx)

theorem not_isStray_of_printed? {e : Expression} (h : printed? s = some e) : ∀ c ∈ s, ¬ IsStray c := by
  rintro c hc ⟨hliteral, hsymbol, -⟩
  rcases char_of_printed? h hc with rfl | hchar
  · exact absurd hsymbol (by decide)
  · rw [hliteral] at hchar
    exact absurd hchar (by decide)

/-- The finite doubles are those that are printed as expressions. -/
theorem isSome_printed?_iff {x : Float} : (printed? (floatText x)).isSome ↔ Binary64.IsFinite x := by
  constructor
  · intro h
    obtain ⟨e, he⟩ := Option.isSome_iff_exists.1 h
    by_contra hx
    obtain ⟨c, hc, hstray⟩ := exists_stray_of_not_isFinite hx
    exact not_isStray_of_printed? he c hc hstray
  · intro hx
    obtain ⟨negative, l, hl, htext⟩ := floatText_of_isFinite hx
    rw [htext]
    exact isSome_printed?_sign hl

end Arithmetic

end DirectiveEngine
