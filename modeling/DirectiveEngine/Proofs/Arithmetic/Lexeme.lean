import DirectiveEngine.Arithmetic.Token
import DirectiveEngine.Proofs.Except
import DirectiveEngine.Proofs.Number
import Mathlib.Data.List.TakeWhile

/-!
# Literals and lexemes

A literal is a run of digits with at most one point among them; those are the unsigned texts that doubles are read
from (`isSome_read?_iff`).  The lexemes of a text are its characters again, cut up (`flatMap_text_of_lexemes`), and a
symbol is a lexeme of its own wherever it stands (`lexemes_append_symbol`).
-/

namespace DirectiveEngine.Arithmetic

variable {c : Char} {l s u : Text}

/-! ### Literals -/

/-- Digits with at most one point, and at least one digit. -/
structure IsLiteral (l : Text) : Prop where
  chars : ∀ c ∈ l, isLiteralChar c = true
  point : l.count '.' ≤ 1
  digit : ∃ c ∈ l, isDigit c = true

instance (l : Text) : Decidable (IsLiteral l) :=
  decidable_of_iff (l.all isLiteralChar = true ∧ l.count '.' ≤ 1 ∧ l.any isDigit = true)
    ⟨fun h => ⟨List.all_eq_true.1 h.1, h.2.1, List.any_eq_true.1 h.2.2⟩,
      fun h => ⟨List.all_eq_true.2 h.chars, h.point, List.any_eq_true.2 h.digit⟩⟩

abbrev Literal := { l : Text // IsLiteral l }

theorem IsLiteral.ne_nil (h : IsLiteral l) : l ≠ [] := by
  rintro rfl
  simpa using h.digit

private theorem isDigit_or_eq_point (h : isLiteralChar c = true) : isDigit c = true ∨ c = '.' := by
  simpa [isLiteralChar] using h

private theorem not_isDigit_point : isDigit '.' = false := by
  decide

/-- A literal character is none of the letters and signs that reading a number looks for. -/
private theorem isLiteralChar_lowerAscii (h : isLiteralChar c = true) : isLiteralChar (lowerAscii c) = true := by
  have hcase : ¬ ('A' ≤ c ∧ c ≤ 'Z') := by
    rintro ⟨hA, -⟩
    rcases isDigit_or_eq_point h with hd | rfl
    · simp only [isDigit, Bool.and_eq_true, decide_eq_true_eq] at hd
      exact absurd (Char.le_trans hA hd.2) (by decide)
    · exact absurd hA (by decide)
  rwa [lowerAscii, if_neg hcase]

private theorem takeSign_of_literal (h : ∀ c ∈ l, isLiteralChar c = true) : Decimal.takeSign l = (false, l) :=
  Decimal.takeSign_of_head fun c hc => by
    have hliteral : isLiteralChar c = true := h c (List.mem_of_head? hc)
    constructor <;>
      · rintro rfl
        exact absurd hliteral (by decide)

/-- Without letters there is no word. -/
private theorem lowerAscii_ne_word (h : ∀ c ∈ l, isLiteralChar c = true) (word : Text)
    (hword : word.all isLiteralChar = false) : Text.lowerAscii l ≠ word := by
  rintro rfl
  obtain ⟨c, hc, hno⟩ := List.all_eq_false.1 hword
  obtain ⟨d, hd, rfl⟩ := List.mem_map.1 hc
  exact hno (isLiteralChar_lowerAscii (h d hd))

private theorem takeWhile_isDigit_eq_self (hpoint : '.' ∉ l) (h : ∀ c ∈ l, isLiteralChar c = true) :
    l.takeWhile isDigit = l ∧ l.dropWhile isDigit = [] := by
  have hall : ∀ c ∈ l, isDigit c = true := fun c hc =>
    (isDigit_or_eq_point (h c hc)).resolve_right fun heq => hpoint (heq ▸ hc)
  exact ⟨List.takeWhile_eq_self_iff.2 hall, List.dropWhile_eq_nil_iff.2 hall⟩

/-- The digits before the first point, and what stands behind it. -/
private theorem takeWhile_isDigit_append (hpoint : '.' ∉ l) (h : ∀ c ∈ l, isLiteralChar c = true) (r : Text) :
    (l ++ '.' :: r).takeWhile isDigit = l ∧ (l ++ '.' :: r).dropWhile isDigit = '.' :: r := by
  have hall : ∀ c ∈ l, isDigit c = true := fun c hc =>
    (isDigit_or_eq_point (h c hc)).resolve_right fun heq => hpoint (heq ▸ hc)
  rw [List.takeWhile_append_of_pos hall, List.dropWhile_append_of_pos hall]
  simp [not_isDigit_point]

private theorem exists_isDigit_iff (hpoint : '.' ∉ l) (h : ∀ c ∈ l, isLiteralChar c = true) :
    (∃ c ∈ l, isDigit c = true) ↔ l ≠ [] := by
  constructor
  · rintro ⟨c, hc, -⟩ rfl
    simp at hc
  · intro hne
    obtain ⟨c, r, rfl⟩ := List.exists_cons_of_ne_nil hne
    refine ⟨c, List.mem_cons_self, (isDigit_or_eq_point (h c List.mem_cons_self)).resolve_right ?_⟩
    rintro rfl
    exact hpoint List.mem_cons_self

private theorem isSome_unsigned?_iff (h : ∀ c ∈ l, isLiteralChar c = true) :
    (Decimal.unsigned? l).isSome ↔ IsLiteral l := by
  by_cases hpoint : '.' ∈ l
  · obtain ⟨a, r, rfl, ha⟩ := List.eq_append_cons_of_mem hpoint
    have hchars : (∀ c ∈ a, isLiteralChar c = true) ∧ ∀ c ∈ r, isLiteralChar c = true :=
      ⟨fun c hc => h c (by simp [hc]), fun c hc => h c (by simp [hc])⟩
    obtain ⟨htake, hdrop⟩ := takeWhile_isDigit_append ha hchars.1 r
    have hpoints : (a ++ '.' :: r).count '.' ≤ 1 ↔ '.' ∉ r := by
      rw [List.count_append, List.count_cons_self, List.count_eq_zero.2 ha, ← List.count_eq_zero]
      omega
    by_cases hr : '.' ∈ r
    · -- a second point is no exponent
      obtain ⟨b, q, rfl, hb⟩ := List.eq_append_cons_of_mem hr
      obtain ⟨-, hrest⟩ := takeWhile_isDigit_append hb (fun c hc => hchars.2 c (by simp [hc])) q
      refine iff_of_false ?_ fun hl => hpoints.1 hl.point hr
      simp [Decimal.unsigned?, htake, hdrop, hrest, Decimal.exponent?]
    · obtain ⟨hfraction, hrest⟩ := takeWhile_isDigit_eq_self hr hchars.2
      have hdigit : (∃ c ∈ a ++ '.' :: r, isDigit c = true) ↔ ¬ (a = [] ∧ r = []) := by
        simp only [List.mem_append, List.mem_cons, or_and_right, exists_or, exists_eq_left, not_isDigit_point]
        rw [exists_isDigit_iff ha hchars.1, exists_isDigit_iff hr hchars.2]
        grind
      have hliteral : IsLiteral (a ++ '.' :: r) ↔ ¬ (a = [] ∧ r = []) :=
        ⟨fun hl => hdigit.1 hl.digit, fun hne => ⟨h, hpoints.2 hr, hdigit.2 hne⟩⟩
      rw [hliteral]
      simp [Decimal.unsigned?, htake, hdrop, hrest, hfraction, Decimal.exponent?]
  · obtain ⟨htake, hdrop⟩ := takeWhile_isDigit_eq_self hpoint h
    have hliteral : IsLiteral l ↔ l ≠ [] :=
      ⟨IsLiteral.ne_nil, fun hne =>
        ⟨h, by rw [List.count_eq_zero.2 hpoint]; omega, (exists_isDigit_iff hpoint h).2 hne⟩⟩
    rw [hliteral]
    simp [Decimal.unsigned?, htake, hdrop, Decimal.exponent?]

private theorem isSome_read?_iff_of_takeSign {negative : Bool} (hs : Decimal.takeSign s = (negative, l))
    (h : ∀ c ∈ l, isLiteralChar c = true) : (Decimal.read? s).isSome ↔ IsLiteral l := by
  have hinf := lowerAscii_ne_word h "inf" (by decide)
  have hinfinity := lowerAscii_ne_word h "infinity" (by decide)
  have hnan := lowerAscii_ne_word h "nan" (by decide)
  rw [← isSome_unsigned?_iff h, Decimal.read?, hs]
  simp only
  rw [if_neg (not_or.2 ⟨hinf, hinfinity⟩), if_neg hnan, Option.isSome_map]

/-- Of the texts of literal characters, the literals are those that a double is read from. -/
theorem isSome_read?_iff (h : ∀ c ∈ l, isLiteralChar c = true) :
    (Decimal.read? l).isSome ↔ IsLiteral l :=
  isSome_read?_iff_of_takeSign (takeSign_of_literal h) h

/-- Behind a minus sign it is the same. -/
theorem isSome_read?_minus (h : ∀ c ∈ l, isLiteralChar c = true) :
    (Decimal.read? ('-' :: l)).isSome ↔ IsLiteral l :=
  isSome_read?_iff_of_takeSign rfl h

/-! ### Lexemes -/

def Operator.symbol : Operator → Char
  | .add => '+'
  | .sub => '-'
  | .mul => '*'
  | .div => '/'
  | .mod => '%'
  | .pow => '^'

def Lexeme.text : Lexeme → Text
  | .literal l => l
  | .operator op => [op.symbol]
  | .opening => ['(']
  | .closing => [')']

theorem symbol?_symbol (op : Operator) : symbol? op.symbol = some (.operator op) := by
  cases op <;> rfl

theorem isLiteralChar_symbol (op : Operator) : isLiteralChar op.symbol = false := by
  cases op <;> decide

theorem text_of_symbol? {x : Lexeme} (h : symbol? c = some x) : x.text = [c] ∧ ∀ l, x ≠ .literal l := by
  unfold symbol? at h
  split at h <;> simp_all [Lexeme.text, Operator.symbol] <;> subst h <;> simp

theorem flatMap_text_consLiteral (c : Char) (ls : List Lexeme) :
    (consLiteral c ls).flatMap Lexeme.text = c :: ls.flatMap Lexeme.text := by
  unfold consLiteral
  split <;> rfl

/-- Lexemes hold all characters of the text, in order. -/
theorem flatMap_text_of_lexemes {ls : List Lexeme} (h : lexemes s = .ok ls) : ls.flatMap Lexeme.text = s := by
  induction s generalizing ls with
  | nil =>
    rw [lexemes, Except.ok.injEq] at h
    rw [← h, List.flatMap_nil]
  | cons c s ih =>
    unfold lexemes at h
    split at h
    · obtain ⟨r, hr, rfl⟩ := map_eq_ok h
      rw [flatMap_text_consLiteral, ih hr]
    · split at h
      · rename_i x hx
        obtain ⟨r, hr, rfl⟩ := map_eq_ok h
        rw [List.flatMap_cons, ih hr, (text_of_symbol? hx).1]
        rfl
      · simp at h

/-- The lexemes of literals have literal characters only. -/
theorem isLiteralChar_of_lexemes {ls : List Lexeme} (h : lexemes s = .ok ls) (hl : .literal l ∈ ls) :
    ∀ c ∈ l, isLiteralChar c = true := by
  induction s generalizing ls l with
  | nil =>
    rw [lexemes, Except.ok.injEq] at h
    simp [← h] at hl
  | cons c s ih =>
    unfold lexemes at h
    split at h
    · rename_i hc
      obtain ⟨r, hr, rfl⟩ := map_eq_ok h
      unfold consLiteral at hl
      split at hl
      · rename_i l' r'
        rcases List.mem_cons.1 hl with hl | hl
        · obtain rfl := Lexeme.literal.inj hl
          exact List.forall_mem_cons.2 ⟨hc, ih hr List.mem_cons_self⟩
        · exact ih hr (List.mem_cons_of_mem _ hl)
      · rcases List.mem_cons.1 hl with hl | hl
        · obtain rfl := Lexeme.literal.inj hl
          simpa using hc
        · exact ih hr hl
    · split at h
      · rename_i x hx
        obtain ⟨r, hr, rfl⟩ := map_eq_ok h
        rcases List.mem_cons.1 hl with hl | hl
        · exact absurd hl.symm ((text_of_symbol? hx).2 l)
        · exact ih hr hl
      · simp at h

theorem lexemes_of_literal (hne : l ≠ []) (h : ∀ c ∈ l, isLiteralChar c = true) :
    lexemes l = .ok [.literal l] := by
  induction l with
  | nil => exact absurd rfl hne
  | cons c l ih =>
    obtain ⟨hc, hl⟩ := List.forall_mem_cons.1 h
    rw [lexemes, if_pos hc]
    cases l with
    | nil => rfl
    | cons d l =>
      rw [ih (by simp) hl]
      rfl

/-- A symbol is a lexeme of its own, between the lexemes of the texts on its sides. -/
theorem lexemes_append_symbol {x : Lexeme} (hx : symbol? c = some x) (hc : isLiteralChar c = false)
    {ls us : List Lexeme} (hs : lexemes s = .ok ls) (hu : lexemes u = .ok us) :
    lexemes (s ++ c :: u) = .ok (ls ++ x :: us) := by
  induction s generalizing ls with
  | nil =>
    rw [lexemes, Except.ok.injEq] at hs
    rw [← hs, List.nil_append, lexemes, hc, hx, hu]
    rfl
  | cons d s ih =>
    rw [List.cons_append]
    unfold lexemes at hs ⊢
    split at hs
    · rename_i hd
      obtain ⟨r, hr, rfl⟩ := map_eq_ok hs
      rw [if_pos hd, ih hr]
      refine congrArg Except.ok ?_
      cases r with
      | nil =>
        -- the symbol does not join the literal in front of it
        unfold consLiteral
        split
        · rename_i heq
          exact absurd (List.cons.inj heq).1 ((text_of_symbol? hx).2 _)
        · rfl
      | cons y r => cases y <;> rfl
    · rename_i hd
      rw [if_neg hd]
      split at hs
      · obtain ⟨r, hr, rfl⟩ := map_eq_ok hs
        rw [ih hr]
        rfl
      · simp at hs

theorem lexemes_cons_symbol {x : Lexeme} (hx : symbol? c = some x) (hc : isLiteralChar c = false)
    {us : List Lexeme} (hu : lexemes u = .ok us) : lexemes (c :: u) = .ok (x :: us) :=
  lexemes_append_symbol (s := []) hx hc rfl hu

end DirectiveEngine.Arithmetic
