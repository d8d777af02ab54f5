import DirectiveEngine.Number.Literal
import DirectiveEngine.Number.Notation
import Mathlib.Data.List.Induction

/-!
# Written numbers

The characters of a written number, and how it is read back: the notation of a natural number has its value within
any bound that holds it (`natural?_natText`), that of an integer within any bounds around it (`integer?_intText`), and
digits without a zero in front are the notation of their value (`natText_digitsValue`).  In a document no float is written
like an integer or a word (`point_or_exponent_mem_inDocument`).
-/

namespace DirectiveEngine

variable {c : Char}

/-! ### Characters -/

theorem isDigit_of_mem_natText {n : Nat} (h : c ∈ natText n) : c.isDigit = true :=
  Nat.isDigit_of_mem_toDigits (by decide) (by decide) h

theorem isDigit_natText {n : Nat} (h : c ∈ natText n) : isDigit c = true := by
  have hdigit := isDigit_of_mem_natText h
  simpa only [isDigit, Char.isDigit, Char.le_def, ge_iff_le] using hdigit

theorem not_mem_natText {n : Nat} (h : c.isDigit = false) : c ∉ natText n := by
  intro hmem
  rw [isDigit_of_mem_natText hmem] at h
  exact absurd h (by decide)

/-- A character that no number is written with. -/
def IsForeign (c : Char) : Prop :=
  c.isDigit = false ∧ c ∉ ['-', '.', 'N', 'a', 'i', 'n', 'f']

instance (c : Char) : Decidable (IsForeign c) :=
  inferInstanceAs (Decidable (_ ∧ _))

namespace IsForeign

variable (hc : IsForeign c)
include hc

theorem not_mem_natText (n : Nat) : c ∉ natText n :=
  DirectiveEngine.not_mem_natText hc.1

private theorem ne {d : Char} (hd : d.isDigit = true ∨ d ∈ ['-', '.', 'N', 'a', 'i', 'n', 'f']) : c ≠ d := by
  rintro rfl
  rcases hd with hd | hd
  · rw [hc.1] at hd
    exact absurd hd (by decide)
  · exact hc.2 hd

theorem not_mem_intText (i : Int) : c ∉ intText i := by
  cases i with
  | ofNat n => exact hc.not_mem_natText n
  | negSucc n =>
    have hminus : c ≠ '-' := hc.ne (by decide)
    simpa [intText, hminus] using hc.not_mem_natText (n + 1)

theorem not_mem_sign (negative : Bool) : c ∉ Decimal.sign negative := by
  have hminus : c ≠ '-' := hc.ne (by decide)
  cases negative <;> simp [Decimal.sign, hminus]

private theorem not_mem_positional (d : Nat) (k : Int) : c ∉ Decimal.positional d k := by
  have hd := hc.not_mem_natText d
  have hzero : c ≠ '0' := hc.ne (by decide)
  have hpoint : c ≠ '.' := hc.ne (by decide)
  unfold Decimal.positional
  simp only
  split
  · simp [hd, hzero]
  · split
    · simpa [hpoint] using ⟨fun h => hd (List.mem_of_mem_take h), fun h => hd (List.mem_of_mem_drop h)⟩
    · simp [hd, hzero, hpoint]

theorem not_mem_plain (x : Float) : c ∉ Decimal.plain x := by
  have hletter {d : Char} (hd : d ∈ ['-', '.', 'N', 'a', 'i', 'n', 'f']) : c ≠ d := hc.ne (.inr hd)
  have hzero : c ≠ '0' := hc.ne (by decide)
  unfold Decimal.plain
  split
  · simp [hletter]
  · simpa [hletter] using hc.not_mem_sign _
  · split
    · simpa [hzero] using hc.not_mem_sign _
    · simpa using ⟨hc.not_mem_sign _, hc.not_mem_positional _ _⟩

theorem not_mem_withFraction (x : Float) : c ∉ Decimal.withFraction x := by
  have hzero : c ≠ '0' := hc.ne (by decide)
  have hpoint : c ≠ '.' := hc.ne (by decide)
  unfold Decimal.withFraction
  split
  · simpa [hzero, hpoint] using ⟨hc.not_mem_sign _, hc.not_mem_natText _⟩
  · exact hc.not_mem_plain x

end IsForeign

/-- No number is written with a NUL. -/
theorem isForeign_nul : IsForeign '\x00' := by
  decide

theorem natText_ne_nil (n : Nat) : natText n ≠ [] := by
  have h : 0 < (natText n).length := Nat.length_toDigits_pos
  rintro hn
  simp [hn] at h

private theorem exponent_mem_scientific (d : Nat) (k : Int) :
    'e' ∈ Decimal.scientific d k ∧ ∃ c ∈ Decimal.scientific d k, isDigit c = true := by
  obtain ⟨c, rest, htext⟩ := List.exists_cons_of_ne_nil (natText_ne_nil d)
  have hdigit : isDigit c = true := isDigit_natText (n := d) (htext ▸ List.mem_cons_self)
  rw [Decimal.scientific, htext]
  exact ⟨by simp, c, by simp, hdigit⟩

/-- A float is written in a document with a point, or with an exponent behind digits. -/
theorem point_or_exponent_mem_inDocument (x : Float) :
    '.' ∈ Decimal.inDocument x ∨ 'e' ∈ Decimal.inDocument x ∧ ∃ c ∈ Decimal.inDocument x, isDigit c = true := by
  have hpositional {d : Nat} {k : Int} (hk : k < 0) : '.' ∈ Decimal.positional d k := by
    unfold Decimal.positional
    simp only
    rw [if_neg (by omega)]
    split <;> simp
  unfold Decimal.inDocument
  split
  · exact .inl (by decide)
  · exact .inl (List.mem_append_right _ (by decide))
  · split
    · exact .inl (List.mem_append_right _ (by decide))
    · rename_i negative m e _ _
      simp only
      generalize Decimal.shortest .even m e = r
      split
      · exact .inl (by simp)
      · split
        · -- a whole number of so few digits was written above
          exact .inl (List.mem_append_right _ (hpositional (by omega)))
        · obtain ⟨he, c, hc, hdigit⟩ := exponent_mem_scientific r.1 r.2
          exact .inr ⟨List.mem_append_right _ he, c, List.mem_append_right _ hc, hdigit⟩

/-! ### Reading back -/

theorem digits?_of_mem {t : Text} (hc : c ∈ t) (hdigit : isDigit c = false) : digits? t = none := by
  have hall : t.all isDigit = false := List.all_eq_false.2 ⟨c, hc, by simp [hdigit]⟩
  simp [digits?, hall]

theorem digitsValue_natText (n : Nat) : digitsValue (natText n) = n := by
  have h := Nat.ofDigitChars_ten_toDigits (n := n)
  rwa [Nat.ofDigitChars_eq_foldl] at h

theorem natural?_of_mem {max : Nat} {t : Text} (hc : c ∈ t) (hdigit : isDigit c = false) (hplus : c ≠ '+') :
    natural? max t = none := by
  have hmem : c ∈ (Text.stripPrefix? "+" t).getD t := by
    cases hp : Text.stripPrefix? "+" t with
    | none => exact hc
    | some r =>
      rw [Text.eq_append_of_isPrefixOf? hp] at hc
      exact (List.mem_cons.1 hc).resolve_left hplus
  rw [natural?, digits?_of_mem hmem hdigit]
  rfl

/-- A number ends where its digits end. -/
theorem natText_append_inj {m n : Nat} {s t : Text} (hs : ∀ c ∈ s.head?, isDigit c = false)
    (ht : ∀ c ∈ t.head?, isDigit c = false) (h : natText m ++ s = natText n ++ t) : m = n ∧ s = t := by
  have hcut {k : Nat} {u : Text} (hu : ∀ c ∈ u.head?, isDigit c = false) :
      (natText k ++ u).takeWhile isDigit = natText k := by
    rw [List.takeWhile_append_of_pos fun c hc => isDigit_natText hc]
    cases u with
    | nil => simp
    | cons c u => simp [hu c rfl]
  have htext : natText m = natText n := by rw [← hcut hs, h, hcut ht]
  have hnumber : m = n := by rw [← digitsValue_natText m, htext, digitsValue_natText]
  subst hnumber
  exact ⟨rfl, List.append_cancel_left h⟩

theorem digits?_natText (n : Nat) : digits? (natText n) = some n := by
  have hall : (natText n).all isDigit = true := List.all_eq_true.2 fun _ hc => isDigit_natText hc
  have hne : (natText n).isEmpty = false := by simpa using natText_ne_nil n
  rw [digits?, hall, hne, digitsValue_natText]
  rfl

theorem natural?_natText {n max : Nat} (h : n ≤ max) : natural? max (natText n) = some n := by
  have hplus : Text.stripPrefix? "+" (natText n) = none := by
    cases hp : Text.stripPrefix? "+" (natText n) with
    | none => rfl
    | some r =>
      refine absurd ?_ (not_mem_natText (c := '+') (n := n) (by decide))
      rw [Text.eq_append_of_isPrefixOf? hp]
      simp
  rw [natural?, hplus, Option.getD_none, digits?_natText]
  simp [h]

theorem integer?_of_head {min max : Int} {t : Text} (h : ∀ c ∈ t.head?, c ≠ '-' ∧ c ≠ '+') :
    integer? min max t = ((digits? t).map Int.ofNat).filter fun n => min ≤ n && n ≤ max := by
  unfold integer?
  split
  · exact absurd rfl (h '-' rfl).1
  · exact absurd rfl (h '+' rfl).2
  · rfl

theorem Decimal.takeSign_of_head {t : Text} (h : ∀ c ∈ t.head?, c ≠ '-' ∧ c ≠ '+') : takeSign t = (false, t) := by
  unfold takeSign
  split
  · exact absurd rfl (h '-' rfl).1
  · exact absurd rfl (h '+' rfl).2
  · rfl

theorem integer?_intText (min max n : Int) :
    integer? min max (intText n) = if min ≤ n ∧ n ≤ max then some n else none := by
  have hfilter : (some n).filter (fun n => min ≤ n && n ≤ max) = if min ≤ n ∧ n ≤ max then some n else none := by
    simp [Option.filter_some]
  cases n with
  | ofNat n =>
    have hhead : ∀ c ∈ (natText n).head?, c ≠ '-' ∧ c ≠ '+' := by
      intro c hc
      have hdigit := isDigit_natText (List.mem_of_head? hc)
      constructor <;> (rintro rfl; exact absurd hdigit (by decide))
    rw [← hfilter, intText, integer?_of_head hhead, digits?_natText]
    rfl
  | negSucc n =>
    rw [← hfilter]
    show ((digits? (natText (n + 1))).map fun n => -(n : Int)).filter _ = _
    rw [digits?_natText]
    rfl

/-! ### Notations without superfluous zeros -/

private theorem digitChar_digitValue (h : isDigit c = true) : Nat.digitChar (digitValue c) = c ∧ digitValue c < 10 := by
  have hchars : ∀ n < 10, Nat.digitChar n = Char.ofNat (n + 48) := by decide
  simp only [isDigit, Bool.and_eq_true, decide_eq_true_eq] at h
  have hlow : 48 ≤ c.toNat := h.1
  have hhigh : c.toNat ≤ 57 := h.2
  have hvalue : digitValue c + 48 = c.toNat := Nat.sub_add_cancel hlow
  have hlt : digitValue c < 10 := by omega
  refine ⟨?_, hlt⟩
  rw [hchars _ hlt, hvalue, Char.ofNat_toNat]

private theorem digitsValue_concat (t : Text) (c : Char) : digitsValue (t ++ [c]) = 10 * digitsValue t + digitValue c := by
  simp [digitsValue]

/-- Digits that do not start with a zero are the notation of their value. -/
theorem natText_digitsValue {t : Text} (hc : c ≠ '0') (h : ∀ d ∈ c :: t, isDigit d = true) :
    natText (digitsValue (c :: t)) = c :: t ∧ 0 < digitsValue (c :: t) := by
  induction t using List.reverseRecOn with
  | nil =>
    obtain ⟨hchar, hlt⟩ := digitChar_digitValue (h c List.mem_cons_self)
    have hvalue : digitsValue [c] = digitValue c := Nat.zero_add _
    have hpos : digitValue c ≠ 0 := by
      intro hzero
      rw [hzero] at hchar
      exact hc hchar.symm
    rw [hvalue, natText, Nat.toDigits_of_lt_base hlt, hchar]
    exact ⟨rfl, Nat.pos_of_ne_zero hpos⟩
  | append_singleton t d ih =>
    obtain ⟨hchar, hlt⟩ := digitChar_digitValue (h d (by simp))
    obtain ⟨htext, hpos⟩ := ih fun x hx => h x (by rw [← List.cons_append]; exact List.mem_append_left _ hx)
    have hvalue : digitsValue (c :: (t ++ [d])) = 10 * digitsValue (c :: t) + digitValue d :=
      digitsValue_concat (c :: t) d
    refine ⟨?_, by omega⟩
    rw [hvalue, natText, ← Nat.toDigits_append_toDigits (by decide) hpos hlt, Nat.toDigits_of_lt_base hlt, hchar]
    exact congrArg (· ++ [d]) htext

end DirectiveEngine
