import DirectiveEngine.Text.LetterCase

/-!
# Lowercase forms

An ASCII character has one lowercase form, wherever it stands (`Text.lower_of_ascii`).  A sigma is put in lowercase by
what stands around it, but no character is ever left out, so a text that goes on has another form than its beginning
(`Text.lower_append_ne`).
-/

namespace DirectiveEngine

/-! ### Characters -/

theorem toNat_lowerAscii_lt {c : Char} : (lowerAscii c).toNat < 128 ↔ c.toNat < 128 := by
  have hascii : ∀ n < 128, (lowerAscii (Char.ofNat n)).toNat < 128 := by decide +kernel
  constructor
  · intro h
    unfold lowerAscii at h
    split at h
    · rename_i hupper
      exact Nat.lt_of_le_of_lt (show c.toNat ≤ 'Z'.toNat from hupper.2) (by decide)
    · exact h
  · intro h
    simpa using hascii c.toNat h

theorem lowerChar_ne_nil (c : Char) : lowerChar c ≠ [] := by
  unfold lowerChar
  split
  · simp
  · split
    · simp
    · split <;> simp

/-! ### Texts -/

namespace Text

/-- Among ASCII characters the lowercase form does not depend on what stands around. -/
theorem lower_of_ascii {t : Text} (h : ∀ c ∈ t, c.toNat < 128) : lower t = lowerAscii t := by
  suffices h' : ∀ before, lowerAfter before t = lowerAscii t from h' []
  induction t with
  | nil => exact fun _ => rfl
  | cons c t ih =>
    intro before
    have hc := h c List.mem_cons_self
    rw [lowerAfter, if_neg (by omega), lowerChar, if_pos hc, ih fun d hd => h d (List.mem_cons_of_mem _ hd)]
    rfl

/-- How many characters the lowercase form of a text has does not depend on what stands in front of it. -/
private theorem length_lowerAfter (before before' t : Text) :
    (lowerAfter before t).length = (lowerAfter before' t).length := by
  induction t generalizing before before' with
  | nil => rfl
  | cons c t ih =>
    rw [lowerAfter, lowerAfter, List.length_append, List.length_append, ih (c :: before) (c :: before')]
    split <;> rfl

private theorem length_lowerAfter_append (before t u : Text) :
    (lowerAfter before (t ++ u)).length = (lowerAfter before t).length + (lower u).length := by
  induction t generalizing before with
  | nil => rw [lowerAfter, List.length_nil, Nat.zero_add, List.nil_append, lower, length_lowerAfter before []]
  | cons c t ih =>
    rw [List.cons_append, lowerAfter, lowerAfter, List.length_append, List.length_append, ih (c :: before),
      Nat.add_assoc]
    split <;> rfl

theorem lower_ne_nil {t : Text} (h : t ≠ []) : lower t ≠ [] := by
  cases t with
  | nil => exact absurd rfl h
  | cons c t =>
    rw [lower, lowerAfter]
    split
    · simp
    · exact List.append_ne_nil_of_left_ne_nil (lowerChar_ne_nil c) _

/-- A text that goes on has another lowercase form. -/
theorem lower_append_ne {u : Text} (h : u ≠ []) (t : Text) : lower (t ++ u) ≠ lower t := by
  intro heq
  have hlen : (lower (t ++ u)).length = (lower t).length + (lower u).length := length_lowerAfter_append [] t u
  have hpos : 0 < (lower u).length := List.length_pos_iff.2 (lower_ne_nil h)
  rw [heq] at hlen
  omega

end Text

end DirectiveEngine
