import DirectiveEngine.Proofs.Template.Inert
import DirectiveEngine.Proofs.Template.Piece

/-!
# Texts that differ in words without parentheses

Two texts that are the same but for words without parentheses hold the same number of command groups
(`Near.tokens_groupPieces`).
-/

namespace DirectiveEngine

variable {R : Text → Text → Prop} {s s' t t' u u' : Text} {c : Char}

/-- No parenthesis stands in a text. -/
def IsLevel (t : Text) : Prop :=
  ∀ c ∈ t, c ≠ '(' ∧ c ≠ ')'

theorem IsInert.level (h : IsInert t) : IsLevel t :=
  fun c hc => ⟨fun heq => h.chars c hc (by simp [heq]), fun heq => h.chars c hc (by simp [heq])⟩

/-- Two texts that are the same but for words without parentheses.  Behind such a word no group is open that was not
in front of it. -/
inductive Near : Text → Text → Prop
  | nil : Near [] []
  | cons (c : Char) {t t' : Text} : Near t t' → Near (c :: t) (c :: t')
  | word {u u' s s' : Text} : IsLevel u → IsLevel u' → s.head? ≠ some '(' → s'.head? ≠ some '(' → Near s s' →
    Near (u ++ s) (u' ++ s')

namespace Near

theorem symm (h : Near t t') : Near t' t := by
  induction h with
  | nil => exact nil
  | cons c _ ih => exact cons c ih
  | word hu hu' hs hs' _ ih => exact word hu' hu hs' hs ih

theorem append_left (u : Text) (h : Near t t') : Near (u ++ t) (u ++ t') := by
  induction u with
  | nil => exact h
  | cons c u ih => exact cons c ih

theorem refl (t : Text) : Near t t := by
  simpa using nil.append_left t

theorem of_level (hu : IsLevel u) (hu' : IsLevel u') : Near u u' := by
  simpa using word hu hu' (by simp) (by simp) nil

theorem append_cons (h : Near u u') (hc : c ≠ '(') (hs : Near s s') : Near (u ++ c :: s) (u' ++ c :: s') := by
  have hhead {v s : Text} (hv : v.head? ≠ some '(') : (v ++ c :: s).head? ≠ some '(' := by
    cases v with
    | nil => simpa using hc
    | cons d v => exact hv
  induction h with
  | nil => exact cons c hs
  | cons d _ ih => exact cons d ih
  | word hv hv' hr hr' _ ih =>
    rw [List.append_assoc, List.append_assoc]
    exact word hv hv' (hhead hr) (hhead hr') ih

/-- What stands behind an open parenthesis. -/
private theorem of_open (h : Near ('(' :: t) t') : ∃ s', t' = '(' :: s' ∧ Near t s' := by
  generalize ht : '(' :: t = whole at h
  induction h with
  | nil => cases ht
  | cons c h =>
    cases ht
    exact ⟨_, rfl, h⟩
  | @word u u' s s' hu _ hs _ _ _ =>
    cases u with
    | nil => exact absurd (by rw [← List.nil_append s, ← ht]; rfl) hs
    | cons d u =>
      cases ht
      exact absurd rfl (hu '(' List.mem_cons_self).1

private theorem splitFirst?_level (hu : IsLevel u) (hs : s.head? ≠ some '(') :
    Text.splitFirst? groupOpening (u ++ s) = (Text.splitFirst? groupOpening s).map fun p => (u ++ p.1, p.2) := by
  induction u with
  | nil => simp
  | cons d u ih =>
    have hstart : ¬ groupOpening <+: d :: (u ++ s) := by
      rintro ⟨r, hr⟩
      have hnext : (u ++ s).head? = some '(' := by rw [← (List.cons.inj hr).2]; rfl
      cases u with
      | nil => exact hs hnext
      | cons d' u => exact (hu d' (by simp)).1 (Option.some.inj hnext)
    rw [List.cons_append, Text.splitFirst?_cons hstart, ih fun c hc => hu c (List.mem_cons_of_mem _ hc), Option.map_map]
    rfl

/-- Two cuts alike: none, or cuts with near texts behind them. -/
private def CutsAlike (p p' : Option (Text × Text)) : Prop :=
  p = none ∧ p' = none ∨ ∃ q ∈ p, ∃ q' ∈ p', Near q.2 q'.2

private theorem CutsAlike.map {p p' : Option (Text × Text)} (h : CutsAlike p p') (f f' : Text → Text) :
    CutsAlike (p.map fun q => (f q.1, q.2)) (p'.map fun q => (f' q.1, q.2)) := by
  rcases h with ⟨rfl, rfl⟩ | ⟨q, rfl, q', rfl, hnear⟩
  · exact .inl ⟨rfl, rfl⟩
  · exact .inr ⟨_, rfl, _, rfl, hnear⟩

private theorem splitFirst? (h : Near t t') :
    CutsAlike (Text.splitFirst? groupOpening t) (Text.splitFirst? groupOpening t') := by
  induction h with
  | nil => exact .inl ⟨rfl, rfl⟩
  | @cons c t t' h ih =>
    have hopen {t t' : Text} (h : Near t t') (hp : groupOpening <+: c :: t) :
        ∃ b b', c :: t = groupOpening ++ b ∧ c :: t' = groupOpening ++ b' ∧ Near b b' := by
      obtain ⟨b, hb⟩ := hp
      obtain ⟨rfl, rfl⟩ := List.cons.inj hb
      obtain ⟨b', rfl, hnear⟩ := h.of_open
      exact ⟨b, b', rfl, rfl, hnear⟩
    by_cases hp : groupOpening <+: c :: t
    · obtain ⟨b, b', hb, hb', hnear⟩ := hopen h hp
      rw [hb, hb', Text.splitFirst?_append_self (by decide), Text.splitFirst?_append_self (by decide)]
      exact .inr ⟨_, rfl, _, rfl, hnear⟩
    · have hp' : ¬ groupOpening <+: c :: t' := fun hp' => by
        obtain ⟨b', b, -, hb, -⟩ := hopen h.symm hp'
        exact hp ⟨b, hb.symm⟩
      rw [Text.splitFirst?_cons hp, Text.splitFirst?_cons hp']
      exact ih.map _ _
  | word hu hu' hs hs' _ ih =>
    rw [splitFirst?_level hu hs, splitFirst?_level hu' hs']
    exact ih.map _ _

private theorem splitGroup? (h : Near t t') (depth : Nat) :
    CutsAlike (DirectiveEngine.splitGroup? depth t) (DirectiveEngine.splitGroup? depth t') := by
  induction h generalizing depth with
  | nil => exact .inl ⟨by simp [DirectiveEngine.splitGroup?], by simp [DirectiveEngine.splitGroup?]⟩
  | @cons c t t' h ih =>
    cases depth with
    | zero =>
      unfold DirectiveEngine.splitGroup?
      split
      · exact .inr ⟨_, rfl, _, rfl, h⟩
      · exact (ih _).map _ _
    | succ depth =>
      unfold DirectiveEngine.splitGroup?
      split
      · exact (ih depth).map _ _
      · exact (ih _).map _ _
  | word hu hu' _ _ _ ih =>
    rw [splitGroup?_append hu, splitGroup?_append hu']
    exact (ih depth).map _ _

end Near

/-- Word by word, between the same borders, two texts are related. -/
inductive Alike (R : Text → Text → Prop) : Text → Text → Prop
  | last {u u' : Text} : R u u' → Alike R u u'
  | border {u u' t t' : Text} {x : Char} :
    R u u' → isBorder x = true → Alike R t t' → Alike R (u ++ x :: t) (u' ++ x :: t')

/-- Two near words that are the same, or of which none holds the mark of a file token. -/
structure WordsAlike (u u' : Text) : Prop where
  near : Near u u'
  eq_or_quiet : u = u' ∨ IsQuiet u ∧ IsQuiet u'

theorem WordsAlike.refl (u : Text) : WordsAlike u u :=
  ⟨.refl u, .inl rfl⟩

theorem Alike.near (h : Alike WordsAlike t t') : Near t t' := by
  induction h with
  | last hword => exact hword.near
  | border hword hx _ ih => exact hword.near.append_cons (ne_of_isBorder hx (by decide)) ih

end DirectiveEngine
