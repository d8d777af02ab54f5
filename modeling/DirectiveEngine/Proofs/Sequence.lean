import Mathlib.Data.List.Induction

/-!
# Sequences that grow at their end

Whether something happened somewhere in a sequence, and nothing has undone it since, is told from the last element and
from the sequence without it (`since_concat`).
-/

namespace DirectiveEngine

variable {α : Type} {p : List α → α → Prop} {q : α → Prop} {l : List α} {a : α}

/-- One thing holds of an element and of those in front of it, and another one of all elements behind. -/
def Since (p : List α → α → Prop) (q : α → Prop) (l : List α) : Prop :=
  ∃ before x after, l = before ++ x :: after ∧ p before x ∧ ∀ y ∈ after, q y

theorem not_since_nil : ¬ Since p q [] := by
  rintro ⟨before, x, after, heq, -⟩
  simp at heq

theorem since_concat : Since p q (l ++ [a]) ↔ p l a ∨ q a ∧ Since p q l := by
  constructor
  · rintro ⟨before, x, after, heq, hx, hafter⟩
    rcases List.eq_nil_or_concat after with rfl | ⟨after, b, rfl⟩
    · obtain ⟨rfl, ha⟩ := List.append_inj' heq rfl
      cases ha
      exact .inl hx
    · have hsplit : l ++ [a] = (before ++ x :: after) ++ [b] := by simpa using heq
      obtain ⟨rfl, ha⟩ := List.append_inj' hsplit rfl
      cases ha
      exact .inr ⟨hafter a (by simp), before, x, after, rfl, hx, fun y hy => hafter y (by simp [hy])⟩
  · rintro (hx | ⟨ha, before, x, after, rfl, hx, hafter⟩)
    · exact ⟨l, a, [], rfl, hx, by simp⟩
    · refine ⟨before, x, after ++ [a], by simp, hx, fun y hy => ?_⟩
      rcases List.mem_append.1 hy with hy | hy
      · exact hafter y hy
      · rwa [List.mem_singleton.1 hy]

end DirectiveEngine
