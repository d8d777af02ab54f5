import DirectiveEngine.Text.Basic

/-!
# Even runs of a character

A scanner that takes the same character in pairs is at an end of a run when it comes to a character behind an even
number of them, and in the midst of a pair behind an odd number (`BehindPairs`).
-/

namespace DirectiveEngine

variable {x c : Char} {p : Char → Bool} {t : Text}

/-- Behind an even run of `x` stands a character of some kind. -/
def BehindPairs (x : Char) (p : Char → Bool) (t : Text) : Prop :=
  ∃ a n c b, t = a ++ (List.replicate (2 * n + 2) x ++ c :: b) ∧ a.getLast? ≠ some x ∧ p c

namespace BehindPairs

theorem not_nil : ¬ BehindPairs x p [] := by
  rintro ⟨a, n, c, b, h, -, -⟩
  simp at h

/-- What is in front of a run does not matter. -/
theorem cons_iff (h : c = x → t.head? ≠ some x) : BehindPairs x p (c :: t) ↔ BehindPairs x p t := by
  constructor
  · rintro ⟨a, n, d, b, heq, ha, hd⟩
    cases a with
    | nil =>
      rw [List.nil_append, List.replicate_succ, List.replicate_succ] at heq
      obtain ⟨rfl, rfl⟩ := List.cons.inj heq
      exact absurd rfl (h rfl)
    | cons y a =>
      refine ⟨a, n, d, b, (List.cons.inj heq).2, fun hlast => ha ?_, hd⟩
      rw [List.getLast?_cons, hlast]
      rfl
  · rintro ⟨a, n, d, b, rfl, ha, hd⟩
    refine ⟨c :: a, n, d, b, rfl, fun hlast => ?_, hd⟩
    rw [List.getLast?_cons] at hlast
    cases a with
    | nil => exact h (Option.some.inj hlast) rfl
    | cons y a => exact ha (by rw [List.getLast?_cons] at hlast ⊢; exact hlast)

/-- A text that neither holds a pair nor starts one with what follows does not matter. -/
theorem append_iff {a : Text} (h : ¬ [x, x] <:+: a ++ [x]) : BehindPairs x p (a ++ t) ↔ BehindPairs x p t := by
  induction a with
  | nil => rfl
  | cons c a ih =>
    have hpair : c = x → (a ++ t).head? ≠ some x := by
      rintro rfl hhead
      cases a with
      | nil => exact h List.infix_rfl
      | cons d a =>
        obtain rfl : d = c := Option.some.inj hhead
        exact h ⟨[], a ++ [d], by simp⟩
    exact (cons_iff hpair).trans (ih fun hinfix => h (List.infix_cons hinfix))

/-- A pair does not matter if nothing of the kind stands right behind it. -/
theorem pair_iff (ht : ∀ c ∈ t.head?, p c = false) : BehindPairs x p (x :: x :: t) ↔ BehindPairs x p t := by
  constructor
  · rintro ⟨a, n, d, b, heq, ha, hd⟩
    match a with
    | [] =>
      rw [List.nil_append, List.replicate_succ, List.replicate_succ] at heq
      cases n with
      | zero =>
        cases heq
        exact absurd hd (by rw [ht d rfl]; decide)
      | succ n => exact ⟨[], n, d, b, (List.cons.inj (List.cons.inj heq).2).2, by simp, hd⟩
    | [y] => exact absurd (congrArg some (List.cons.inj heq).1.symm) ha
    | y :: z :: a =>
      refine ⟨a, n, d, b, (List.cons.inj (List.cons.inj heq).2).2, fun hlast => ha ?_, hd⟩
      rw [List.getLast?_cons, List.getLast?_cons, hlast]
      rfl
  · rintro ⟨a, n, d, b, rfl, ha, hd⟩
    cases a with
    | nil => exact ⟨[], n + 1, d, b, rfl, by simp, hd⟩
    | cons y a =>
      refine ⟨x :: x :: y :: a, n, d, b, rfl, fun hlast => ha ?_, hd⟩
      simpa only [List.getLast?_cons, Option.getD_some] using hlast

theorem of_pair (hc : p c) (t : Text) : BehindPairs x p (x :: x :: c :: t) :=
  ⟨[], 0, c, t, rfl, by simp, hc⟩

end BehindPairs

end DirectiveEngine
