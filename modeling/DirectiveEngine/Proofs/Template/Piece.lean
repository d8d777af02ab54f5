import DirectiveEngine.Proofs.Text.Search
import DirectiveEngine.Template.Piece

/-!
# Pieces of a text

How a text is cut into what stands as it is and the insides of tokens.  No file token reaches over a character that
ends tokens, so a text is cut on the two sides of such a character separately (`renderPieces_append_cons`).
-/

namespace DirectiveEngine

variable {c x : Char} {a b t : Text}

/-! ### File tokens -/

theorem markedPieces_of_none (h : Text.splitFirst? [c, c] t = none) : markedPieces c t = [.plain t] := by
  rw [markedPieces]
  split <;> simp_all

theorem markedPieces_of_absent (h : ¬ [c, c] <:+: t) : markedPieces c t = [.plain t] :=
  markedPieces_of_none (Text.splitFirst?_of_not_infix h)

theorem markedPieces_of_some (h : Text.splitFirst? [c, c] t = some (a, b)) :
    markedPieces c t = .plain a :: .token (splitToken b).1 :: markedPieces c (splitToken b).2 := by
  rw [markedPieces]
  split <;> simp_all

/-- A token ends where it has to, whatever stands behind. -/
theorem splitToken_append_cons (hx : endsToken x = true) (a b : Text) :
    splitToken (a ++ x :: b) = ((splitToken a).1, (splitToken a).2 ++ x :: b) := by
  induction a with
  | nil => simp [splitToken, hx]
  | cons d a ih =>
    cases hd : endsToken d with
    | true => simp [splitToken, hd]
    | false =>
      simp only [splitToken, Prod.mk.injEq] at ih
      simp [splitToken, hd, ih.1, ih.2]

/-! ### Command groups -/

theorem groupPieces_of_none (h : Text.splitFirst? groupOpening t = none) : groupPieces t = [.plain t] := by
  rw [groupPieces]
  split <;> simp_all

theorem groupPieces_of_unclosed (h : Text.splitFirst? groupOpening t = some (a, b)) (h' : splitGroup? 0 b = none) :
    groupPieces t = [.plain t] := by
  rw [groupPieces]
  split
  · rfl
  · split <;> simp_all

theorem groupPieces_of_some {inner rest : Text} (h : Text.splitFirst? groupOpening t = some (a, b))
    (h' : splitGroup? 0 b = some (inner, rest)) :
    groupPieces t = .plain a :: .token inner :: groupPieces rest := by
  rw [groupPieces]
  split
  · simp_all
  · split <;> simp_all

/-- Text without parentheses is inside of the groups that are open around it. -/
theorem splitGroup?_append (h : ∀ d ∈ a, d ≠ '(' ∧ d ≠ ')') (depth : Nat) (t : Text) :
    splitGroup? depth (a ++ t) = (splitGroup? depth t).map fun r => (a ++ r.1, r.2) := by
  induction a with
  | nil => simp
  | cons d a ih =>
    obtain ⟨hopen, hclose⟩ := h d List.mem_cons_self
    have hstep : splitGroup? depth (d :: (a ++ t)) = (splitGroup? depth (a ++ t)).map fun r => (d :: r.1, r.2) := by
      cases depth <;> rw [splitGroup?, if_neg hclose, if_neg hopen]
    rw [List.cons_append, hstep, ih fun d hd => h d (List.mem_cons_of_mem _ hd), Option.map_map]
    rfl

/-! ### Putting pieces together -/

section Render

variable {m : Type → Type} [Monad m] [LawfulMonad m] (f : Text → m Text)

theorem renderPieces_plain (t : Text) : renderPieces f [.plain t] = pure t := by
  simp [renderPieces]

/-- The tokens in front of a character that ends tokens are replaced before those behind it. -/
theorem renderPieces_append_cons (hx : endsToken x = true) (hc : x ≠ c) (a b : Text) :
    renderPieces f (markedPieces c (a ++ x :: b)) = do
      let p ← renderPieces f (markedPieces c a)
      let q ← renderPieces f (markedPieces c b)
      return p ++ x :: q := by
  have hmark : x ∉ [c, c] := by simpa using hc
  have hcut {a b : Text} := Text.splitFirst?_append_cons (a := a) (b := b) (List.cons_ne_nil c [c]) hmark
  fun_induction markedPieces c a with
  | case1 a hnone =>
    rw [renderPieces_plain, pure_bind]
    cases hb : Text.splitFirst? [c, c] b with
    | none => rw [markedPieces_of_none hb, markedPieces_of_none (by rw [hcut, hnone, hb]; rfl)]; simp [renderPieces]
    | some p =>
      rw [markedPieces_of_some hb, markedPieces_of_some (a := a ++ x :: p.1) (b := p.2) (by rw [hcut, hnone, hb]; rfl)]
      simp [renderPieces]
  | case2 a before after hsome ih =>
    have hwhole : Text.splitFirst? [c, c] (a ++ x :: b) = some (before, after ++ x :: b) := by
      rw [hcut, hsome]
      rfl
    rw [markedPieces_of_some hwhole, splitToken_append_cons hx]
    simp [renderPieces, ih]

end Render

end DirectiveEngine
