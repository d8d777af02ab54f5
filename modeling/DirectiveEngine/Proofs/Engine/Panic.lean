import DirectiveEngine.Proofs.Engine.Frame

/-!
# Panics of the host

A panic ends the run in which it happens (`Effects.attempt`): the template that is resolved just then, and with it the
directive.  Only a file write panics, so a directive panics while it resolves its texts.  By then it has looked things
up, and a loop has dispatched lines, but no variable is set and no call is put off (`Lookups.before_execute`).
-/

namespace DirectiveEngine

variable {σ α β : Type}

open Run (Keeps after value)

/-! ### Attempts -/

theorem Effects.run_attempt (m : Effects σ α) (w : World σ) :
    (m.attempt.run w).1 = none ∨ m.attempt.run w = (some (m.run w).1, (m.run w).2) := by
  induction m generalizing w with
  | done a => exact .inr rfl
  | effect act next ih => exact ih w (act w)
  | panic rest ih => exact .inl rfl

theorem Effects.run_attempt_bind (m : Effects σ α) (f : α → Effects σ β) (w : World σ) :
    (m.bind f).attempt.run w = match m.attempt.run w with
      | (some a, v) => (f a).attempt.run v
      | (none, v) => (none, v) := by
  induction m generalizing w with
  | done a => rfl
  | effect act next ih => exact ih w (act w)
  | panic rest ih => rfl

namespace Run

/-- The host panics while a run goes on without interruption. -/
def Panics (m : Run σ α) (w : World σ) : Prop :=
  value m.attempt w = none

instance (m : Run σ α) (w : World σ) : Decidable (m.Panics w) :=
  decidable_of_iff ((value m.attempt w).isNone = true) Option.isNone_iff_eq_none

variable {m : Run σ α} {f : α → Run σ β} {w : World σ}

theorem attempt_of_not_panics (h : ¬ m.Panics w) :
    value m.attempt w = some (value m w) ∧ after m.attempt w = after m w := by
  have hrun : m.attempt.run w = (some (m.run w).1, (m.run w).2) := by
    rw [← m.run_effects w]
    exact (m.effects.run_attempt w).resolve_left h
  exact ⟨congrArg Prod.fst hrun, congrArg Prod.snd hrun⟩

theorem run_attempt_bind :
    (m >>= f).attempt.run w = match m.attempt.run w with
      | (some a, v) => (f a).attempt.run v
      | (none, v) => (none, v) :=
  m.effects.run_attempt_bind (fun a => (f a).effects) w

theorem run_attempt_bind_of_panics (h : m.Panics w) : (m >>= f).attempt.run w = (none, after m.attempt w) := by
  have hm : m.attempt.run w = (none, after m.attempt w) := Prod.ext h rfl
  rw [run_attempt_bind, hm]

theorem run_attempt_bind_of_not_panics (h : ¬ m.Panics w) :
    (m >>= f).attempt.run w = (f (value m w)).attempt.run (after m w) := by
  have hm : m.attempt.run w = (some (value m w), after m w) :=
    Prod.ext (attempt_of_not_panics h).1 (attempt_of_not_panics h).2
  rw [run_attempt_bind, hm]

theorem panics_bind_iff : (m >>= f).Panics w ↔ m.Panics w ∨ (f (value m w)).Panics (after m w) := by
  by_cases h : m.Panics w
  · simp only [h, true_or, iff_true]
    exact congrArg Prod.fst (run_attempt_bind_of_panics h)
  · rw [or_iff_right h, Panics, value, run_attempt_bind_of_not_panics h]
    rfl

/-! ### Runs without panics -/

def IsSafe (m : Run σ α) : Prop :=
  ∀ w, ¬ m.Panics w

theorem IsSafe.pure (a : α) : IsSafe (Pure.pure a : Run σ α) :=
  fun _ => nofun

theorem IsSafe.modifyGet (f : World σ → α × World σ) : IsSafe (modifyGet f) :=
  fun _ => nofun

theorem IsSafe.bind (hm : m.IsSafe) (hf : ∀ a, (f a).IsSafe) : (m >>= f).IsSafe :=
  fun w h => (panics_bind_iff.1 h).elim (hm w) (hf _ _)

theorem IsSafe.guarded {m : Run σ Unit} (hm : m.IsSafe) (c : Prop) [Decidable c] :
    IsSafe (if c then m else Pure.pure ()) := by
  split
  · exact hm
  · exact .pure ()

theorem IsSafe.forIn {f : α → Run σ Unit} {l : List α} (hf : ∀ a ∈ l, (f a).IsSafe) :
    IsSafe (do for a in l do f a) := by
  have hsteps : IsSafe
      (ForIn.forIn l PUnit.unit fun a _ => do f a; Pure.pure (ForInStep.yield PUnit.unit) : Run σ PUnit) := by
    induction l with
    | nil => exact .pure _
    | cons a l ih =>
      rw [List.forIn_cons]
      exact .bind (.bind (hf a List.mem_cons_self) fun _ => .pure _) fun
        | .done _ => .pure _
        | .yield _ => ih fun b hb => hf b (List.mem_cons_of_mem a hb)
  exact hsteps.bind fun _ => .pure ()

theorem IsSafe.renderPieces {f : Text → Run σ Text} (hf : ∀ inner, IsSafe (f inner)) (ps : List Piece) :
    IsSafe (DirectiveEngine.renderPieces f ps) := by
  induction ps with
  | nil => exact .pure _
  | cons p ps ih =>
    cases p with
    | plain t => exact .bind ih fun _ => .pure _
    | token inner => exact .bind (hf inner) fun _ => .bind ih fun _ => .pure _

/-! ### What happens before a panic -/

/-- A relation holds between the worlds before a run and where the host panics in it. -/
def KeepsBefore (R : World σ → World σ → Prop) (m : Run σ α) : Prop :=
  ∀ w, m.Panics w → R w (after m.attempt w)

theorem KeepsBefore.of_isSafe {R : World σ → World σ → Prop} (hm : m.IsSafe) : KeepsBefore R m :=
  fun w h => absurd h (hm w)

end Run

open Run (IsSafe KeepsBefore)

namespace Engine

variable (e : Engine σ)

theorem isSafe_tell (actor : Actor) (t : Text) (color : Color) : IsSafe (e.tell actor t color) :=
  .modifyGet _

theorem isSafe_dispatch (inv : Invocation) (actor : Actor) (line : Text) (silent : Bool) :
    IsSafe (e.dispatch inv actor line silent) := by
  unfold dispatch
  split
  · exact e.isSafe_tell _ _ _
  · split
    · exact .pure ()
    · exact .modifyGet _

theorem isSafe_finishHostCall (inv : Invocation) (quiet : Bool) (capture : Option Text)
    (r : Except HostError ProcessOutput) : IsSafe (e.finishHostCall inv quiet capture r) := by
  have htell := e.isSafe_tell inv.actor
  cases r with
  | error fault => exact .guarded (htell _ _) _
  | ok o =>
    unfold finishHostCall
    simp only
    split
    · exact .guarded (.bind (htell _ _) fun _ => .guarded (htell _ _) _) _
    · cases capture with
      | some name => exact .bind (.modifyGet _) fun _ => .guarded (htell _ _) _
      | none =>
        refine .guarded ?_ _
        split
        · exact htell _ _
        · exact .forIn fun line _ => htell line .gray

theorem isSafe_readToken (inner : Text) : IsSafe (e.readToken inner) := by
  unfold readToken
  split
  · exact .pure _
  · refine .bind (.modifyGet _) fun r => ?_
    cases r with
    | ok t => exact .pure _
    | error _ => exact .pure _

theorem isSafe_commandToken (command : Text) : IsSafe (e.commandToken command) := by
  refine .bind (.modifyGet _) fun r => ?_
  cases r with
  | ok o => exact .pure _
  | error _ => exact .pure _

/-- The end of a call never panics. -/
theorem isSafe_finishCall (inv : Invocation) (call : Call) (r : Except HostError WebhookResponse) :
    IsSafe (e.finishCall inv call r) := by
  have htell := e.isSafe_tell inv.actor
  refine .bind (.modifyGet _) fun _ => ?_
  cases r with
  | error fault => exact .guarded (htell _ _) _
  | ok r =>
    simp only
    split
    · exact .guarded (htell _ _) _
    · cases call.capture.filter fun name => !name.isEmpty with
      | some name => exact .bind (.modifyGet _) fun _ => .guarded (htell _ _) _
      | none => exact .guarded (htell _ _) _

end Engine

namespace Lookups

variable {e : Engine σ} {R : World σ → World σ → Prop} (h : Lookups e R)
include h

theorem before {m : Run σ α} (hm : Keeps e R m) : KeepsBefore R m :=
  fun w _ => (h.attempt hm).after w

/-- What comes behind an attempt. -/
theorem behind {m : Run σ α} {f : α → Run σ β} (hf : ∀ a, Keeps e R (f a)) (w : World σ) :
    R (after m.attempt w) (after (m >>= f).attempt w) := by
  by_cases hfirst : m.Panics w
  · have hends : after (m >>= f).attempt w = after m.attempt w :=
      congrArg Prod.snd (Run.run_attempt_bind_of_panics hfirst)
    rw [hends]
    exact h.refl _
  · rw [(Run.attempt_of_not_panics hfirst).2, after, after, Run.run_attempt_bind_of_not_panics hfirst]
    exact (h.attempt (hf _)).after _

theorem before_bind {m : Run σ α} {f : α → Run σ β} (hm : Keeps e R m) (hf : ∀ a, KeepsBefore R (f a)) :
    KeepsBefore R (m >>= f) := by
  intro w hpanics
  by_cases hfirst : m.Panics w
  · rw [after, Run.run_attempt_bind_of_panics hfirst]
    exact h.before hm w hfirst
  · rw [after, Run.run_attempt_bind_of_not_panics hfirst]
    exact h.trans (hm.after w) (hf _ _ ((Run.panics_bind_iff.1 hpanics).resolve_left hfirst))

omit h in
theorem before_bind_safe {m : Run σ α} {f : α → Run σ β} (hm : KeepsBefore R m) (hf : ∀ a, IsSafe (f a)) :
    KeepsBefore R (m >>= f) := by
  intro w hpanics
  have hfirst : m.Panics w := (Run.panics_bind_iff.1 hpanics).resolve_right (hf _ _)
  rw [after, Run.run_attempt_bind_of_panics hfirst]
  exact hm w hfirst

theorem before_executeMessage (inv : Invocation) (spec : MessageSpec) : KeepsBefore R (e.executeMessage inv spec) := by
  have hrecipient : KeepsBefore R (e.recipient inv spec.target) := by
    unfold Engine.recipient
    split
    · exact h.before (h.pure _)
    · refine h.before_bind (h.resolveFor _ _) fun name => .of_isSafe (.bind (.modifyGet _) fun w => ?_)
      cases (e.host.server w.host).find? name with
      | some _ => exact .pure _
      | none => exact .bind (e.isSafe_tell _ _ _) fun _ => .pure _
  unfold Engine.executeMessage
  split
  · exact h.before (h.pure _)
  · refine h.before_bind (h.resolveFor _ _) fun t => before_bind_safe hrecipient fun r => ?_
    cases r with
    | some _ => exact .modifyGet _
    | none => exact .pure _

theorem before_executeAssignment (inv : Invocation) (spec : AssignmentSpec) :
    KeepsBefore R (e.executeAssignment inv spec) :=
  h.before_bind (h.resolveFor _ _) fun _ => h.before_bind (h.resolveFor _ _) fun _ =>
    .of_isSafe (.bind (.modifyGet _) fun _ => .guarded (e.isSafe_tell _ _ _) _)

theorem before_executeHostCall (inv : Invocation) (d : Directive) (capture : Option Text) :
    KeepsBefore R (e.executeHostCall inv d capture) := by
  refine h.before_bind (h.resolveFor _ _) fun command => ?_
  by_cases he : e.config.hostCommandsEnabled
  · simp only [he, if_true]
    exact h.before_bind (h.resolveCapture _ _) fun _ => h.before_bind (h.keeps_run he _) fun _ =>
      .of_isSafe (e.isSafe_finishHostCall inv _ _ _)
  · simp only [he]
    exact h.before (h.pure _)

theorem before_executeWebhook (inv : Invocation) (spec : WebhookSpec) : KeepsBefore R (e.executeWebhook inv spec) := by
  refine h.before_bind (h.resolveFor _ _) fun url => ?_
  by_cases he : e.config.webhooksEnabled
  · simp only [he, if_true]
    exact h.before_bind (h.resolveFor _ _) fun _ => h.before_bind (h.resolveHeaders _ _) fun _ =>
      h.before_bind (h.resolveCapture _ _) fun _ => .of_isSafe (.bind (.modifyGet _) fun _ => .modifyGet _)
  · simp only [he]
    exact h.before (h.pure _)

/-- A directive panics in its templates; of its other effects only the lines of a loop can come before. -/
theorem before_execute {inv : Invocation} (hstarted : ∀ d w, R w (after (Run.note (.directive inv.id d)) w))
    (hline : ∀ line, Keeps e R (e.dispatch inv inv.actor line false)) (d : Directive) :
    KeepsBefore R (e.execute inv d) := by
  refine h.before_bind (.modifyGet (hstarted d)) fun _ => h.before_bind h.get fun w => ?_
  by_cases hpasses : e.passes w inv.actor d.gate
  · simp only [hpasses, if_true]
    unfold Engine.perform
    cases d.kind with
    | command => exact before_bind_safe (h.before (h.resolveFor _ _)) fun _ => e.isSafe_dispatch _ _ _ _
    | message spec => exact h.before_executeMessage inv spec
    | hostCall capture => exact h.before_executeHostCall inv d capture
    | webhook spec =>
      cases spec with
      | none => exact h.before (h.pure _)
      | some spec => exact h.before_executeWebhook inv spec
    | loop spec =>
      cases spec with
      | none => exact h.before (h.pure _)
      | some spec =>
        exact h.before (h.bind (h.resolveFor _ _) fun _ =>
          h.forIn (fun item => h.bind (h.resolveFor _ _) fun line => hline line) _)
    | assignment spec =>
      cases spec with
      | none => exact h.before (h.pure _)
      | some spec => exact h.before_executeAssignment inv spec
  · simp only [hpasses]
    exact h.before (h.pure _)

end Lookups

theorem Dispatching.before_execute {e : Engine σ} {R : World σ → World σ → Prop} (h : Dispatching e R)
    {inv : Invocation} (hstarted : ∀ d w, R w (after (Run.note (.directive inv.id d)) w)) (d : Directive) :
    KeepsBefore R (e.execute inv d) :=
  h.toLookups.before_execute hstarted (fun line => h.dispatch inv inv.actor line false) d

end DirectiveEngine
