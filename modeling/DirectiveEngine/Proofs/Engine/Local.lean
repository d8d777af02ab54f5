import DirectiveEngine.Proofs.Engine.Sentinels

/-!
# What a template looks at

Resolving a template asks the host for files and commands, and looks at neither the history nor the tasks: whatever these
are, it yields the same and notes the same requests (`Run.IsLocal`).  So two runs that have come to the same host and the
same variables resolve alike, though they may have noted and put off different things on the way there.
-/

namespace DirectiveEngine

variable {σ α β : Type}

open Run (after value)

/-- What resolving a template may note. -/
def Event.isRequest : Event → Bool
  | .process .. | .read .. | .write .. => true
  | _ => false

/-- A run that only makes requests of the host, and looks at neither the history nor the tasks. -/
def Run.IsLocal (m : Run σ α) : Prop :=
  ∀ w : World σ, ∃ new : List (Nat × Event), (∀ x ∈ new, x.2.isRequest) ∧ ∀ history tasks,
    value m { w with history, tasks } = value m w ∧
      after m { w with history, tasks } = { after m w with history := new ++ history, tasks }

namespace Run.IsLocal

theorem pure (a : α) : IsLocal (Pure.pure a : Run σ α) :=
  fun _ => ⟨[], by simp, fun _ _ => ⟨rfl, rfl⟩⟩

theorem bind {m : Run σ α} {f : α → Run σ β} (hm : IsLocal m) (hf : ∀ a, IsLocal (f a)) : IsLocal (m >>= f) := by
  intro w
  obtain ⟨new, hnew, hsame⟩ := hm w
  obtain ⟨new', hnew', hsame'⟩ := hf (value m w) (after m w)
  refine ⟨new' ++ new, fun x hx => (List.mem_append.1 hx).elim (hnew' x) (hnew x), fun history tasks => ?_⟩
  obtain ⟨hvalue, hafter⟩ := hsame history tasks
  rw [value_bind, after_bind, hvalue, hafter, List.append_assoc]
  exact hsame' (new ++ history) tasks

theorem effect {m : Run σ α} {ev : Event} {act : σ → α × σ} (hm : m.Requests ev act) (hev : ev.isRequest) :
    IsLocal m := by
  refine fun w => ⟨[(w.now, ev)], by simpa using hev, fun history tasks => ?_⟩
  unfold value after
  rw [hm, hm]
  exact ⟨rfl, rfl⟩

theorem run (e : Engine σ) (command : Text) : IsLocal (e.run command) :=
  effect (e.requests_run command) rfl

theorem renderPieces {f : Text → Run σ Text} (hf : ∀ inner, IsLocal (f inner)) (ps : List Piece) :
    IsLocal (DirectiveEngine.renderPieces f ps) := by
  induction ps with
  | nil => exact pure []
  | cons p ps ih =>
    cases p with
    | plain t => exact ih.bind fun _ => pure _
    | token inner => exact (hf inner).bind fun _ => ih.bind fun _ => pure _

theorem readToken (e : Engine σ) (inner : Text) : IsLocal (e.readToken inner) := by
  unfold Engine.readToken
  split
  · exact pure _
  · refine (effect (e.requests_read _ _) rfl).bind fun r => ?_
    cases r with
    | ok t => exact pure t
    | error _ => exact pure []

theorem writeToken (e : Engine σ) (inner : Text) : IsLocal (e.writeToken inner) := by
  unfold Engine.writeToken
  cases FileWrite.ofToken? inner with
  | none => exact pure []
  | some file => exact (effect (e.requests_write file) rfl).bind fun _ => pure []

theorem commandToken (e : Engine σ) (command : Text) : IsLocal (e.commandToken command) := by
  refine (run e command).bind fun r => ?_
  cases r with
  | ok o => exact pure _
  | error _ => exact pure []

theorem act (e : Engine σ) (t : Text) : IsLocal (e.act t) := by
  refine (renderPieces (readToken e) _).bind fun t => (renderPieces (writeToken e) _).bind fun t => ?_
  split
  · exact renderPieces (commandToken e) _
  · exact pure t

theorem resolveFor (e : Engine σ) (inv : Invocation) (t : Text) : IsLocal (e.resolveFor inv t) := by
  intro w
  obtain ⟨new, hnew, hsame⟩ := act e (e.expand w inv.actor inv.args t) w
  refine ⟨new, hnew, fun history tasks => ?_⟩
  obtain ⟨hvalue, hafter⟩ := hsame history tasks
  -- the passes before and behind look at the host and the variables
  have hexpand : e.expand { w with history, tasks } inv.actor inv.args t = e.expand w inv.actor inv.args t := rfl
  unfold Engine.resolveFor
  rw [e.value_resolve, e.value_resolve, e.after_resolve, e.after_resolve, hexpand, hvalue, hafter]
  exact ⟨rfl, rfl⟩

theorem resolveCapture (e : Engine σ) (inv : Invocation) (capture : Option Text) :
    IsLocal (e.resolveCapture inv capture) := by
  unfold Engine.resolveCapture
  split
  · exact (resolveFor e inv _).bind fun _ => pure _
  · exact pure none

theorem resolveHeaders (e : Engine σ) (inv : Invocation) (headers : Dictionary Text) :
    IsLocal (e.resolveHeaders inv headers) := by
  induction headers with
  | nil => exact pure []
  | cons header headers ih => exact (resolveFor e inv _).bind fun _ => ih.bind fun _ => pure _

end Run.IsLocal
end DirectiveEngine
