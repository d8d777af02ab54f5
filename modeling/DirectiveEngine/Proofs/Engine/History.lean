import DirectiveEngine.Proofs.Engine.Panic

/-!
# What goes into the history

The history only grows, and each part of an engine adds events of a few kinds only: a directive that dispatches nothing
those of `Engine.Notes`, any directive those of `Engine.Performs`, one that panics those of `Engine.NotesBefore`, and the
end of a call its completion and then what the actor is told or what is captured (`history_after_finishCall`).  That an
event of some kind never happens follows by cases on these kinds.
-/

namespace DirectiveEngine

variable {σ : Type} {u v w : World σ} {p : Event → Prop}

open Run (after)

/-! ### A growing history -/

/-- Events with a property were added to the history, and no others. -/
def NotesOnly (p : Event → Prop) (u w : World σ) : Prop :=
  ∃ new : List (Nat × Event), w.history = new ++ u.history ∧ ∀ x ∈ new, p x.2

namespace NotesOnly

theorem of_eq (h : w.history = u.history) : NotesOnly p u w :=
  ⟨[], h, by simp⟩

theorem of_cons {t : Nat} {ev : Event} (h : w.history = (t, ev) :: u.history) (hev : p ev) : NotesOnly p u w :=
  ⟨[(t, ev)], h, by simpa using hev⟩

theorem trans (huv : NotesOnly p u v) (hvw : NotesOnly p v w) : NotesOnly p u w := by
  obtain ⟨new, hnew, hp⟩ := huv
  obtain ⟨new', hnew', hp'⟩ := hvw
  refine ⟨new' ++ new, by rw [hnew', hnew, List.append_assoc], fun x hx => ?_⟩
  exact (List.mem_append.1 hx).elim (hp' x) (hp x)

/-- What holds of all events before holds of all events behind. -/
theorem all (h : NotesOnly p u w) (hu : ∀ x ∈ u.history, p x.2) : ∀ x ∈ w.history, p x.2 := by
  obtain ⟨new, hnew, hp⟩ := h
  intro x hx
  rw [hnew] at hx
  exact (List.mem_append.1 hx).elim (hp x) (hu x)

theorem imp {q : Event → Prop} (h : NotesOnly p u w) (hpq : ∀ ev, p ev → q ev) : NotesOnly q u w := by
  obtain ⟨new, hnew, hp⟩ := h
  exact ⟨new, hnew, fun x hx => hpq x.2 (hp x hx)⟩

end NotesOnly

/-- What a directive of `inv` may note, but for dispatching. -/
inductive Engine.Notes (e : Engine σ) (inv : Invocation) : Event → Prop where
  | started (d : Directive) : Notes e inv (.directive inv.id d)
  | read (path : Text) (key : Option Text) : Notes e inv (.read path key)
  | write (path : Text) (key : Option Text) (value : Text) : Notes e inv (.write path key value)
  | process (h : e.config.hostCommandsEnabled) (command : Text) : Notes e inv (.process command)
  | text (actor : Actor) (t : StyledText) : Notes e inv (.text actor t)
  | assign (key value : Text) : Notes e inv (.assign inv.actor key value)

/-- What a directive of `inv` may note. -/
inductive Engine.Performs (e : Engine σ) (inv : Invocation) : Event → Prop where
  | notes {ev : Event} (h : e.Notes inv ev) : Performs e inv ev
  | dispatch (actor : Actor) {line : Text} (h : e.Dispatchable line) (silent : Bool) :
      Performs e inv (.dispatch actor line silent)

theorem NotesOnly.innerFrame (e : Engine σ) (inv : Invocation) (hp : ∀ {ev}, e.Notes inv ev → p ev) :
    InnerFrame e inv (NotesOnly p) where
  refl _ := .of_eq rfl
  trans := .trans
  read path key _ := .of_cons rfl (hp (.read path key))
  write file _ := .of_cons rfl (hp (.write file.path file.key file.value))
  run h command _ := .of_cons rfl (hp (.process h command))
  started d _ := .of_cons rfl (hp (.started d))
  send actor t _ := .of_cons rfl (hp (.text actor t))
  assign key value _ := .of_cons rfl (hp (.assign key value))

theorem NotesOnly.frame (e : Engine σ) (inv : Invocation) (hp : ∀ {ev}, e.Performs inv ev → p ev) :
    Frame e inv (NotesOnly p) where
  toInnerFrame := innerFrame e inv fun h => hp (.notes h)
  dispatchLine actor _ h silent _ := .of_cons rfl (hp (.dispatch actor h silent))

theorem World.history_withCall? (w : World σ) (inv : Invocation) (call : Option Call) :
    (w.withCall? inv call).history = w.history := by
  cases call <;> rfl

/-- A directive adds events of its invocation. -/
theorem notesOnly_execute (e : Engine σ) (inv : Invocation) (d : Directive) (w : World σ) :
    NotesOnly (e.Performs inv) w (after (e.execute inv d) w) := by
  obtain ⟨u, hu, hd⟩ := (NotesOnly.frame e inv id).execute d w
  rw [hd]
  exact hu.trans (.of_eq (u.history_withCall? inv _))

/-- What is neither a command nor a loop dispatches nothing. -/
theorem notesOnly_execute_of_ne (e : Engine σ) (inv : Invocation) {d : Directive} (hcommand : d.kind ≠ .command)
    (hloop : ∀ spec, d.kind ≠ .loop spec) (w : World σ) :
    NotesOnly (e.Notes inv) w (after (e.execute inv d) w) := by
  obtain ⟨u, hu, hd⟩ := (NotesOnly.innerFrame e inv id).execute hcommand hloop w
  rw [hd]
  exact hu.trans (.of_eq (u.history_withCall? inv _))

/-- What a directive of `inv` may note before it panics. -/
inductive Engine.NotesBefore (e : Engine σ) (inv : Invocation) : Event → Prop where
  | notes {ev : Event} (h : e.Notes inv ev) : NotesBefore e inv ev
  | dispatch {line : Text} (h : e.Dispatchable line) : NotesBefore e inv (.dispatch inv.actor line false)

theorem Engine.NotesBefore.performs {e : Engine σ} {inv : Invocation} {ev : Event} (h : e.NotesBefore inv ev) :
    e.Performs inv ev := by
  cases h with
  | notes h => exact .notes h
  | dispatch h => exact .dispatch _ h _

theorem notesOnly_of_panics {e : Engine σ} {inv : Invocation} {d : Directive} {w : World σ}
    (h : (e.execute inv d).Panics w) : NotesOnly (e.NotesBefore inv) w (after (e.execute inv d).attempt w) := by
  have hframe : InnerFrame e inv (NotesOnly (e.NotesBefore inv)) := NotesOnly.innerFrame e inv .notes
  exact hframe.toLookups.before_execute hframe.started
    (hframe.toShowing.dispatch inv fun hline w => .of_cons rfl (.dispatch hline)) d w h

/-! ### The end of a call -/

/-- What the end of a call may note behind its completion. -/
inductive Engine.Concludes (inv : Invocation) : Event → Prop where
  | text (t : StyledText) : Concludes inv (.text inv.actor t)
  | assign (key value : Text) : Concludes inv (.assign inv.actor key value)

/-- The completion of a call is noted once, before all else. -/
theorem history_after_finishCall (e : Engine σ) (inv : Invocation) (call : Call)
    (r : Except HostError WebhookResponse) (w : World σ) :
    ∃ new : List (Nat × Event),
      (after (e.finishCall inv call r) w).history = new ++ (w.now, .completion inv.id call) :: w.history ∧
        ∀ x ∈ new, Engine.Concludes inv x.2 := by
  have htold (c : Bool) (t : Text) (color : Color) (v : World σ) :
      NotesOnly (Engine.Concludes inv) v (after (if c then e.tell inv.actor t color else pure ()) v) := by
    split
    · exact .of_cons rfl (.text _)
    · exact .of_eq rfl
  have hkept (name body : Text) (c : Bool) (t : Text) (color : Color) (v : World σ) :
      NotesOnly (Engine.Concludes inv) v (after (do
        Run.assign inv.actor name body
        if c then e.tell inv.actor t color) v) :=
    .trans (.of_cons rfl (.assign name body)) (htold c t color _)
  let u := after (Run.note (.completion inv.id call)) w
  suffices h : NotesOnly (Engine.Concludes inv) u (after (e.finishCall inv call r) w) from h
  unfold Engine.finishCall
  rw [Run.after_bind]
  cases r with
  | error fault => exact htold (!call.silent) _ _ u
  | ok r =>
    simp only
    split
    · exact htold (!call.silent) _ _ u
    · cases call.capture.filter fun name => !name.isEmpty with
      | some name => exact hkept name r.body call.announce _ _ u
      | none => exact htold (!call.silent && !r.body.isEmpty) _ _ u

end DirectiveEngine
