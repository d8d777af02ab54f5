import DirectiveEngine.Engine.Execute
import DirectiveEngine.Proofs.Text.Trim

/-!
# What a directive can do

A directive acts on the world through a handful of effects: it reads and writes files, runs commands, shows texts,
dispatches lines that may be dispatched (`Engine.Dispatchable`) and sets variables of its actor.  A relation between
worlds that each of these effects keeps is a `Frame`, and then everything that a directive does keeps it
(`Frame.execute`), except that a webhook in the end puts one call off (`Engine.startedCall?`).  Smaller frames serve
for smaller parts: templates have the effects of `Lookups` only, messages those of `Showing`, commands and loops those
of `Dispatching`, which set no variables, and what is neither a command nor a loop has those of `InnerFrame`, which
dispatch nothing.  Every invariant of a directive is an instance of this one case analysis.
-/

namespace DirectiveEngine

variable {σ α β : Type}

/-! ### Effects -/

namespace Effects

/-- Each effect keeps a relation between worlds, wherever it is reached, and the host panics only if it may. -/
def Always (mayPanic : Prop) (R : World σ → World σ → Prop) : Effects σ α → Prop
  | done _ => True
  | effect act next => (∀ w, R w (act w)) ∧ ∀ w, (next w).Always mayPanic R
  | panic rest => mayPanic ∧ rest.Always mayPanic R

variable {p : Prop} {R S : World σ → World σ → Prop}

theorem Always.bind {m : Effects σ α} {f : α → Effects σ β} (hm : m.Always p R) (hf : ∀ a, (f a).Always p R) :
    (m.bind f).Always p R := by
  induction m with
  | done a => exact hf a
  | effect act next ih => exact ⟨hm.1, fun w => ih w (hm.2 w)⟩
  | panic rest ih => exact ⟨hm.1, ih hm.2⟩

theorem Always.attempt {m : Effects σ α} (hm : m.Always p R) : m.attempt.Always p R := by
  induction m with
  | done a => trivial
  | effect act next ih => exact ⟨hm.1, fun w => ih w (hm.2 w)⟩
  | panic rest ih => trivial

theorem Always.imp {m : Effects σ α} (hRS : ∀ {u w}, R u w → S u w) (hm : m.Always p R) : m.Always p S := by
  induction m with
  | done a => trivial
  | effect act next ih => exact ⟨fun w => hRS (hm.1 w), fun w => ih w (hm.2 w)⟩
  | panic rest ih => exact ⟨hm.1, ih hm.2⟩

theorem Always.run (hrefl : ∀ w, R w w) (htrans : ∀ {u v w}, R u v → R v w → R u w) {m : Effects σ α}
    (hm : m.Always p R) (w : World σ) : R w (m.run w).2 := by
  induction m generalizing w with
  | done a => exact hrefl w
  | effect act next ih => exact htrans (hm.1 w) (ih w (hm.2 w) (act w))
  | panic rest ih => exact ih hm.2 w

end Effects

/-- Some write makes the host panic. -/
def Host.MayPanic (host : Host σ) : Prop :=
  ∃ path key value h, (host.write path key value h).1 = .error (.file .tagged)

namespace Run

/-- The world behind a run. -/
def after (m : Run σ α) (w : World σ) : World σ :=
  (m.run w).2

/-- What a run yields. -/
def value (m : Run σ α) (w : World σ) : α :=
  (m.run w).1

theorem after_bind (m : Run σ α) (f : α → Run σ β) (w : World σ) :
    after (m >>= f) w = after (f (value m w)) (after m w) := rfl

theorem value_bind (m : Run σ α) (f : α → Run σ β) (w : World σ) :
    value (m >>= f) w = value (f (value m w)) (after m w) := rfl

theorem after_get (w : World σ) : after (get : Run σ (World σ)) w = w := rfl

theorem value_get (w : World σ) : value (get : Run σ (World σ)) w = w := rfl

/-- A relation holds between the worlds before and behind a run, wherever that starts, and before and behind each of its
effects; and only a host that may panic does. -/
structure Keeps (e : Engine σ) (R : World σ → World σ → Prop) (m : Run σ α) : Prop where
  after : ∀ w, R w (after m w)
  each : m.effects.Always e.host.MayPanic R

theorem Keeps.modifyGet {e : Engine σ} {R : World σ → World σ → Prop} {f : World σ → α × World σ} (h : ∀ w, R w (f w).2) :
    Keeps e R (modifyGet f) :=
  ⟨h, h, fun _ => trivial⟩

/-- A run is one request to the host, behind which it may panic. -/
def Requests (m : Run σ α) (event : Event) (act : σ → α × σ) : Prop :=
  ∀ w, m.run w = (ask event act).run w

/-- What comes of a request if only its answer counts. -/
theorem Requests.run_bind {m : Run σ α} {event : Event} {act : σ → α × σ} (h : m.Requests event act)
    {f : α → Run σ β} {w : World σ} (hf : ∀ a v, after (f a) v = v) :
    (m >>= f).run w = (value (f (act w.host).1) (after (ask event act) w), after (ask event act) w) := by
  have hrun : (m >>= f).run w = (f (m.run w).1).run (m.run w).2 := rfl
  rw [hrun, h w]
  exact Prod.ext rfl (hf _ _)

end Run

theorem Engine.requests_read (e : Engine σ) (path : Text) (key : Option Text) :
    (e.read path key).Requests (.read path key) (e.host.read path key) :=
  fun _ => rfl

theorem Engine.requests_write (e : Engine σ) (file : FileWrite) :
    (e.write file).Requests (.write file.path file.key file.value) (e.host.write file.path file.key file.value) :=
  fun _ => rfl

theorem Engine.requests_run (e : Engine σ) (command : Text) :
    (e.run command).Requests (.process command) (e.host.run command) :=
  fun _ => rfl

open Run (Keeps after value)

/-- A directive is entered in the history before its gate is tested. -/
theorem Engine.after_execute (e : Engine σ) (inv : Invocation) (d : Directive) (w : World σ) :
    after (e.execute inv d) w =
      after (if e.passes (after (Run.note (.directive inv.id d)) w) inv.actor d.gate then e.perform inv d else pure ())
        (after (Run.note (.directive inv.id d)) w) := rfl

/-! ### The call of a webhook -/

/-- The world in which a call of an invocation is put off. -/
def World.withCall (w : World σ) (inv : Invocation) (call : Call) : World σ :=
  { w with tasks := w.tasks ++ [{ due := w.now, invocation := inv, work := .call call }] }

/-- The world in which a call is put off if there is one. -/
def World.withCall? (w : World σ) (inv : Invocation) : Option Call → World σ
  | none => w
  | some call => w.withCall inv call

/-- Resolves all parts of a call, in the order in which a webhook does. -/
def Engine.prepareCall (e : Engine σ) (inv : Invocation) (spec : WebhookSpec) : Run σ Call := do
  let url ← e.resolveFor inv spec.url
  let body ← e.resolveFor inv spec.body
  let headers ← e.resolveHeaders inv spec.headers
  let capture ← e.resolveCapture inv spec.capture
  return { request := { url, headers, body }, capture, silent := spec.silent,
           announce := !spec.silent && !spec.dynamicCapture }

/-- The call that a directive puts off once its gate is passed. -/
def Engine.callOf? (e : Engine σ) (inv : Invocation) (d : Directive) (w : World σ) : Option Call :=
  match d.kind with
  | .webhook (some spec) => if e.config.webhooksEnabled then some (value (e.prepareCall inv spec) w) else none
  | _ => none

/-- The call that a directive starts, if it is a webhook that passes its gate. -/
def Engine.startedCall? (e : Engine σ) (inv : Invocation) (d : Directive) (w : World σ) : Option Call :=
  let v := after (Run.note (.directive inv.id d)) w
  if e.passes v inv.actor d.gate then e.callOf? inv d v else none

theorem Engine.startedCall?_of_disabled {e : Engine σ} (h : e.config.webhooksEnabled = false) (inv : Invocation)
    (d : Directive) (w : World σ) : e.startedCall? inv d w = none := by
  unfold startedCall? callOf?
  simp only [h]
  split
  · split <;> rfl
  · rfl

theorem Engine.after_executeWebhook (e : Engine σ) (inv : Invocation) (spec : WebhookSpec) (w : World σ) :
    after (e.executeWebhook inv spec) w =
      if e.config.webhooksEnabled then
        (after (e.prepareCall inv spec) w).withCall inv (value (e.prepareCall inv spec) w)
      else after (e.resolveFor inv spec.url) w := by
  unfold Engine.executeWebhook
  by_cases he : e.config.webhooksEnabled
  · simp only [he, if_true]
    rfl
  · simp only [he]
    rfl

/-! ### Frames -/

/-- A line that the engine may hand to the host. -/
structure Engine.Dispatchable (e : Engine σ) (line : Text) : Prop where
  ne_nil : line ≠ []
  trim : line.trim = line
  allowed : line.firstWord.lower ∉ e.config.blacklist

theorem Engine.dispatchable_trim {e : Engine σ} {line : Text} (hne : line.trim ≠ [])
    (hallowed : line.firstWord.lower ∉ e.config.blacklist) : e.Dispatchable line.trim where
  ne_nil := hne
  trim := line.trim_trim
  allowed := by rwa [Text.firstWord_trim]

/-- A relation between worlds that is kept by each effect that a template can have. -/
structure Lookups (e : Engine σ) (R : World σ → World σ → Prop) : Prop where
  refl : ∀ w, R w w
  trans : ∀ {u v w}, R u v → R v w → R u w
  read : ∀ path key w, R w (after (e.read path key) w)
  write : ∀ file w, R w (after (e.write file) w)
  run : e.config.hostCommandsEnabled → ∀ command w, R w (after (e.run command) w)

/-- A relation between worlds that is kept by looking things up and by showing texts. -/
structure Showing (e : Engine σ) (R : World σ → World σ → Prop) : Prop extends Lookups e R where
  send : ∀ actor t w, R w (after (e.send actor t) w)

/-- A relation between worlds that is kept by looking things up, showing texts and dispatching lines. -/
structure Dispatching (e : Engine σ) (R : World σ → World σ → Prop) : Prop extends Showing e R where
  dispatchLine : ∀ actor {line}, e.Dispatchable line → ∀ silent w, R w (after (e.dispatchLine actor line silent) w)

/-- A relation between worlds that is kept by each effect that a directive of `inv` can have, but for dispatching. -/
structure InnerFrame (e : Engine σ) (inv : Invocation) (R : World σ → World σ → Prop) : Prop extends Showing e R where
  started : ∀ d w, R w (after (Run.note (.directive inv.id d)) w)
  assign : ∀ key value w, R w (after (Run.assign inv.actor key value) w)

/-- A relation between worlds that is kept by each effect that a directive of `inv` can have. -/
structure Frame (e : Engine σ) (inv : Invocation) (R : World σ → World σ → Prop) : Prop
    extends InnerFrame e inv R, Dispatching e R

namespace Lookups

variable {e : Engine σ} {R : World σ → World σ → Prop} (h : Lookups e R)
include h

/-! ### Putting runs together -/

theorem pure (a : α) : Keeps e R (Pure.pure a : Run σ α) :=
  ⟨h.refl, trivial⟩

theorem get : Keeps e R (MonadState.get : Run σ (World σ)) :=
  .modifyGet h.refl

theorem bind {m : Run σ α} {f : α → Run σ β} (hm : Keeps e R m) (hf : ∀ a, Keeps e R (f a)) :
    Keeps e R (m >>= f) :=
  ⟨fun w => h.trans (hm.after w) ((hf _).after _), hm.each.bind fun a => (hf a).each⟩

theorem attempt {m : Run σ α} (hm : Keeps e R m) : Keeps e R m.attempt :=
  ⟨hm.each.attempt.run h.refl h.trans, hm.each.attempt⟩

/-! ### Effects on the host -/

theorem keeps_read (path : Text) (key : Option Text) : Keeps e R (e.read path key) :=
  .modifyGet (h.read path key)

theorem keeps_write (file : FileWrite) : Keeps e R (e.write file) := by
  have hpanic (w : World σ) (c : Bool) (hc : c = true → e.host.MayPanic) (answer : Except HostError Unit) :
      ((Run.panicIf c : Run σ Unit).effects.bind fun _ => .done answer).Always e.host.MayPanic R := by
    cases c with
    | false => trivial
    | true => exact ⟨hc rfl, trivial⟩
  refine ⟨h.write file, h.write file, fun w => hpanic w _ (fun hc => ?_) _⟩
  refine ⟨file.path, file.key, file.value, w.host, ?_⟩
  split at hc
  · assumption
  · cases hc

theorem keeps_run (he : e.config.hostCommandsEnabled) (command : Text) : Keeps e R (e.run command) :=
  .modifyGet (h.run he command)

theorem guarded {m : Run σ Unit} {c : Prop} [Decidable c] (hm : Keeps e R m) :
    Keeps e R (if c then m else Pure.pure ()) := by
  split
  · exact hm
  · exact h.pure ()

private theorem forIn_steps {f : α → Run σ Unit} (hf : ∀ a, Keeps e R (f a)) (l : List α) :
    Keeps e R (ForIn.forIn l PUnit.unit fun a _ => do f a; Pure.pure (ForInStep.yield PUnit.unit) : Run σ PUnit) := by
  induction l with
  | nil => exact h.pure _
  | cons a l ih =>
    rw [List.forIn_cons]
    exact h.bind (h.bind (hf a) fun _ => h.pure _) fun
      | .done _ => h.pure _
      | .yield _ => ih

theorem forIn {f : α → Run σ Unit} (hf : ∀ a, Keeps e R (f a)) (l : List α) :
    Keeps e R (do for a in l do f a) :=
  h.bind (h.forIn_steps hf l) fun _ => h.pure ()

/-! ### Templates -/

theorem renderPieces {f : Text → Run σ Text} (hf : ∀ inner, Keeps e R (f inner)) (ps : List Piece) :
    Keeps e R (DirectiveEngine.renderPieces f ps) := by
  induction ps with
  | nil => exact h.pure _
  | cons p ps ih =>
    cases p with
    | plain t => exact h.bind ih fun _ => h.pure _
    | token inner => exact h.bind (hf inner) fun _ => h.bind ih fun _ => h.pure _

theorem readToken (inner : Text) : Keeps e R (e.readToken inner) := by
  unfold Engine.readToken
  split
  · exact h.pure _
  · refine h.bind (h.keeps_read _ _) fun r => ?_
    cases r with
    | ok t => exact h.pure _
    | error _ => exact h.pure _

theorem writeToken (inner : Text) : Keeps e R (e.writeToken inner) := by
  unfold Engine.writeToken
  cases FileWrite.ofToken? inner with
  | none => exact h.pure _
  | some file => exact h.bind (h.keeps_write file) fun _ => h.pure _

theorem commandToken (he : e.config.hostCommandsEnabled) (command : Text) :
    Keeps e R (e.commandToken command) := by
  refine h.bind (h.keeps_run he command) fun r => ?_
  cases r with
  | ok o => exact h.pure _
  | error _ => exact h.pure _

theorem resolve (actor : Actor) (args : List Text) (t : Text) : Keeps e R (e.resolve actor args t) := by
  refine h.bind h.get fun w => h.bind (h.renderPieces h.readToken _) fun t => ?_
  refine h.bind (h.renderPieces h.writeToken _) fun t => ?_
  by_cases he : e.config.hostCommandsEnabled
  · simp only [he, if_true]
    exact h.bind (h.renderPieces (h.commandToken he) _) fun t => h.bind h.get fun w => h.pure _
  · simp only [he]
    exact h.bind (h.pure t) fun t => h.bind h.get fun w => h.pure _

theorem resolveFor (inv : Invocation) (t : Text) : Keeps e R (e.resolveFor inv t) :=
  h.resolve _ _ t

theorem resolveCapture (inv : Invocation) (capture : Option Text) : Keeps e R (e.resolveCapture inv capture) := by
  unfold Engine.resolveCapture
  split
  · exact h.bind (h.resolveFor _ _) fun _ => h.pure _
  · exact h.pure _

theorem resolveHeaders (inv : Invocation) (headers : Dictionary Text) : Keeps e R (e.resolveHeaders inv headers) := by
  induction headers with
  | nil => exact h.pure _
  | cons header headers ih => exact h.bind (h.resolveFor _ _) fun _ => h.bind ih fun _ => h.pure _

theorem prepareCall (inv : Invocation) (spec : WebhookSpec) : Keeps e R (e.prepareCall inv spec) :=
  h.bind (h.resolveFor _ _) fun _ => h.bind (h.resolveFor _ _) fun _ => h.bind (h.resolveHeaders _ _) fun _ =>
    h.bind (h.resolveCapture _ _) fun _ => h.pure _

end Lookups

/-! ### Texts that are shown -/

namespace Showing

variable {e : Engine σ} {R : World σ → World σ → Prop} (h : Showing e R)
include h

theorem keeps_send (actor : Actor) (t : StyledText) : Keeps e R (e.send actor t) :=
  .modifyGet (h.send actor t)

theorem tell (actor : Actor) (t : Text) (color : Color) : Keeps e R (e.tell actor t color) :=
  h.keeps_send _ _

theorem recipient (inv : Invocation) (target : Option Text) : Keeps e R (e.recipient inv target) := by
  unfold Engine.recipient
  split
  · exact h.pure _
  · refine h.bind (h.resolveFor _ _) fun name => h.bind h.get fun w => ?_
    cases (e.host.server w.host).find? name with
    | some _ => exact h.pure _
    | none => exact h.bind (h.tell _ _ _) fun _ => h.pure _

theorem executeMessage (inv : Invocation) (spec : MessageSpec) : Keeps e R (e.executeMessage inv spec) := by
  unfold Engine.executeMessage
  split
  · exact h.pure _
  · refine h.bind (h.resolveFor _ _) fun t => h.bind (h.recipient _ _) fun r => ?_
    cases r with
    | some _ => exact h.keeps_send _ _
    | none => exact h.pure _

theorem dispatch (inv : Invocation) {actor : Actor} {silent : Bool}
    (hdispatch : ∀ {line}, e.Dispatchable line → ∀ w, R w (after (e.dispatchLine actor line silent) w)) (line : Text) :
    Keeps e R (e.dispatch inv actor line silent) := by
  unfold Engine.dispatch
  split
  · exact h.tell _ _ _
  · split
    · exact h.pure _
    · rename_i hne hallowed
      exact .modifyGet (hdispatch (Engine.dispatchable_trim (by simpa using hne) hallowed))

end Showing

/-! ### Lines that are dispatched -/

namespace Dispatching

variable {e : Engine σ} {R : World σ → World σ → Prop} (h : Dispatching e R)
include h

theorem dispatch (inv : Invocation) (actor : Actor) (line : Text) (silent : Bool) :
    Keeps e R (e.dispatch inv actor line silent) :=
  h.toShowing.dispatch inv (fun hline => h.dispatchLine actor hline silent) line

theorem executeCommand (inv : Invocation) (d : Directive) : Keeps e R (e.executeCommand inv d) :=
  h.bind (h.resolveFor _ _) fun _ => h.dispatch _ _ _ _

theorem executeItem (inv : Invocation) (body : Text) (loop : LoopSpec) (item : Text) :
    Keeps e R (e.executeItem inv body loop item) :=
  h.bind (h.resolveFor _ _) fun _ => h.dispatch _ _ _ _

theorem executeLoop (inv : Invocation) (body : Text) (loop : LoopSpec) : Keeps e R (e.executeLoop inv body loop) :=
  h.bind (h.resolveFor _ _) fun _ => h.forIn (h.executeItem inv body loop) _

end Dispatching

/-! ### Directives that dispatch nothing -/

namespace InnerFrame

variable {e : Engine σ} {inv : Invocation} {R : World σ → World σ → Prop} (h : InnerFrame e inv R)
include h

theorem keeps_assign (key value : Text) : Keeps e R (Run.assign inv.actor key value) :=
  .modifyGet (h.assign key value)

theorem executeAssignment (spec : AssignmentSpec) : Keeps e R (e.executeAssignment inv spec) :=
  h.bind (h.resolveFor _ _) fun _ => h.bind (h.resolveFor _ _) fun _ => h.bind (h.keeps_assign _ _) fun _ =>
    h.guarded (h.tell _ _ _)

theorem finishHostCall (quiet : Bool) (capture : Option Text) (r : Except HostError ProcessOutput) :
    Keeps e R (e.finishHostCall inv quiet capture r) := by
  cases r with
  | error fault => exact h.guarded (h.tell _ _ _)
  | ok o =>
    unfold Engine.finishHostCall
    simp only
    split
    · exact h.guarded (h.bind (h.tell _ _ _) fun _ => h.guarded (h.tell _ _ _))
    · cases capture with
      | some name => exact h.bind (h.keeps_assign _ _) fun _ => h.guarded (h.tell _ _ _)
      | none =>
        refine h.guarded ?_
        split
        · exact h.tell _ _ _
        · exact h.forIn (fun _ => h.tell _ _ _) _

theorem executeHostCall (d : Directive) (capture : Option Text) : Keeps e R (e.executeHostCall inv d capture) := by
  refine h.bind (h.resolveFor _ _) fun command => ?_
  by_cases he : e.config.hostCommandsEnabled
  · simp only [he, if_true]
    exact h.bind (h.resolveCapture _ _) fun _ => h.bind (h.keeps_run he _) fun _ => h.finishHostCall _ _ _
  · simp only [he]
    exact h.pure _

theorem finishCall {call : Call} (hcompleted : ∀ w, R w (after (Run.note (.completion inv.id call)) w))
    (r : Except HostError WebhookResponse) : Keeps e R (e.finishCall inv call r) := by
  refine h.bind (.modifyGet hcompleted) fun _ => ?_
  cases r with
  | error fault => exact h.guarded (h.tell _ _ _)
  | ok r =>
    simp only
    split
    · exact h.guarded (h.tell _ _ _)
    · cases call.capture.filter fun name => !name.isEmpty with
      | some name => exact h.bind (h.keeps_assign _ _) fun _ => h.guarded (h.tell _ _ _)
      | none => exact h.guarded (h.tell _ _ _)

theorem perform {d : Directive} (hcommand : d.kind ≠ .command) (hloop : ∀ spec, d.kind ≠ .loop spec) (w : World σ) :
    ∃ u, R w u ∧ after (e.perform inv d) w = u.withCall? inv (e.callOf? inv d w) := by
  unfold Engine.perform Engine.callOf?
  cases hkind : d.kind with
  | command => exact absurd hkind hcommand
  | loop spec => exact absurd hkind (hloop spec)
  | message spec => exact ⟨_, (h.executeMessage inv spec).after w, rfl⟩
  | hostCall capture => exact ⟨_, (h.executeHostCall d capture).after w, rfl⟩
  | assignment spec =>
    cases spec with
    | none => exact ⟨_, (h.pure ()).after w, rfl⟩
    | some spec => exact ⟨_, (h.executeAssignment spec).after w, rfl⟩
  | webhook spec =>
    cases spec with
    | none => exact ⟨_, (h.pure ()).after w, rfl⟩
    | some spec =>
      simp only [e.after_executeWebhook]
      split
      · exact ⟨_, (h.prepareCall inv spec).after w, rfl⟩
      · exact ⟨_, (h.resolveFor inv spec.url).after w, rfl⟩

theorem execute_of_perform {d : Directive}
    (hperform : ∀ v, ∃ u, R v u ∧ after (e.perform inv d) v = u.withCall? inv (e.callOf? inv d v)) (w : World σ) :
    ∃ u, R w u ∧ after (e.execute inv d) w = u.withCall? inv (e.startedCall? inv d w) := by
  have hstarted := h.started d w
  rw [e.after_execute, Engine.startedCall?]
  split
  · obtain ⟨u, hu, hd⟩ := hperform (after (Run.note (.directive inv.id d)) w)
    exact ⟨u, h.trans hstarted hu, hd⟩
  · exact ⟨_, hstarted, rfl⟩

theorem execute {d : Directive} (hcommand : d.kind ≠ .command) (hloop : ∀ spec, d.kind ≠ .loop spec) (w : World σ) :
    ∃ u, R w u ∧ after (e.execute inv d) w = u.withCall? inv (e.startedCall? inv d w) :=
  h.execute_of_perform (h.perform hcommand hloop) w

end InnerFrame

/-! ### All directives -/

namespace Frame

variable {e : Engine σ} {inv : Invocation} {R : World σ → World σ → Prop} (h : Frame e inv R)
include h

theorem perform (d : Directive) (w : World σ) :
    ∃ u, R w u ∧ after (e.perform inv d) w = u.withCall? inv (e.callOf? inv d w) := by
  by_cases hcommand : d.kind = .command
  · refine ⟨_, (h.executeCommand inv d).after w, ?_⟩
    rw [Engine.perform, Engine.callOf?, hcommand]
    rfl
  by_cases hloop : ∃ spec, d.kind = .loop spec
  · obtain ⟨spec, hloop⟩ := hloop
    rw [Engine.perform, Engine.callOf?, hloop]
    cases spec with
    | none => exact ⟨_, (h.pure ()).after w, rfl⟩
    | some spec => exact ⟨_, (h.executeLoop inv d.body spec).after w, rfl⟩
  · exact h.toInnerFrame.perform hcommand (fun spec hspec => hloop ⟨spec, hspec⟩) w

/-- What a directive does keeps every frame, up to the call that it puts off in the end. -/
theorem execute (d : Directive) (w : World σ) :
    ∃ u, R w u ∧ after (e.execute inv d) w = u.withCall? inv (e.startedCall? inv d w) :=
  h.toInnerFrame.execute_of_perform (h.perform d) w

theorem keeps_perform (hcall : ∀ due call w, R w { w with tasks := w.tasks ++ [⟨due, inv, .call call⟩] })
    (d : Directive) : Keeps e R (e.perform inv d) := by
  have hwebhook (spec : WebhookSpec) : Keeps e R (e.executeWebhook inv spec) := by
    refine h.bind (h.resolveFor _ _) fun url => ?_
    split
    · exact h.bind (h.resolveFor _ _) fun _ => h.bind (h.resolveHeaders _ _) fun _ => h.bind (h.resolveCapture _ _)
        fun _ => h.bind h.get fun _ => .modifyGet (hcall _ _)
    · exact h.pure _
  unfold Engine.perform
  split
  · exact h.executeCommand inv d
  · exact h.executeMessage inv _
  · exact h.executeHostCall d _
  · exact hwebhook _
  · exact h.pure ()
  · exact h.executeLoop inv d.body _
  · exact h.pure ()
  · exact h.executeAssignment _
  · exact h.pure ()

/-- If putting a call off keeps a frame too, a directive keeps it with each of its effects. -/
theorem keeps_execute (hcall : ∀ due call w, R w { w with tasks := w.tasks ++ [⟨due, inv, .call call⟩] })
    (d : Directive) : Keeps e R (e.execute inv d) :=
  h.bind (.modifyGet (h.started d)) fun _ => h.bind h.get fun _ => h.guarded (h.keeps_perform hcall d)

end Frame
end DirectiveEngine
