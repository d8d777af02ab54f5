import DirectiveEngine.Host.Scripted
import DirectiveEngine.Proofs.Engine.Dispatch
import DirectiveEngine.Proofs.Engine.ExternalCalls

/-!
# Quiet and loud

A host call, an assignment or a webhook that is made quiet (`Directive.hush`) does what it did before, up to the texts at
its end, and all of these were for its actor.  A webhook shows its texts when the answer arrives, from a call that was
put off; so the same is proved of each step of a call that is made quiet (`Task.hush`), from any world in which it is
taken.
-/

namespace DirectiveEngine

variable {σ α : Type} {e : Engine σ} {actor : Actor} {inv : Invocation} {w u v : World σ} {texts : List StyledText}

open Run (after value)

/-! ### Flags -/

/-- The directive with the flag set that makes a host call, an assignment or a webhook quiet. -/
def Directive.hush (d : Directive) : Directive :=
  match d.kind with
  | .hostCall _ => { d with quiet := true }
  | .assignment (some spec) => { d with kind := .assignment (some { spec with quiet := true }) }
  | .webhook (some spec) => { d with kind := .webhook (some { spec with silent := true }) }
  | _ => d

def Call.hush (c : Call) : Call :=
  { c with silent := true, announce := false }

def Task.hush (t : Task) : Task :=
  match t.work with
  | .tail _ => t
  | .call c => { t with work := .call c.hush }
  | .response c r => { t with work := .response c.hush r }

/-- The event as it is noted when its directive or its call is quiet. -/
def Event.hush : Event → Event
  | .directive id d => .directive id d.hush
  | .completion id c => .completion id c.hush
  | ev => ev

def Event.isText : Event → Bool
  | .text .. => true
  | _ => false

theorem Event.isText_hush (ev : Event) : ev.hush.isText = ev.isText := by
  cases ev <;> rfl

theorem Event.of_isRequest {ev : Event} (h : ev.isRequest) : ev.isText = false ∧ ev.hush = ev := by
  cases ev <;> first | exact ⟨rfl, rfl⟩ | simp [isRequest] at h

/-! ### Worlds that differ in texts -/

/-- Two worlds that a loud and a quiet run have come to from a third: the loud one showed some texts to an actor at last,
and before that both have noted, put off and done the same. -/
structure DiffersInTexts (e : Engine σ) (actor : Actor) (w loud quiet : World σ) (texts : List StyledText) : Prop where
  host : loud.host = texts.foldl (fun s t => e.host.send actor t s) quiet.host
  store : loud.store = quiet.store
  now : loud.now = quiet.now
  invocations : loud.invocations = quiet.invocations
  history : ∃ evs : List (Nat × Event), (∀ x ∈ evs, x.2.isText = false) ∧
    loud.history = (texts.map fun t => (loud.now, .text actor t)).reverse ++ (evs ++ w.history) ∧
    quiet.history = evs.map (fun x => (x.1, x.2.hush)) ++ w.history
  tasks : ∃ new : List Task, loud.tasks = w.tasks ++ new ∧ quiet.tasks = w.tasks ++ new.map Task.hush

namespace DiffersInTexts

theorem refl (w : World σ) : DiffersInTexts e actor w w w [] :=
  ⟨rfl, rfl, rfl, rfl, ⟨[], by simp, rfl, rfl⟩, ⟨[], by simp, by simp⟩⟩

/-- The quiet run shows no texts. -/
theorem silent (h : DiffersInTexts e actor w u v texts) : NotesOnly (fun ev => ev.isText = false) w v := by
  obtain ⟨evs, hevs, -, hquiet⟩ := h.history
  refine ⟨_, hquiet, fun x hx => ?_⟩
  obtain ⟨y, hy, rfl⟩ := List.mem_map.1 hx
  exact y.2.isText_hush.trans (hevs y hy)

theorem note (h : DiffersInTexts e actor w u v []) (ev : Event) (hev : ev.isText = false) :
    DiffersInTexts e actor w (after (Run.note ev) u) (after (Run.note ev.hush) v) [] := by
  obtain ⟨evs, hevs, hloud, hquiet⟩ := h.history
  refine ⟨h.host, h.store, h.now, h.invocations, ⟨(u.now, ev) :: evs, ?_, ?_, ?_⟩, h.tasks⟩
  · simpa [hev] using hevs
  · exact congrArg _ hloud
  · show (v.now, ev.hush) :: v.history = _
    rw [hquiet, h.now]
    rfl

theorem assign (h : DiffersInTexts e actor w u v []) (key text : Text) :
    DiffersInTexts e actor w (after (Run.assign inv.actor key text) u) (after (Run.assign inv.actor key text) v) [] := by
  have hnoted := h.note (.assign inv.actor key text) rfl
  exact ⟨hnoted.host, congrArg (fun s : Store => s.set inv.actor key text) h.store, hnoted.now, hnoted.invocations,
    hnoted.history, hnoted.tasks⟩

theorem postpone (h : DiffersInTexts e actor w u v []) (t : Task) :
    DiffersInTexts e actor w (after (Run.postpone t) u) (after (Run.postpone t.hush) v) [] := by
  obtain ⟨new, hloud, hquiet⟩ := h.tasks
  refine ⟨h.host, h.store, h.now, h.invocations, h.history, ⟨new ++ [t], ?_, ?_⟩⟩
  · show u.tasks ++ [t] = _
    rw [hloud, List.append_assoc]
  · show v.tasks ++ [t.hush] = _
    rw [hquiet, List.append_assoc, List.map_append]
    rfl

theorem withCall (h : DiffersInTexts e actor w u v []) (call : Call) :
    DiffersInTexts e actor w (u.withCall inv call) (v.withCall inv call.hush) [] := by
  have hput : DiffersInTexts e actor w (u.withCall inv call)
      { v with tasks := v.tasks ++ [⟨u.now, inv, .call call.hush⟩] } [] := h.postpone ⟨u.now, inv, .call call⟩
  rwa [h.now] at hput

theorem send (h : DiffersInTexts e actor w u v texts) (t : StyledText) :
    DiffersInTexts e actor w (after (e.send actor t) u) v (texts ++ [t]) := by
  obtain ⟨evs, hevs, hloud, hquiet⟩ := h.history
  refine ⟨?_, h.store, h.now, h.invocations, ⟨evs, hevs, ?_, hquiet⟩, h.tasks⟩
  · rw [List.foldl_append, ← h.host]
    rfl
  · show (u.now, _) :: u.history = (List.map (fun t => (u.now, _)) _).reverse ++ _
    rw [hloud, List.map_append, List.reverse_append]
    rfl

theorem sends (h : DiffersInTexts e actor w u v texts) (more : List StyledText) :
    DiffersInTexts e actor w (more.foldl (fun u t => after (e.send actor t) u) u) v (texts ++ more) := by
  induction more generalizing u texts with
  | nil => rwa [List.append_nil]
  | cons t more ih => simpa using ih (h.send t)

theorem keep (h : DiffersInTexts e inv.actor w u v []) (kept : Option (Text × Text)) :
    DiffersInTexts e inv.actor w (after (Run.keep inv.actor kept) u) (after (Run.keep inv.actor kept) v) [] := by
  cases kept with
  | none => exact h
  | some kept => exact h.assign kept.1 kept.2

/-- The loud run may end with texts, where the quiet one has none. -/
theorem ends {quiet : Bool} {kept : Option (Text × Text)} {m m' : Run σ Unit}
    (hm : m.Ends e inv.actor quiet kept) (hm' : m'.Ends e inv.actor true kept) (h : DiffersInTexts e inv.actor w u v []) :
    ∃ texts, DiffersInTexts e inv.actor w (after m u) (after m' v) texts := by
  obtain ⟨texts, -, hloud⟩ := hm u
  rw [hloud, hm'.after_eq]
  exact ⟨texts, (h.keep kept).sends texts⟩

/-- A template makes of both worlds the same. -/
theorem resolved {m : Run σ α} (hm : m.IsLocal) (h : DiffersInTexts e actor w u v []) :
    value m v = value m u ∧ DiffersInTexts e actor w (after m u) (after m v) [] := by
  obtain ⟨new, hnew, hsame⟩ := hm u
  obtain ⟨evs, hevs, hloud, hquiet⟩ := h.history
  -- the quiet world is the loud one with a history and tasks of its own
  have hv : v = { u with history := v.history, tasks := v.tasks } := by
    obtain ⟨hhost, hstore, hnow, hinvocations, -, -⟩ := h
    cases u
    cases v
    simp_all
  have hu : after m u = { after m u with history := new ++ u.history, tasks := u.tasks } :=
    (hsame u.history u.tasks).2
  obtain ⟨hvalue, hafter⟩ := hsame v.history v.tasks
  rw [← hv] at hvalue hafter
  refine ⟨hvalue, ?_⟩
  rw [hafter, hu]
  -- requests are noted alike, since they hold no flag
  refine ⟨rfl, rfl, rfl, rfl, ⟨new ++ evs, ?_, ?_, ?_⟩, h.tasks⟩
  · intro x hx
    exact (List.mem_append.1 hx).elim (fun hx => (Event.of_isRequest (hnew x hx)).1) (hevs x)
  · show new ++ u.history = _
    rw [hloud, List.append_assoc]
    rfl
  · have hkept : new.map (fun x => (x.1, x.2.hush)) = new :=
      (List.map_congr_left fun x hx => by rw [(Event.of_isRequest (hnew x hx)).2]; rfl).trans (List.map_id new)
    show new ++ v.history = _
    rw [hquiet, List.map_append, hkept, List.append_assoc]

theorem bind {m : Run σ α} (hm : m.IsLocal) {f f' : α → Run σ Unit} (h : DiffersInTexts e actor w u v [])
    (hf : ∀ a u v, DiffersInTexts e actor w u v [] →
      ∃ texts, DiffersInTexts e actor w (after (f a) u) (after (f' a) v) texts) :
    ∃ texts, DiffersInTexts e actor w (after (m >>= f) u) (after (m >>= f') v) texts := by
  obtain ⟨hvalue, hdiffers⟩ := h.resolved hm
  rw [Run.after_bind, Run.after_bind, hvalue]
  exact hf _ _ _ hdiffers

end DiffersInTexts

/-! ### Directives -/

section

variable (h : DiffersInTexts e inv.actor w u v [])
include h

theorem executeHostCall_differs (d : Directive) (capture : Option Text) :
    ∃ texts, DiffersInTexts e inv.actor w (after (e.executeHostCall inv d capture) u)
      (after (e.executeHostCall inv { d with quiet := true } capture) v) texts := by
  rw [e.after_executeHostCall, e.after_executeHostCall]
  split
  · obtain ⟨hvalue, hprocess⟩ := h.resolved (e.isLocal_runProcess inv d.body capture)
    simp only [hvalue]
    exact hprocess.ends (ends_finishHostCall e inv _ _) (ends_finishHostCall e inv true _)
  · exact ⟨[], (h.resolved (.resolveFor e inv d.body)).2⟩

theorem executeAssignment_differs (spec : AssignmentSpec) :
    ∃ texts, DiffersInTexts e inv.actor w (after (e.executeAssignment inv spec) u)
      (after (e.executeAssignment inv { spec with quiet := true }) v) texts := by
  refine h.bind (.resolveFor e inv spec.name) fun name _ _ h => ?_
  refine h.bind (.resolveFor e inv spec.value) fun value _ _ h => ?_
  have htell := Run.Tells.tell e inv.actor ("Variable set: " ++ name ++ " = " ++ value) .green
  have hends (quiet : Bool) : Run.Ends e inv.actor quiet (some (name, value)) _ :=
    htell.ends_assign name value (c := !quiet) (by simp)
  exact h.ends (hends spec.quiet) (hends true)

theorem executeWebhook_differs (spec : WebhookSpec) :
    DiffersInTexts e inv.actor w (after (e.executeWebhook inv spec) u)
      (after (e.executeWebhook inv { spec with silent := true }) v) [] := by
  rw [e.after_executeWebhook, e.after_executeWebhook]
  split
  · have hlocal : Run.IsLocal (e.prepareCall inv spec) :=
      (Run.IsLocal.resolveFor e inv _).bind fun _ => (Run.IsLocal.resolveFor e inv _).bind fun _ =>
        (Run.IsLocal.resolveHeaders e inv _).bind fun _ => (Run.IsLocal.resolveCapture e inv _).bind fun _ => .pure _
    obtain ⟨hvalue, hprepared⟩ := h.resolved hlocal
    have hput : DiffersInTexts e inv.actor w
        ((after (e.prepareCall inv spec) u).withCall inv (value (e.prepareCall inv spec) u))
        ((after (e.prepareCall inv spec) v).withCall inv (value (e.prepareCall inv spec) v).hush) [] := by
      rw [hvalue]
      exact hprepared.withCall _
    exact hput
  · exact (h.resolved (.resolveFor e inv spec.url)).2

theorem finishCall_differs (call : Call) (r : Except HostError WebhookResponse) :
    ∃ texts, DiffersInTexts e inv.actor w (after (e.finishCall inv call r) u)
      (after (e.finishCall inv call.hush r) v) texts := by
  obtain ⟨m, hm, hafter⟩ := after_finishCall e inv false call (by simp) r
  obtain ⟨m', hm', hafter'⟩ := after_finishCall e inv true call.hush (fun _ => ⟨rfl, rfl⟩) r
  rw [hafter, hafter']
  exact (h.note (.completion inv.id call) rfl).ends hm hm'

end

theorem perform_differs {d : Directive} (h : DiffersInTexts e inv.actor w u v []) (hcommand : d.kind ≠ .command)
    (hmessage : ∀ spec, d.kind ≠ .message spec) (hloop : ∀ spec, d.kind ≠ .loop spec) :
    ∃ texts, DiffersInTexts e inv.actor w (after (e.perform inv d) u) (after (e.perform inv d.hush) v) texts := by
  unfold Engine.perform Directive.hush
  cases hkind : d.kind with
  | command => exact absurd hkind hcommand
  | message spec => exact absurd hkind (hmessage spec)
  | loop spec => exact absurd hkind (hloop spec)
  | hostCall capture => simpa only [hkind] using executeHostCall_differs h d capture
  | assignment spec =>
    cases spec with
    | none => simpa only [hkind] using ⟨[], h⟩
    | some spec => exact executeAssignment_differs h spec
  | webhook spec =>
    cases spec with
    | none => simpa only [hkind] using ⟨[], h⟩
    | some spec => exact ⟨[], executeWebhook_differs h spec⟩

theorem execute_differs (e : Engine σ) (inv : Invocation) {d : Directive} (hcommand : d.kind ≠ .command)
    (hmessage : ∀ spec, d.kind ≠ .message spec) (hloop : ∀ spec, d.kind ≠ .loop spec) (w : World σ) :
    ∃ texts, DiffersInTexts e inv.actor w (after (e.execute inv d) w) (after (e.execute inv d.hush) w) texts := by
  have hnoted : DiffersInTexts e inv.actor w (after (Run.note (.directive inv.id d)) w)
      (after (Run.note (.directive inv.id d.hush)) w) [] := (DiffersInTexts.refl w).note (.directive inv.id d) rfl
  -- the gate is the same, and finds the same host and variables
  have hgate : d.hush.gate = d.gate := by
    unfold Directive.hush
    split <;> rfl
  have hpasses : e.passes (after (Run.note (.directive inv.id d.hush)) w) inv.actor d.gate =
      e.passes (after (Run.note (.directive inv.id d)) w) inv.actor d.gate := rfl
  rw [e.after_execute, e.after_execute, hgate, hpasses]
  split
  · exact perform_differs hnoted hcommand hmessage hloop
  · exact ⟨[], hnoted⟩

/-! ### Calls that were put off -/

theorem runTask_differs (e : Engine σ) {t : Task} (ht : ∀ ds, t.work ≠ .tail ds) (w : World σ) :
    ∃ texts, DiffersInTexts e t.invocation.actor w (after (e.runTask t) w) (after (e.runTask t.hush) w) texts := by
  obtain ⟨due, inv, work⟩ := t
  -- the world at the time when the task is run
  let v : World σ := { w with now := max w.now due }
  have htasks : v.tasks = w.tasks ++ [] := (List.append_nil w.tasks).symm
  cases work with
  | tail ds => exact absurd rfl (ht ds)
  | response call r =>
    have hv : DiffersInTexts e inv.actor w v v [] :=
      ⟨rfl, rfl, rfl, rfl, ⟨[], by simp, rfl, rfl⟩, ⟨[], htasks, htasks⟩⟩
    exact finishCall_differs hv call r
  | call call =>
    let called := after (e.call inv.id call.request) v
    let outcome := (e.host.call call.request w.host).1
    have hcalled : DiffersInTexts e inv.actor w called called [] :=
      ⟨rfl, rfl, rfl, rfl, ⟨[(v.now, .webhook inv.id call.request)], by simp [Event.isText], rfl, rfl⟩,
        ⟨[], htasks, htasks⟩⟩
    let goOn (call : Call) : Run σ Unit :=
      if outcome.latency = 0 then e.finishCall inv call outcome.result
      else Run.postpone ⟨v.now + outcome.latency, inv, .response call outcome.result⟩
    show ∃ texts, DiffersInTexts e inv.actor w (after (goOn call) called) (after (goOn call.hush) called) texts
    unfold goOn
    split
    · exact finishCall_differs hcalled call outcome.result
    · exact ⟨[], hcalled.postpone ⟨v.now + outcome.latency, inv, .response call outcome.result⟩⟩

/-- However a host call, an assignment or a webhook is made quiet and wherever it is executed: up to the flag it notes,
does and puts off the same, without the texts at the end, which are for its actor, and shows no others.  So it is with
each step of a webhook's call, whatever the host answers and whatever has happened since it was put off. -/
theorem quiet_differs_in_texts (e : Engine σ) :
    (∀ (inv : Invocation) (d : Directive) (w : World σ), d.kind ≠ .command → (∀ spec, d.kind ≠ .message spec) →
      (∀ spec, d.kind ≠ .loop spec) →
      (∃ texts, DiffersInTexts e inv.actor w (after (e.execute inv d) w) (after (e.execute inv d.hush) w) texts) ∧
        NotesOnly (fun ev => ev.isText = false) w (after (e.execute inv d.hush) w)) ∧
    ∀ (t : Task) (w : World σ), (∀ ds, t.work ≠ .tail ds) →
      (∃ texts, DiffersInTexts e t.invocation.actor w (after (e.runTask t) w) (after (e.runTask t.hush) w) texts) ∧
        NotesOnly (fun ev => ev.isText = false) w (after (e.runTask t.hush) w) := by
  refine ⟨fun inv d w hcommand hmessage hloop => ?_, fun t w ht => ?_⟩
  · obtain ⟨texts, h⟩ := execute_differs e inv hcommand hmessage hloop w
    exact ⟨⟨texts, h⟩, h.silent⟩
  · obtain ⟨texts, h⟩ := runTask_differs e ht w
    exact ⟨⟨texts, h⟩, h.silent⟩

/-- A host call that is made quiet by a dash, and the answer to a webhook. -/
theorem quiet_differs_in_texts_date :
    let e : Engine Script := { host := Script.host, config := { hostCommandsEnabled := true } }
    let w : World Script := { host := { processes := [("date", .ok ⟨0, "noon\n"⟩)], files := ⟨[], [], []⟩ } }
    let inv : Invocation := ⟨0, .console, []⟩
    let d := Directive.parse "$date >>d"
    let call : Call := { request := ⟨"http://h", [], []⟩, capture := some "d", silent := false, announce := true }
    let t : Task := ⟨0, inv, .response call (.ok ⟨200, "noon"⟩)⟩
    d.hush = { Directive.parse "-$date >>d" with raw := d.raw } ∧
      (∃ texts, DiffersInTexts e .console w (after (e.execute inv d) w) (after (e.execute inv d.hush) w) texts) ∧
      ∃ texts, DiffersInTexts e .console w (after (e.runTask t) w) (after (e.runTask t.hush) w) texts := by
  intro e w inv d call t
  have hkind : d.kind = .hostCall (some "d") := by decide +kernel
  obtain ⟨hexecute, hrunTask⟩ := quiet_differs_in_texts e
  refine ⟨by decide +kernel, (hexecute inv d w ?_ ?_ ?_).1, (hrunTask t w (by simp [t])).1⟩
  · simp [hkind]
  · simp [hkind]
  · simp [hkind]

end DirectiveEngine
