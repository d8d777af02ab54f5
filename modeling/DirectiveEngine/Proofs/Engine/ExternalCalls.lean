import DirectiveEngine.Host.Scripted
import DirectiveEngine.Proofs.Engine.Ending
import DirectiveEngine.Proofs.Engine.Local
import DirectiveEngine.Proofs.Engine.Scopes

/-!
# Calls that fail

A process or a webhook that fails leaves the variables alone, and dispatches nothing.  What becomes of the process of a
host call does not depend on the tasks (`Engine.hostOutcome?_tasks`), so an entry of a trail tells whether it is vain
(`Entry.isVain`).  A directive finds the variables that the other entries before it made, as if the vain ones were not
there (`failed_calls_leave_store`).
-/

namespace DirectiveEngine

variable {σ : Type} {e : Engine σ} {u v w : World σ} {inv : Invocation} {d : Directive}

open Run (after value)

/-! ### The process of a host call -/

namespace Engine

/-- Runs the process of a host call. -/
def runProcess (e : Engine σ) (inv : Invocation) (body : Text) (capture : Option Text) : Run σ HostOutcome := do
  let command ← e.resolveFor inv body
  let name ← e.resolveCapture inv capture
  let r ← e.run command
  return (name, r)

/-- What becomes of the process of a directive, if it is a host call that runs one. -/
def hostOutcome? (e : Engine σ) (inv : Invocation) (d : Directive) (w : World σ) : Option HostOutcome :=
  let v := after (Run.note (.directive inv.id d)) w
  match d.kind with
  | .hostCall capture =>
    if e.passes v inv.actor d.gate && e.config.hostCommandsEnabled then
      some (value (e.runProcess inv d.body capture) v)
    else none
  | _ => none

theorem isLocal_runProcess (e : Engine σ) (inv : Invocation) (body : Text) (capture : Option Text) :
    Run.IsLocal (e.runProcess inv body capture) :=
  (Run.IsLocal.resolveFor e inv _).bind fun _ => (Run.IsLocal.resolveCapture e inv _).bind fun _ =>
    (Run.IsLocal.run e _).bind fun _ => .pure _

/-- What is put off makes no difference to a process. -/
theorem hostOutcome?_tasks (e : Engine σ) (inv : Invocation) (d : Directive) (w : World σ) (tasks : List Task) :
    e.hostOutcome? inv d { w with tasks } = e.hostOutcome? inv d w := by
  unfold hostOutcome?
  cases d.kind with
  | hostCall capture =>
    let started : Run σ Unit := Run.note (.directive inv.id d)
    obtain ⟨_, -, hsame⟩ := e.isLocal_runProcess inv d.body capture (after started w)
    have hvalue : value (e.runProcess inv d.body capture) (after started { w with tasks }) =
        value (e.runProcess inv d.body capture) (after started w) := (hsame _ tasks).1
    simp only
    rw [hvalue]
    rfl
  | _ => rfl

theorem after_executeHostCall (e : Engine σ) (inv : Invocation) (d : Directive) (capture : Option Text)
    (w : World σ) :
    after (e.executeHostCall inv d capture) w =
      if e.config.hostCommandsEnabled then
        let process := e.runProcess inv d.body capture
        after (e.finishHostCall inv d.quiet (value process w).1 (value process w).2) (after process w)
      else after (e.resolveFor inv d.body) w := by
  unfold executeHostCall
  cases e.config.hostCommandsEnabled <;> rfl

end Engine

theorem store_after_finishHostCall (e : Engine σ) (inv : Invocation) (quiet : Bool) (x : HostOutcome) (w : World σ) :
    (after (e.finishHostCall inv quiet x.1 x.2) w).store = x.keepIn inv.actor w.store :=
  ((ends_finishHostCall e inv quiet x).store w).trans (x.store_after_keep inv.actor w)

/-! ### Directives that call -/

/-- Nothing was dispatched. -/
def Undispatched (u w : World σ) : Prop :=
  NotesOnly (fun ev => ∀ actor line silent, ev ≠ .dispatch actor line silent) u w

/-- The name for the variable that a host call or a webhook asks for. -/
def Directive.capture? (d : Directive) : Option Text :=
  match d.kind with
  | .hostCall capture => capture.filter fun name => !name.isEmpty
  | .webhook spec => spec.bind fun spec => spec.capture.filter fun name => !name.isEmpty
  | _ => none

theorem isSome_resolveCapture (e : Engine σ) (inv : Invocation) (capture : Option Text) (w : World σ) :
    (value (e.resolveCapture inv capture) w).isSome = (capture.filter fun name => !name.isEmpty).isSome := by
  unfold Engine.resolveCapture
  cases capture.filter fun name => !name.isEmpty <;> rfl

theorem undispatched_execute (e : Engine σ) (inv : Invocation) (hcommand : d.kind ≠ .command)
    (hloop : ∀ spec, d.kind ≠ .loop spec) (w : World σ) : Undispatched w (after (e.execute inv d) w) := by
  refine (notesOnly_execute_of_ne e inv hcommand hloop w).imp fun ev hev actor line silent heq => ?_
  rw [heq] at hev
  cases hev

theorem undispatched_finishCall (e : Engine σ) (inv : Invocation) (call : Call) (r : Except HostError WebhookResponse)
    (w : World σ) : Undispatched w (after (e.finishCall inv call r) w) := by
  obtain ⟨new, hnew, hconcludes⟩ := history_after_finishCall e inv call r w
  refine ⟨new ++ [(w.now, .completion inv.id call)], by rw [hnew, List.append_assoc]; rfl, ?_⟩
  intro x hx actor line silent heq
  rcases List.mem_append.1 hx with hx | hx
  · have hdispatch := hconcludes x hx
    rw [heq] at hdispatch
    cases hdispatch
  · rw [List.mem_singleton.1 hx] at heq
    cases heq

/-- A host call sets the variable for a good output, and no other. -/
theorem store_after_hostCall (e : Engine σ) (inv : Invocation) {capture : Option Text}
    (hd : d.kind = .hostCall capture) (w : World σ) :
    (after (e.execute inv d) w).store =
      match e.hostOutcome? inv d w with
      | some x => x.keepIn inv.actor w.store
      | none => w.store := by
  have h := wrote_dispatching e
  let v := after (Run.note (.directive inv.id d)) w
  rw [e.after_execute]
  unfold Engine.hostOutcome?
  simp only [hd]
  by_cases hpass : e.passes v inv.actor d.gate
  · rw [if_pos hpass]
    have hperform : after (e.perform inv d) v = after (e.executeHostCall inv d capture) v := by
      unfold Engine.perform
      rw [hd]
    rw [hperform, e.after_executeHostCall]
    by_cases hon : e.config.hostCommandsEnabled
    · rw [if_pos hon, if_pos (by simp [hpass, hon, v])]
      have hprocess : (after (e.runProcess inv d.body capture) v).store = v.store :=
        ((h.bind (h.resolveFor inv _) fun _ => h.bind (h.resolveCapture inv _) fun _ =>
          h.bind (h.keeps_run hon _) fun _ => h.pure _).after v).store
      simp only
      rw [store_after_finishHostCall, hprocess]
      rfl
    · rw [if_neg hon, if_neg (by simp [hon])]
      exact ((h.resolveFor inv _).after v).store
  · rw [if_neg hpass, if_neg (by simpa [v] using fun hp => absurd hp hpass)]
    rfl

theorem isSome_hostOutcome? {capture : Option Text} (hd : d.kind = .hostCall capture) {x : HostOutcome}
    (h : e.hostOutcome? inv d w = some x) : x.1.isSome = d.capture?.isSome := by
  unfold Engine.hostOutcome? at h
  rw [Directive.capture?, hd]
  simp only [hd, Option.ite_none_right_eq_some, Option.some.injEq] at h
  obtain ⟨-, rfl⟩ := h
  exact isSome_resolveCapture e inv capture _

/-- A webhook sets no variable where it starts. -/
theorem store_after_webhook (e : Engine σ) (inv : Invocation) {spec : Option WebhookSpec}
    (hd : d.kind = .webhook spec) (w : World σ) : (after (e.execute inv d) w).store = w.store := by
  have h := wrote_dispatching e
  let v := after (Run.note (.directive inv.id d)) w
  rw [e.after_execute]
  split
  · unfold Engine.perform
    rw [hd]
    cases spec with
    | none => rfl
    | some spec =>
      simp only [e.after_executeWebhook]
      split
      · exact ((h.prepareCall inv spec).after v).store
      · exact ((h.resolveFor inv spec.url).after v).store
  · rfl

theorem isSome_startedCall? {spec : Option WebhookSpec} (hd : d.kind = .webhook spec) {call : Call}
    (h : e.startedCall? inv d w = some call) : call.capture.isSome = d.capture?.isSome := by
  unfold Engine.startedCall? Engine.callOf? at h
  rw [Directive.capture?, hd]
  simp only [hd] at h
  cases spec with
  | none => simp at h
  | some spec =>
    simp only [Option.ite_none_right_eq_some, Option.some.injEq] at h
    obtain ⟨-, -, rfl⟩ := h
    exact isSome_resolveCapture e inv spec.capture _

/-- An answer sets a variable if its status is good and a name was asked for that is not empty. -/
theorem Answer.keepIn_eq (x : Answer) (actor : Actor) (s : Store) :
    x.keepIn actor s = match x.1.capture, x.2 with
      | some name, .ok r =>
        if 200 ≤ r.status ∧ r.status < 300 ∧ name ≠ [] then s.set actor name r.body else s
      | _, _ => s := by
  obtain ⟨⟨_, capture, _, _⟩, r⟩ := x
  unfold keepIn Call.kept?
  cases r with
  | error fault => cases capture <;> rfl
  | ok r =>
    cases capture with
    | none => simp
    | some name =>
      by_cases hname : name = [] <;> by_cases hr : 200 ≤ r.status ∧ r.status < 300 <;>
        simp [Option.filter, WebhookResponse.isSuccess, hname, hr]

/-! ### Vain entries -/

/-- Nothing comes of an entry for the variables: a process fails or is not run, a webhook starts, or its call has no
answer yet or no good one. -/
def Entry.isVain (x : Entry σ) (e : Engine σ) : Bool :=
  match x.act with
  | .directive inv d _ =>
    match d.kind with
    | .hostCall _ => !(e.hostOutcome? inv d x.before).any HostOutcome.isGood
    | .webhook _ => true
    | _ => false
  | .call _ call outcome => outcome.latency != 0 || !Answer.isGood (call, outcome.result)
  | .response _ call r => !Answer.isGood (call, r)
  | _ => false

/-- What an entry makes of a store: whoever acts from outside replaces it, and all else sets variables in it. -/
def Entry.carry (x : Entry σ) (s : Store) : Store :=
  match x.act with
  | .outside => x.behind.store
  | _ => x.writes.foldl Store.put s

theorem Move.store_of_isVain {a : Act} (h : Move e u a w) (hvain : (⟨u, a, w⟩ : Entry σ).isVain e) :
    w.store = u.store ∧ Undispatched u w := by
  unfold Entry.isVain at hvain
  cases h with
  | @directive before later inv due d ds htasks hdue =>
    let v : World σ := { u with tasks := before ++ later }
    rw [after_advance]
    simp only at hvain
    split at hvain
    · rename_i capture hkind
      refine ⟨?_, undispatched_execute e inv (by simp [hkind]) (by simp [hkind]) v⟩
      have hstore := store_after_hostCall e inv hkind v
      rw [e.hostOutcome?_tasks inv d u] at hstore
      -- what becomes of the process is not good, if it was run
      cases hx : e.hostOutcome? inv d u with
      | none => rwa [hx] at hstore
      | some x =>
        have hbad : x.isGood = false := by simpa [hx] using hvain
        rw [hx] at hstore
        exact hstore.trans (x.keepIn_of_not_isGood hbad inv.actor u.store)
    · rename_i spec hkind
      exact ⟨store_after_webhook e inv hkind v, undispatched_execute e inv (by simp [hkind]) (by simp [hkind]) v⟩
    · simp at hvain
  | @call before later inv due call htasks hdue =>
    let v : World σ := { u with tasks := before ++ later }
    let outcome := (e.host.call call.request u.host).1
    have hcalled : Undispatched u (after (e.call inv.id call.request) v) := .of_cons rfl nofun
    rw [after_runTask_call e inv call (w := v) hdue]
    split
    · have hnow : (e.host.call call.request u.host).1.latency = 0 := ‹_›
      have hbad : Answer.isGood (call, outcome.result) = false := by simpa [hnow] using hvain
      refine ⟨?_, hcalled.trans (undispatched_finishCall e inv call outcome.result _)⟩
      rw [store_after_finishCall, Answer.keepIn_of_not_isGood hbad]
      rfl
    · exact ⟨rfl, hcalled⟩
  | @response before later inv due call r htasks hdue =>
    let v : World σ := { u with tasks := before ++ later }
    have hbad : Answer.isGood (call, r) = false := by simpa using hvain
    rw [after_runTask_response e inv call r (w := v) hdue, store_after_finishCall, Answer.keepIn_of_not_isGood hbad]
    exact ⟨rfl, undispatched_finishCall e inv call r v⟩
  | enter | panicked | denied | outside | clock => simp at hvain

theorem Move.carried {a : Act} (h : Move e u a w) : w.store = (⟨u, a, w⟩ : Entry σ).carry u.store := by
  by_cases ha : a = .outside
  · subst ha
    rfl
  · have hstore := (h.confined fun h => absurd h ha).store
    unfold Entry.carry
    cases a with
    | outside => exact absurd rfl ha
    | enter | directive | panicked | call | response | denied | clock => exact hstore

namespace Trail

variable {log : List (Entry σ)}

/-- Before an entry stands the trail of those before it. -/
theorem front {front rest : List (Entry σ)} {y : Entry σ} (h : Trail e u (front ++ y :: rest) w) :
    Trail e u front y.before := by
  generalize hlog : front ++ y :: rest = log at h
  induction h generalizing rest with
  | nil => simp at hlog
  | @snoc log v w a h hm ih =>
    rcases List.eq_nil_or_concat rest with rfl | ⟨rest', last, rfl⟩
    · obtain ⟨rfl, hy⟩ := List.append_inj' hlog rfl
      rw [List.singleton_inj.1 hy]
      exact h
    · rw [List.concat_eq_append, ← List.cons_append, ← List.append_assoc] at hlog
      exact ih (List.append_inj' hlog rfl).1

/-- The variables are those that the entries make which are not vain. -/
theorem store_carried (h : Trail e u log w) :
    w.store = (log.filter fun x => !x.isVain e).foldl (fun s x => x.carry s) u.store := by
  induction h with
  | nil => rfl
  | @snoc log v w a h hm ih =>
    rw [List.filter_append, List.foldl_append, ← ih]
    cases hvain : (⟨v, a, w⟩ : Entry σ).isVain e with
    | true => simpa [hvain] using (hm.store_of_isVain hvain).1
    | false => simpa [hvain] using hm.carried

end Trail

/-- A host call or a webhook dispatches nothing.  A host call sets the variable that it asks for, in the scope of its
actor, if its process exits with zero, and else it sets none; so does a webhook when its response arrives, if the status
is one from 200 to 299.  However invocations interleave, a vain entry leaves the variables as they are, and those that an
entry finds are made by the entries before it that are not vain. -/
theorem failed_calls_leave_store (e : Engine σ) :
    (∀ (inv : Invocation) (d : Directive) (capture : Option Text) (w : World σ), d.kind = .hostCall capture →
      Undispatched w (after (e.execute inv d) w) ∧
      (after (e.execute inv d) w).store = (match e.hostOutcome? inv d w with
        | some (some name, .ok o) => if o.exitCode = 0 then w.store.set inv.actor name o.output.trim else w.store
        | _ => w.store) ∧
      ∀ x, e.hostOutcome? inv d w = some x → x.1.isSome = d.capture?.isSome) ∧
    (∀ (inv : Invocation) (d : Directive) (spec : Option WebhookSpec) (w : World σ), d.kind = .webhook spec →
      Undispatched w (after (e.execute inv d) w) ∧ (after (e.execute inv d) w).store = w.store ∧
      ∀ call, e.startedCall? inv d w = some call → call.capture.isSome = d.capture?.isSome) ∧
    (∀ (inv : Invocation) (call : Call) (r : Except HostError WebhookResponse) (w : World σ),
      Undispatched w (after (e.finishCall inv call r) w) ∧
      (after (e.finishCall inv call r) w).store = match call.capture, r with
        | some name, .ok r =>
          if 200 ≤ r.status ∧ r.status < 300 ∧ name ≠ [] then w.store.set inv.actor name r.body else w.store
        | _, _ => w.store) ∧
    ∀ {u w : World σ} {log : List (Entry σ)}, Trail e u log w →
      (∀ x ∈ log, x.isVain e → x.behind.store = x.before.store ∧ Undispatched x.before x.behind) ∧
      ∀ {front rest : List (Entry σ)} {y : Entry σ}, log = front ++ y :: rest →
        y.before.store = (front.filter fun x => !x.isVain e).foldl (fun s x => x.carry s) u.store := by
  refine ⟨fun inv d capture w hd => ⟨?_, ?_, fun x => isSome_hostOutcome? hd⟩, fun inv d spec w hd => ⟨?_, ?_, fun call =>
    isSome_startedCall? hd⟩, fun inv call r w => ⟨?_, ?_⟩, fun h => ⟨fun x hx hvain => ?_, ?_⟩⟩
  · exact undispatched_execute e inv (by simp [hd]) (by simp [hd]) w
  · rw [store_after_hostCall e inv hd]
    match e.hostOutcome? inv d w with
    | some (some name, .ok o) => simp [HostOutcome.keepIn, ProcessOutput.isSuccess]
    | some (some _, .error _) | some (none, _) | none => rfl
  · exact undispatched_execute e inv (by simp [hd]) (by simp [hd]) w
  · exact store_after_webhook e inv hd w
  · exact undispatched_finishCall e inv call r w
  · rw [store_after_finishCall]
    exact Answer.keepIn_eq (call, r) inv.actor w.store
  · obtain ⟨_, -, hm⟩ := h.entry hx
    exact hm.store_of_isVain hvain
  · rintro front rest y rfl
    exact h.front.store_carried

/-- A process that runs out of time, a webhook that is answered with an error, and an invocation that enters behind the
process. -/
theorem failed_calls_leave_store_timeout :
    let e : Engine Script :=
      { host := Script.host, config := { hostCommandsEnabled := true, webhooksEnabled := true } }
    let start : World Script := { host := { processes := [("sleep 9", .error (.timeout 5))], files := ⟨[], [], []⟩ } }
    let inv : Invocation := ⟨0, .console, []⟩
    let d := Directive.parse "$sleep 9 >>a"
    let d' := Directive.parse "%http://h>>a"
    let call : Call := { request := ⟨"http://h", [], []⟩, capture := some "a", silent := false, announce := true }
    let u := after (e.enter .console [] [d]) start
    (after (e.execute inv d) start).store = start.store ∧ (after (e.execute inv d') start).store = start.store ∧
      (after (e.finishCall inv call (.ok ⟨500, "down"⟩)) start).store = start.store ∧
      ∃ a v, a.directiveOf? inv = some d ∧ Move e u a v ∧ (⟨u, a, v⟩ : Entry Script).isVain e ∧
        v.store = start.store := by
  intro e start inv d d' call u
  obtain ⟨hprocess, hwebhook, hanswer, htrail⟩ := failed_calls_leave_store e
  have hkind : d.kind = .hostCall (some "a") := by decide +kernel
  have hkind' : d'.kind = .webhook (some ⟨"http://h", [], [], some "a", false, false⟩) := by decide +kernel
  have houtcome : e.hostOutcome? inv d start = some (some ("a" : Text), .error (.timeout 5)) := by decide +kernel
  have hstore := (hprocess inv d _ start hkind).2.1
  rw [houtcome] at hstore
  -- the process of a trail's second entry
  have hu : u.tasks = [] ++ [⟨0, inv, .tail [(0, d)]⟩] := rfl
  obtain ⟨a, v, hmove, hact, hvain⟩ : ∃ a v, Move e u a v ∧ a.directiveOf? inv = some d ∧
      (⟨u, a, v⟩ : Entry Script).isVain e := ⟨_, _, .directive hu (Nat.le_refl 0) (by decide +kernel), rfl, by decide +kernel⟩
  have hlog := ((Trail.nil.snoc (.enter .console [] [d])).snoc hmove).snoc (.enter .console [] [d'])
  have hbefore := (htrail hlog).2 (show _ = [_, _] ++ _ :: [] from rfl)
  rw [List.filter_cons_of_pos rfl, List.filter_cons_of_neg (by simpa using hvain)] at hbefore
  exact ⟨hstore, (hwebhook inv d' _ start hkind').2.1, (hanswer inv call (.ok ⟨500, "down"⟩) start).2, a, v, hact, hmove,
    hvain, hbefore⟩

end DirectiveEngine
