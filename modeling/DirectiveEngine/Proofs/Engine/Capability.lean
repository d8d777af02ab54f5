import DirectiveEngine.Host.Scripted
import DirectiveEngine.Proofs.Engine.Sentinels
import DirectiveEngine.Proofs.Engine.Session

/-!
# Capabilities

A capability that is off is never used in a session, whatever its directives and templates ask for
(`capability_gates`).  A directive for it does not do nothing, though: the text that it would hand on is resolved before
the capability is tested, and what that text asks of files, and of commands if only webhooks are off, is done
(`disabled_effects`).
-/

namespace DirectiveEngine

variable {σ : Type} {e : Engine σ} {u v w : World σ}

open Run (Keeps after value)

/-! ### Capabilities that are off -/

/-- No call is made, and none is to be made later. -/
structure World.WithoutCalls (w : World σ) : Prop where
  tasks : ∀ t ∈ w.tasks, ∃ ds, t.work = .tail ds
  history : ∀ t id request, (t, .webhook id request) ∉ w.history

/-- Without webhooks a directive puts nothing off. -/
theorem Frame.execute_of_disabled {inv : Invocation} {R : World σ → World σ → Prop} (h : Frame e inv R)
    (hoff : e.config.webhooksEnabled = false) (d : Directive) (w : World σ) : R w (after (e.execute inv d) w) := by
  obtain ⟨u, hu, hd⟩ := h.execute d w
  rwa [hd, Engine.startedCall?_of_disabled hoff]

theorem Move.withoutCalls {a : Act} (hoff : e.config.webhooksEnabled = false) (hm : Move e u a w)
    (h : u.WithoutCalls) : w.WithoutCalls := by
  cases hm with
  | enter actor args ds =>
    rw [after_enter]
    exact ⟨fun t ht => (List.mem_append.1 ht).elim (h.tasks t) fun ht => ⟨_, (of_mem_tailTask ht).2⟩, h.history⟩
  | @directive before later inv due d ds htasks hdue hran =>
    let v : World σ := { u with tasks := before ++ later }
    have hstill := (Still.frame e inv).execute_of_disabled hoff d v
    obtain ⟨new, hnew, hperforms⟩ := (NotesOnly.frame e inv id).execute_of_disabled hoff d v
    rw [after_advance]
    constructor
    · intro t ht
      rw [hstill.tasks] at ht
      rcases List.mem_append.1 ht with ht | ht
      · refine h.tasks t ?_
        rw [htasks]
        exact (List.mem_append.1 ht).elim (fun ht => by simp [ht]) (fun ht => by simp [ht])
      · exact ⟨_, (of_mem_tailTask ht).2⟩
    · intro t id request hmem
      rw [hnew] at hmem
      rcases List.mem_append.1 hmem with hmem | hmem
      · cases hperforms _ hmem with
        | notes h => cases h
      · exact h.history t id request hmem
  | @panicked before later inv due d ds htasks hdue hpanics =>
    obtain ⟨new, hnew, hnotes⟩ := notesOnly_of_panics hpanics
    constructor
    · intro t ht
      rw [(execute_still_of_panics hpanics).tasks] at ht
      refine h.tasks t ?_
      rw [htasks]
      exact (List.mem_append.1 ht).elim (fun ht => by simp [ht]) (fun ht => by simp [ht])
    · intro t id request hmem
      rw [hnew] at hmem
      rcases List.mem_append.1 hmem with hmem | hmem
      · cases hnotes _ hmem with
        | notes h => cases h
      · exact h.history t id request hmem
  | call htasks hdue =>
    -- there is no task of this kind
    obtain ⟨ds, hds⟩ := h.tasks _ (by rw [htasks]; exact List.mem_append_right _ List.mem_cons_self)
    cases hds
  | response htasks hdue =>
    obtain ⟨ds, hds⟩ := h.tasks _ (by rw [htasks]; exact List.mem_append_right _ List.mem_cons_self)
    cases hds
  | denied actor => exact ⟨h.tasks, fun t id request hmem => (List.mem_cons.1 hmem).elim nofun (h.history t id request)⟩
  | outside => exact ⟨h.tasks, h.history⟩
  | clock => exact ⟨h.tasks, h.history⟩

theorem Session.withoutCalls (hoff : e.config.webhooksEnabled = false) (h : Session e w) : w.WithoutCalls := by
  obtain ⟨host, store, log, hlog⟩ := h.trail.2
  clear h
  induction hlog with
  | nil => exact ⟨by simp, by simp⟩
  | snoc _ hm ih => exact hm.withoutCalls hoff ih

/-- In a session, no command is run while host commands are off, and no call is made while webhooks are off. -/
theorem capability_gates (h : Session e w) :
    (e.config.hostCommandsEnabled = false → ∀ t command, (t, .process command) ∉ w.history) ∧
      (e.config.webhooksEnabled = false → ∀ t id request, (t, .webhook id request) ∉ w.history) := by
  refine ⟨fun hoff t command hmem => ?_, fun hoff => (h.withoutCalls hoff).history⟩
  cases h.happens _ hmem with
  | performs h =>
    cases h with
    | notes h =>
      cases h with
      | process hon _ => simp [hoff] at hon

/-- Host commands and webhooks that are off, with a group in the text of each directive. -/
theorem capability_gates_default :
    let e : Engine Script := { host := Script.host, config := {} }
    let w : World Script := { host := { files := ⟨[], [], []⟩ } }
    let u := after (e.invoke 0 .console [] ["$date", "say &(date)", "%http://h/&(date)"]) w
    (∀ t command, (t, .process command) ∉ u.history) ∧ ∀ t id request, (t, .webhook id request) ∉ u.history := by
  intro e w u
  have h : Session e u := .invoke (.start _ _) 0 .console [] ["$date", "say &(date)", "%http://h/&(date)"]
  exact ⟨(capability_gates h).1 rfl, (capability_gates h).2 rfl⟩

/-! ### What a template asks the host for -/

def Piece.inner? : Piece → Option Text
  | .plain _ => none
  | .token inner => some inner

/-- The events of the tokens among the pieces of a text. -/
def tokenEvents (event? : Text → Option Event) (ps : List Piece) : List Event :=
  ps.filterMap fun p => p.inner?.bind event?

def readEvent? (inner : Text) : Option Event :=
  if inner.isEmpty then none else some (.read (splitReadToken inner).1 (splitReadToken inner).2)

def writeEvent? (inner : Text) : Option Event :=
  (FileWrite.ofToken? inner).map fun file => .write file.path file.key file.value

def commandEvent? (command : Text) : Option Event :=
  some (.process command)

/-- What resolving a template asks the host for: the files of its read tokens, then those of its write tokens, and then
its commands if these are on.  The tokens of each kind are looked for in what the earlier passes make of the text. -/
def Engine.requests (e : Engine σ) (actor : Actor) (args : List Text) (t : Text) (w : World σ) : List Event :=
  let reads := markedPieces readMark (e.expand w actor args t)
  let reading := renderPieces e.readToken reads
  let writes := markedPieces writeMark (value reading w)
  let writing := renderPieces e.writeToken writes
  let commands := groupPieces (value writing (after reading w))
  tokenEvents readEvent? reads ++ tokenEvents writeEvent? writes ++
    if e.config.hostCommandsEnabled then tokenEvents commandEvent? commands else []

def Event.isRead : Event → Bool
  | .read .. => true
  | _ => false

/-- A host that files can be read from without changing it. -/
def Host.ReadsPurely (h : Host σ) : Prop :=
  ∀ path key s, (h.read path key s).2 = s

/-- A run that notes just these events, and does nothing else. -/
structure Run.Asks (e : Engine σ) (m : Run σ Text) (events : List Event) (w : World σ) : Prop where
  history : (after m w).history = (events.map fun ev => (w.now, ev)).reverse ++ w.history
  now : (after m w).now = w.now
  host : e.host.ReadsPurely → (∀ ev ∈ events, ev.isRead) → (after m w).host = w.host
  still : events = [] → after m w = w

namespace Run.Asks

theorem pure (t : Text) (w : World σ) : Asks e (Pure.pure t) [] w :=
  ⟨rfl, rfl, fun _ _ => rfl, fun _ => rfl⟩

/-- One event, and an answer of the host by which nothing more is done. -/
theorem effect {α : Type} {m : Run σ α} {event : Event} {act : σ → α × σ} (hm : m.Requests event act)
    {f : α → Run σ Text} (hf : ∀ a v, after (f a) v = v) (hact : e.host.ReadsPurely → event.isRead → ∀ s, (act s).2 = s) :
    Asks e (m >>= f) [event] w := by
  have hw : after (m >>= f) w = { w with history := (w.now, event) :: w.history, host := (act w.host).2 } :=
    congrArg Prod.snd (hm.run_bind hf)
  refine ⟨by rw [hw]; rfl, by rw [hw], fun hread hevent => ?_, by simp⟩
  rw [hw]
  exact hact hread (hevent event List.mem_cons_self) w.host

theorem bind {m : Run σ Text} {f : Text → Run σ Text} {events events' : List Event} (hm : Asks e m events w)
    (hf : Asks e (f (value m w)) events' (after m w)) : Asks e (m >>= f) (events ++ events') w := by
  refine ⟨?_, hf.now.trans hm.now, fun hread hevents => ?_, fun hnil => ?_⟩
  · rw [after_bind, hf.history, hm.history, hm.now, List.map_append, List.reverse_append, List.append_assoc]
  · rw [after_bind, hf.host hread fun ev hev => hevents ev (List.mem_append_right _ hev),
      hm.host hread fun ev hev => hevents ev (List.mem_append_left _ hev)]
  · obtain ⟨hnil, hnil'⟩ := List.append_eq_nil_iff.1 hnil
    rw [after_bind, hf.still hnil', hm.still hnil]

theorem renderPieces {f : Text → Run σ Text} {event? : Text → Option Event}
    (hf : ∀ inner w, Asks e (f inner) (event? inner).toList w) (ps : List Piece) (w : World σ) :
    Asks e (DirectiveEngine.renderPieces f ps) (tokenEvents event? ps) w := by
  induction ps generalizing w with
  | nil => exact pure [] w
  | cons p ps ih =>
    cases p with
    | plain t =>
      have h := (ih w).bind (f := fun rest => Pure.pure (t ++ rest)) (pure _ _)
      rwa [List.append_nil] at h
    | token inner =>
      have hrest := ih (after (f inner) w)
      have h := (hf inner w).bind
        (f := fun value => do return value ++ (← DirectiveEngine.renderPieces f ps)) (hrest.bind (pure _ _))
      rw [List.append_nil] at h
      have hevents : tokenEvents event? (.token inner :: ps) = (event? inner).toList ++ tokenEvents event? ps := by
        unfold tokenEvents
        rw [List.filterMap_cons]
        simp only [Piece.inner?, Option.bind_some]
        cases event? inner <;> rfl
      rw [hevents]
      exact h

end Run.Asks

namespace Engine

private theorem asks_readToken (e : Engine σ) (inner : Text) (w : World σ) :
    Run.Asks e (e.readToken inner) (readEvent? inner).toList w := by
  unfold readToken readEvent?
  split
  · exact .pure _ w
  · exact .effect (e.requests_read _ _) (fun r _ => by cases r <;> rfl) fun hread _ => hread _ _

private theorem asks_writeToken (e : Engine σ) (inner : Text) (w : World σ) :
    Run.Asks e (e.writeToken inner) (writeEvent? inner).toList w := by
  unfold writeToken writeEvent?
  cases FileWrite.ofToken? inner with
  | none => exact .pure [] w
  | some file => exact .effect (e.requests_write file) (fun _ _ => rfl) nofun

private theorem asks_commandToken (e : Engine σ) (command : Text) (w : World σ) :
    Run.Asks e (e.commandToken command) (commandEvent? command).toList w :=
  .effect (e.requests_run _) (fun r _ => by cases r <;> rfl) nofun

/-- Resolving a template asks the host for what its tokens say, and does nothing else. -/
theorem asks_resolve (e : Engine σ) (actor : Actor) (args : List Text) (t : Text) (w : World σ) :
    Run.Asks e (e.resolve actor args t) (e.requests actor args t w) w := by
  have hact : Run.Asks e (e.act (e.expand w actor args t)) (e.requests actor args t w) w := by
    unfold requests
    rw [List.append_assoc]
    refine .bind (.renderPieces (asks_readToken e) _ w) (.bind (.renderPieces (asks_writeToken e) _ _) ?_)
    split
    · exact .renderPieces (asks_commandToken e) _ _
    · exact .pure _ _
  exact ⟨after_resolve e actor args t w ▸ hact.history, after_resolve e actor args t w ▸ hact.now,
    after_resolve e actor args t w ▸ hact.host, after_resolve e actor args t w ▸ hact.still⟩

end Engine

/-! ### Directives whose capability is off -/

/-- The capability that a directive is for is off. -/
def Engine.isDisabled (e : Engine σ) (d : Directive) : Bool :=
  match d.kind with
  | .hostCall _ => !e.config.hostCommandsEnabled
  | .webhook _ => !e.config.webhooksEnabled
  | _ => false

/-- The text of a host call or a webhook that is resolved before the capability is tested. -/
def Directive.probe? (d : Directive) : Option Text :=
  match d.kind with
  | .hostCall _ => some d.body
  | .webhook spec => spec.map WebhookSpec.url
  | _ => none

/-- What the host is asked for before a capability is tested. -/
def Engine.probed (e : Engine σ) (inv : Invocation) (d : Directive) (w : World σ) : List Event :=
  match d.probe? with
  | some t => e.requests inv.actor inv.args t w
  | none => []

theorem Engine.after_perform_of_disabled {e : Engine σ} (inv : Invocation) {d : Directive} (hd : e.isDisabled d)
    (w : World σ) :
    after (e.perform inv d) w =
      match d.probe? with
      | some t => after (e.resolveFor inv t) w
      | none => w := by
  unfold isDisabled at hd
  unfold Engine.perform Directive.probe?
  cases hkind : d.kind with
  | hostCall capture =>
    have hoff : e.config.hostCommandsEnabled = false := by simpa [hkind] using hd
    simp only [Engine.executeHostCall]
    rw [Run.after_bind, hoff]
    rfl
  | webhook spec =>
    have hoff : e.config.webhooksEnabled = false := by simpa [hkind] using hd
    cases spec with
    | none => rfl
    | some spec =>
      simp only [Option.map_some, e.after_executeWebhook]
      rw [hoff]
      rfl
  | command => simp [hkind] at hd
  | message => simp [hkind] at hd
  | loop => simp [hkind] at hd
  | assignment => simp [hkind] at hd

/-- Nothing but the host and the history differs. -/
structure HostOnly (u w : World σ) : Prop extends Still u w where
  store : w.store = u.store

theorem HostOnly.lookups (e : Engine σ) : Lookups e HostOnly where
  refl _ := ⟨⟨rfl, rfl, rfl⟩, rfl⟩
  trans h h' :=
    ⟨⟨h'.now.trans h.now, h'.tasks.trans h.tasks, h'.invocations.trans h.invocations⟩, h'.store.trans h.store⟩
  read _ _ _ := ⟨⟨rfl, rfl, rfl⟩, rfl⟩
  write _ _ := ⟨⟨rfl, rfl, rfl⟩, rfl⟩
  run _ _ _ := ⟨⟨rfl, rfl, rfl⟩, rfl⟩

/-- What a template asks for is to read and to write files, and to run commands if these are on. -/
theorem Engine.request_cases (e : Engine σ) (actor : Actor) (args : List Text) (t : Text) (w : World σ) :
    ∀ ev ∈ e.requests actor args t w, (∃ path key, ev = .read path key) ∨ (∃ path key v, ev = .write path key v) ∨
      e.config.hostCommandsEnabled ∧ ∃ command, ev = .process command := by
  have htoken {event? : Text → Option Event} {ps : List Piece} {ev : Event} (h : ev ∈ tokenEvents event? ps) :
      ∃ inner, event? inner = some ev := by
    obtain ⟨p, -, hp⟩ := List.mem_filterMap.1 h
    obtain ⟨inner, -, hinner⟩ := Option.bind_eq_some_iff.1 hp
    exact ⟨inner, hinner⟩
  intro ev hev
  unfold requests at hev
  rcases List.mem_append.1 hev with hev | hev
  · rcases List.mem_append.1 hev with hev | hev
    · obtain ⟨inner, hinner⟩ := htoken hev
      unfold readEvent? at hinner
      split at hinner
      · simp at hinner
      · exact .inl ⟨_, _, (Option.some.inj hinner).symm⟩
    · obtain ⟨inner, hinner⟩ := htoken hev
      obtain ⟨file, -, hfile⟩ := Option.map_eq_some_iff.1 hinner
      exact .inr (.inl ⟨_, _, _, hfile.symm⟩)
  · split at hev
    · obtain ⟨inner, hinner⟩ := htoken hev
      exact .inr (.inr ⟨‹_›, _, (Option.some.inj hinner).symm⟩)
    · simp at hev

/-- What a directive does whose capability is off: if its gate is passed, the text that is resolved before the test asks
the host for files, and for commands if only webhooks are off.  Nothing is told, dispatched, captured or called.  So it
does nothing just if nothing is asked for, and leaves the host alone if only files are read. -/
theorem disabled_effects (e : Engine σ) (inv : Invocation) {d : Directive} (hd : e.isDisabled d) (w : World σ) :
    let v := after (Run.note (.directive inv.id d)) w
    let u := after (e.execute inv d) w
    let asked := if e.passes v inv.actor d.gate then e.probed inv d v else []
    HostOnly w u ∧ u.history = (asked.map fun ev => (w.now, ev)).reverse ++ v.history ∧
      (∀ ev ∈ asked, (∃ path key, ev = .read path key) ∨ (∃ path key value, ev = .write path key value) ∨
        e.config.hostCommandsEnabled ∧ (∃ spec, d.kind = .webhook spec) ∧ ∃ command, ev = .process command) ∧
      (u = v ↔ asked = []) ∧
      (e.host.ReadsPurely → (∀ ev ∈ asked, ev.isRead) → u.host = w.host) := by
  intro v u asked
  have hv : HostOnly w v := ⟨⟨rfl, rfl, rfl⟩, rfl⟩
  -- a run that asks for these events and changes nothing else
  suffices h : HostOnly v u ∧ u.history = (asked.map fun ev => (w.now, ev)).reverse ++ v.history ∧
      (e.host.ReadsPurely → (∀ ev ∈ asked, ev.isRead) → u.host = w.host) ∧ (asked = [] → u = v) ∧
      (∀ ev ∈ asked, (∃ path key, ev = .read path key) ∨ (∃ path key value, ev = .write path key value) ∨
        e.config.hostCommandsEnabled ∧ ∃ command, ev = .process command) by
    obtain ⟨honly, hhistory, hhost, hstill, hcases⟩ := h
    refine ⟨(HostOnly.lookups e).trans hv honly, hhistory, fun ev hev => ?_, ⟨fun heq => ?_, hstill⟩, hhost⟩
    · rcases hcases ev hev with hread | hwrite | ⟨hon, hprocess⟩
      · exact .inl hread
      · exact .inr (.inl hwrite)
      · refine .inr (.inr ⟨hon, ?_, hprocess⟩)
        -- host commands are on, so webhooks are what is off
        unfold Engine.isDisabled at hd
        split at hd
        · simp [hon] at hd
        · exact ⟨_, ‹_›⟩
        · simp at hd
    · rw [heq] at hhistory
      simpa using List.self_eq_append_left.1 hhistory
  by_cases hpass : e.passes v inv.actor d.gate
  · have hu : u = after (e.perform inv d) v := by
      show after (e.execute inv d) w = _
      rw [e.after_execute, if_pos hpass]
    have hasked : asked = e.probed inv d v := if_pos hpass
    rw [hu, hasked, Engine.after_perform_of_disabled inv hd, Engine.probed]
    cases d.probe? with
    | none => exact ⟨(HostOnly.lookups e).refl v, rfl, fun _ _ => rfl, fun _ => rfl, by simp⟩
    | some t =>
      have h := e.asks_resolve inv.actor inv.args t v
      exact ⟨((HostOnly.lookups e).resolveFor inv t).after v, h.history, h.host, h.still,
        e.request_cases inv.actor inv.args t v⟩
  · have hu : u = v := by
      show after (e.execute inv d) w = _
      rw [e.after_execute, if_neg hpass]
      rfl
    have hasked : asked = [] := if_neg hpass
    rw [hu, hasked]
    exact ⟨(HostOnly.lookups e).refl v, rfl, fun _ _ => rfl, fun _ => rfl, by simp⟩

/-- A host call with a write token. -/
theorem disabled_effects_log :
    let e : Engine Script := { host := Script.host, config := {} }
    let w : World Script := { host := { files := ⟨[], [], []⟩ } }
    let d := Directive.parse "$echo hi ;;log.txt::x"
    let u := after (e.execute ⟨0, .console, []⟩ d) w
    u.store = w.store ∧ u.history = [(0, .write "log.txt" none "x"), (0, .directive 0 d)] := by
  intro e w d u
  have hd : e.isDisabled d := by decide +kernel
  have hpass : e.passes (after (Run.note (.directive 0 d)) w) .console d.gate = true := by decide +kernel
  have hasked : e.probed ⟨0, .console, []⟩ d (after (Run.note (.directive 0 d)) w) =
      [.write "log.txt" none "x"] := by decide +kernel
  obtain ⟨honly, hhistory, -⟩ := disabled_effects e ⟨0, .console, []⟩ hd w
  rw [if_pos hpass, hasked] at hhistory
  exact ⟨honly.store, hhistory⟩

/-- With everything off a host call makes a file, and with webhooks off alone a webhook runs a command. -/
theorem disabled_writes :
    let w : World Script := { host := { files := ⟨[], [], []⟩ } }
    (let e : Engine Script := { host := Script.host, config := {} }
      let d := Directive.parse "$echo hi ;;log.txt::x"
      e.isDisabled d ∧ (after (e.execute ⟨0, .console, []⟩ d) w).host.files.tree.get? ["log.txt"] ≠
        w.host.files.tree.get? ["log.txt"]) ∧
      (let e : Engine Script := { host := Script.host, config := { hostCommandsEnabled := true } }
        let d := Directive.parse "%http://h/&(date)"
        e.isDisabled d ∧ (0, .process "date") ∈ (after (e.execute ⟨0, .console, []⟩ d) w).history) := by
  decide +kernel

end DirectiveEngine
