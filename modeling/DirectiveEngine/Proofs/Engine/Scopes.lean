import DirectiveEngine.Host.Scripted
import DirectiveEngine.Proofs.Engine.Trail
import DirectiveEngine.Proofs.Store

/-!
# Scopes that do not interfere

All that an engine sets it notes, so a store is what the noted writes make of an earlier one (`Wrote`).  A directive and
the end of a call write one variable at most, in the scope of their invocation's actor (`wroteOnce_execute`,
`wroteOnce_finishCall`), and so does every move (`Move.wrote`).  A scope is therefore made by the writes of its own
actor alone (`Store.scope_foldl_put`), and nobody sees whether the moves of a player were made at all
(`scopes_isolated`).
-/

namespace DirectiveEngine

variable {σ : Type} {e : Engine σ} {inv : Invocation} {u v w : World σ} {actor : Actor}

open Run (Keeps after value)

/-! ### Writes -/

/-- A variable that is set in the scope of an actor. -/
structure Write where
  actor : Actor
  key : Text
  value : Text
  deriving DecidableEq

def Event.write? : Event → Option Write
  | .assign actor key value => some ⟨actor, key, value⟩
  | _ => none

namespace Store

def put (s : Store) (x : Write) : Store :=
  s.set x.actor x.key x.value

/-- A scope is made by the writes of its actor. -/
theorem scope_foldl_put (ws : List Write) (s : Store) (actor : Actor) :
    (ws.foldl put s).scope actor = (ws.filter fun x => x.actor = actor).foldl
      (fun (d : Scope) x => Dictionary.insert x.key.lower x.value d) (s.scope actor) := by
  induction ws generalizing s with
  | nil => rfl
  | cons x ws ih =>
    rw [List.foldl_cons, ih, put, scope_set]
    by_cases h : x.actor = actor
    · simp [h]
    · simp [h, Ne.symm h]

end Store

/-- The variables that were set are those noted, in this order. -/
structure Wrote (ws : List Write) (u w : World σ) : Prop where
  history : ∃ evs : List (Nat × Event), w.history = evs.reverse ++ u.history ∧
    evs.filterMap (fun x => x.2.write?) = ws
  store : w.store = ws.foldl Store.put u.store

theorem Wrote.trans {ws ws' : List Write} (h : Wrote ws u v) (h' : Wrote ws' v w) : Wrote (ws ++ ws') u w := by
  obtain ⟨evs, hevs, rfl⟩ := h.history
  obtain ⟨evs', hevs', rfl⟩ := h'.history
  refine ⟨⟨evs ++ evs', ?_, List.filterMap_append⟩, ?_⟩
  · rw [hevs', hevs, List.reverse_append, List.append_assoc]
  · rw [h'.store, h.store, List.foldl_append]

theorem Wrote.of_eq (hhistory : w.history = u.history) (hstore : w.store = u.store) : Wrote [] u w :=
  ⟨⟨[], hhistory, rfl⟩, hstore⟩

theorem Wrote.of_cons {t : Nat} {ev : Event} (hev : ev.write? = none) (hhistory : w.history = (t, ev) :: u.history)
    (hstore : w.store = u.store) : Wrote [] u w :=
  ⟨⟨[(t, ev)], hhistory, by simp [hev]⟩, hstore⟩

theorem wrote_note (e : Engine σ) {ev : Event} (hev : ev.write? = none) : Keeps e (Wrote []) (Run.note ev : Run σ Unit) :=
  .modifyGet fun _ => .of_cons hev rfl rfl

theorem wrote_dispatching (e : Engine σ) : Dispatching e (Wrote []) where
  refl _ := .of_eq rfl rfl
  trans := .trans
  read _ _ _ := .of_cons rfl rfl rfl
  write _ _ := .of_cons rfl rfl rfl
  run _ _ _ := .of_cons rfl rfl rfl
  send _ _ _ := .of_cons rfl rfl rfl
  dispatchLine _ _ _ _ _ := .of_cons rfl rfl rfl

/-! ### One variable at most -/

/-- One variable was set at most, in the scope of an actor. -/
def WroteOnce (actor : Actor) (u w : World σ) : Prop :=
  ∃ ws, Wrote ws u w ∧ ws.length ≤ 1 ∧ ∀ x ∈ ws, x.actor = actor

namespace WroteOnce

theorem of_wrote (h : Wrote [] u w) : WroteOnce actor u w :=
  ⟨[], h, by simp, by simp⟩

theorem after_wrote (h : Wrote [] u v) (h' : WroteOnce actor v w) : WroteOnce actor u w := by
  obtain ⟨ws, hws, hone⟩ := h'
  exact ⟨ws, h.trans hws, hone⟩

theorem before_wrote (h : WroteOnce actor u v) (h' : Wrote [] v w) : WroteOnce actor u w := by
  obtain ⟨ws, hws, hone⟩ := h
  exact ⟨ws, by simpa using hws.trans h', hone⟩

end WroteOnce

/-- A run sets one variable at most, in the scope of an actor. -/
def SetsOnce {α : Type} (actor : Actor) (m : Run σ α) : Prop :=
  ∀ w, WroteOnce actor w (after m w)

namespace SetsOnce

theorem of_wrote {α : Type} {m : Run σ α} (hm : Keeps e (Wrote []) m) : SetsOnce actor m :=
  fun w => WroteOnce.of_wrote (hm.after w)

/-- What sets no variable may go before. -/
theorem bind {α β : Type} {m : Run σ α} {f : α → Run σ β} (hm : Keeps e (Wrote []) m)
    (hf : ∀ a, SetsOnce actor (f a)) : SetsOnce actor (m >>= f) :=
  fun w => .after_wrote (hm.after w) (hf _ _)

/-- A variable may be set if nothing behind sets another. -/
theorem assign {key value : Text} {m : Run σ Unit} (hm : Keeps e (Wrote []) m) :
    SetsOnce actor (do Run.assign actor key value; m) := by
  intro w
  refine .before_wrote ⟨[⟨actor, key, value⟩], ⟨⟨[_], rfl, rfl⟩, rfl⟩, ?_, ?_⟩ (hm.after _)
  · simp
  · simp

end SetsOnce

private theorem told (e : Engine σ) (c : Prop) [Decidable c] (actor : Actor) (t : Text) (color : Color) :
    Keeps e (Wrote []) (if c then e.tell actor t color else pure ()) :=
  (wrote_dispatching e).guarded ((wrote_dispatching e).tell actor t color)

theorem wroteOnce_executeAssignment (e : Engine σ) (inv : Invocation) (spec : AssignmentSpec) :
    SetsOnce inv.actor (e.executeAssignment inv spec) := by
  have h := wrote_dispatching e
  exact .bind (h.resolveFor _ _) fun _ => .bind (h.resolveFor _ _) fun _ => .assign (told e _ _ _ _)

theorem wroteOnce_finishHostCall (e : Engine σ) (inv : Invocation) (quiet : Bool) (capture : Option Text)
    (r : Except HostError ProcessOutput) : SetsOnce inv.actor (e.finishHostCall inv quiet capture r) := by
  have h := wrote_dispatching e
  cases r with
  | error fault => exact .of_wrote (told e _ _ _ _)
  | ok o =>
    unfold Engine.finishHostCall
    simp only
    split
    · exact .of_wrote (h.guarded (h.bind (h.tell _ _ _) fun _ => told e _ _ _ _))
    · cases capture with
      | some name => exact .assign (told e _ _ _ _)
      | none =>
        refine .of_wrote (h.guarded ?_)
        split
        · exact h.tell _ _ _
        · exact h.forIn (fun _ => h.tell _ _ _) _

theorem wroteOnce_executeHostCall (e : Engine σ) (inv : Invocation) (d : Directive) (capture : Option Text) :
    SetsOnce inv.actor (e.executeHostCall inv d capture) := by
  have h := wrote_dispatching e
  refine .bind (h.resolveFor _ _) fun command => ?_
  by_cases he : e.config.hostCommandsEnabled
  · simp only [he, if_true]
    exact .bind (h.resolveCapture _ _) fun _ => .bind (h.keeps_run he _) fun _ => wroteOnce_finishHostCall e inv _ _ _
  · simp only [he]
    exact .of_wrote (h.pure ())

/-- The end of a call sets one variable at most. -/
theorem wroteOnce_finishCall (e : Engine σ) (inv : Invocation) (call : Call) (r : Except HostError WebhookResponse) :
    SetsOnce inv.actor (e.finishCall inv call r) := by
  refine .bind (wrote_note e rfl) fun _ => ?_
  cases r with
  | error fault => exact .of_wrote (told e _ _ _ _)
  | ok r =>
    simp only
    split
    · exact .of_wrote (told e _ _ _ _)
    · cases call.capture.filter fun name => !name.isEmpty with
      | some name => exact .assign (told e _ _ _ _)
      | none => exact .of_wrote (told e _ _ _ _)

theorem wroteOnce_executeWebhook (e : Engine σ) (inv : Invocation) (spec : WebhookSpec) :
    SetsOnce inv.actor (e.executeWebhook inv spec) := by
  have h := wrote_dispatching e
  intro w
  rw [e.after_executeWebhook]
  split
  · exact .of_wrote (((h.prepareCall inv spec).after w).trans (.of_eq rfl rfl))
  · exact .of_wrote ((h.resolveFor inv spec.url).after w)

theorem wroteOnce_perform (e : Engine σ) (inv : Invocation) (d : Directive) :
    SetsOnce inv.actor (e.perform inv d) := by
  have h := wrote_dispatching e
  unfold Engine.perform
  cases d.kind with
  | command => exact .of_wrote (h.executeCommand inv d)
  | message spec => exact .of_wrote (h.executeMessage inv spec)
  | hostCall capture => exact wroteOnce_executeHostCall e inv d capture
  | webhook spec =>
    cases spec with
    | none => exact .of_wrote (h.pure ())
    | some spec => exact wroteOnce_executeWebhook e inv spec
  | loop spec =>
    cases spec with
    | none => exact .of_wrote (h.pure ())
    | some spec => exact .of_wrote (h.executeLoop inv d.body spec)
  | assignment spec =>
    cases spec with
    | none => exact .of_wrote (h.pure ())
    | some spec => exact wroteOnce_executeAssignment e inv spec

/-- A directive sets one variable at most, in the scope of its invocation's actor. -/
theorem wroteOnce_execute (e : Engine σ) (inv : Invocation) (d : Directive) :
    SetsOnce inv.actor (e.execute inv d) := by
  intro w
  have hstarted : Wrote [] w (after (Run.note (.directive inv.id d)) w) := (wrote_note e rfl).after w
  rw [e.after_execute]
  refine .after_wrote hstarted ?_
  split
  · exact wroteOnce_perform e inv d _
  · exact .of_wrote ((wrote_dispatching e).refl _)

/-! ### The writes of a move -/

def Act.actor? (a : Act) : Option Actor :=
  a.invocation?.map Invocation.actor

/-- Whoever acts from outside leaves the variables alone. -/
def Entry.LeavesStore (x : Entry σ) : Prop :=
  x.act = .outside → x.behind.store = x.before.store

/-- The variables that are set in an entry, the first thing first. -/
def Entry.writes (x : Entry σ) : List Write :=
  x.events.filterMap fun ev => ev.2.write?

/-- A move sets one variable at most, and that in the scope of its actor. -/
theorem Move.wrote {a : Act} (h : Move e u a w) (houtside : (⟨u, a, w⟩ : Entry σ).LeavesStore) :
    ∃ ws, Wrote ws u w ∧ ws.length ≤ 1 ∧ ∀ x ∈ ws, a.actor? = some x.actor := by
  have hnone (h : Wrote [] u w) : ∃ ws, Wrote ws u w ∧ ws.length ≤ 1 ∧ ∀ x ∈ ws, a.actor? = some x.actor :=
    ⟨[], h, by simp, by simp⟩
  have hone {inv : Invocation} (ha : a.invocation? = some inv) (h : WroteOnce inv.actor u w) :
      ∃ ws, Wrote ws u w ∧ ws.length ≤ 1 ∧ ∀ x ∈ ws, a.actor? = some x.actor := by
    obtain ⟨ws, hws, hlength, hactor⟩ := h
    exact ⟨ws, hws, hlength, fun x hx => by rw [Act.actor?, ha, hactor x hx]; rfl⟩
  have htaken (ts : List Task) : Wrote [] u { u with tasks := ts } := .of_eq rfl rfl
  cases h with
  | enter actor args ds => exact hnone (by rw [after_enter]; exact .of_eq rfl rfl)
  | @directive before later inv due d ds htasks hdue hran =>
    refine hone rfl ?_
    rw [after_advance]
    exact .after_wrote (htaken _) (.before_wrote (wroteOnce_execute e inv d _) (.of_eq rfl rfl))
  | @panicked before later inv due d ds htasks hdue hpanics =>
    have hbefore := (wrote_dispatching e).before_execute (fun d => (wrote_note e rfl).after) d _ hpanics
    exact hnone ((htaken _).trans hbefore)
  | @call before later inv due call htasks hdue =>
    refine hone rfl ?_
    rw [after_runTask_call e inv call (w := { u with tasks := before ++ later }) hdue]
    have hcalled : Wrote [] u (after (e.call inv.id call.request) { u with tasks := before ++ later }) :=
      (htaken _).trans (.of_cons rfl rfl rfl)
    split
    · exact .after_wrote hcalled (wroteOnce_finishCall e inv call _ _)
    · exact .of_wrote (hcalled.trans (.of_eq rfl rfl))
  | @response before later inv due call result htasks hdue =>
    refine hone rfl ?_
    rw [after_runTask_response e inv call result (w := { u with tasks := before ++ later }) hdue]
    exact .after_wrote (htaken _) (wroteOnce_finishCall e inv call result _)
  | denied actor => exact hnone (((wrote_dispatching e).tell actor _ _).after u)
  | outside host store => exact hnone (.of_eq rfl (houtside rfl))
  | clock hnow => exact hnone (.of_eq rfl rfl)

theorem Wrote.writes {ws : List Write} {a : Act} (h : Wrote ws u w) : (⟨u, a, w⟩ : Entry σ).writes = ws := by
  obtain ⟨evs, hevs, rfl⟩ := h.history
  have hevents : (⟨u, a, w⟩ : Entry σ).events = evs := Entry.events_eq hevs
  rw [Entry.writes, hevents]

/-- What is known of the writes of a move. -/
structure Entry.Confined (x : Entry σ) : Prop where
  store : x.behind.store = x.writes.foldl Store.put x.before.store
  single : x.writes.length ≤ 1
  actor : ∀ y ∈ x.writes, x.act.actor? = some y.actor

theorem Move.confined {a : Act} (h : Move e u a w) (houtside : (⟨u, a, w⟩ : Entry σ).LeavesStore) :
    (⟨u, a, w⟩ : Entry σ).Confined := by
  obtain ⟨ws, hws, hlength, hactor⟩ := h.wrote houtside
  have hwrites : (⟨u, a, w⟩ : Entry σ).writes = ws := hws.writes
  exact ⟨by rw [hwrites]; exact hws.store, by rwa [hwrites], by rwa [hwrites]⟩

/-- One variable of one scope may differ behind an entry. -/
theorem Entry.Confined.scope {x : Entry σ} (h : x.Confined) :
    ∃ key, ∀ actor name, x.act.actor? ≠ some actor ∨ name ≠ key →
      (x.behind.store.scope actor).get? name = (x.before.store.scope actor).get? name := by
  rw [h.store]
  match hwrites : x.writes, h.single with
  | [], _ => exact ⟨[], fun _ _ _ => rfl⟩
  | [y], _ =>
    refine ⟨y.key.lower, fun actor name hother => ?_⟩
    rw [List.foldl_cons, List.foldl_nil, Store.put, Store.scope_set]
    by_cases hactor : actor = y.actor
    · -- the scope is the actor's own, so the name is another one
      have hname : name ≠ y.key.lower :=
        hother.resolve_left fun hne => hne (by rw [hactor]; exact h.actor y (by simp [hwrites]))
      rw [if_pos hactor, Dictionary.get?_insert, if_neg hname, hactor]
    · rw [if_neg hactor]

/-! ### Trails -/

/-- Whether an entry is in the name of a player. -/
def Entry.isBy (id : ActorId) (x : Entry σ) : Bool :=
  x.act.actor? = some (.player id)

namespace Trail

variable {log : List (Entry σ)} (h : Trail e u log w) (houtside : ∀ x ∈ log, x.LeavesStore)
include h houtside

theorem confined : ∀ x ∈ log, x.Confined := by
  intro x hx
  obtain ⟨_, -, hm⟩ := h.entry hx
  exact hm.confined (houtside x hx)

/-- The variables at the end of a trail are those that its entries set. -/
theorem store : w.store = (log.flatMap Entry.writes).foldl Store.put u.store := by
  induction h with
  | nil => rfl
  | @snoc log v w a _ hm ih =>
    have hlast := hm.confined (houtside _ (by simp))
    rw [List.flatMap_append, List.flatMap_singleton, List.foldl_append,
      ← ih fun x hx => houtside x (List.mem_append_left _ hx)]
    exact hlast.store

end Trail

/-- Of what others than a player set, nothing gets lost with the entries of that player. -/
private theorem filter_writes {log : List (Entry σ)} (h : ∀ x ∈ log, x.Confined) {id : ActorId}
    (hactor : actor ≠ .player id) :
    ((log.filter fun x => !x.isBy id).flatMap Entry.writes).filter (fun y => y.actor = actor) =
      (log.flatMap Entry.writes).filter fun y => y.actor = actor := by
  induction log with
  | nil => rfl
  | cons x log ih =>
    have ih := ih fun y hy => h y (List.mem_cons_of_mem _ hy)
    cases hx : x.isBy id with
    | false => simp [hx, List.filter_append, ih]
    | true =>
      have hnone : x.writes.filter (fun y => y.actor = actor) = [] := by
        refine List.filter_eq_nil_iff.2 fun y hy => ?_
        have hplayer : x.act.actor? = some (.player id) := of_decide_eq_true hx
        rw [(h x (by simp)).actor y hy] at hplayer
        simpa [Option.some.inj hplayer] using hactor.symm
      simp [hx, List.filter_append, ih, hnone]

/-- However invocations interleave: an entry changes one variable at most, and that in the scope of its actor.  So
without the entries of a player the writes of the others make the same variables for everybody else, and so does any
other run that starts with these and in which the others write the same values. -/
theorem scopes_isolated {log : List (Entry σ)} (h : Trail e u log w) (houtside : ∀ x ∈ log, x.LeavesStore) :
    (∀ x ∈ log, ∃ key, ∀ actor name, x.act.actor? ≠ some actor ∨ name ≠ key →
      (x.behind.store.scope actor).get? name = (x.before.store.scope actor).get? name) ∧
    ∀ (id : ActorId) (actor : Actor), actor ≠ .player id →
      let others := (log.filter fun x => !x.isBy id).flatMap Entry.writes
      Store.ReadsAlike actor (others.foldl Store.put u.store) w.store ∧
      ∀ {τ : Type} {e' : Engine τ} {u' w' : World τ} {log' : List (Entry τ)}, Trail e' u' log' w' →
        (∀ x ∈ log', x.LeavesStore) → (∀ b, b ≠ .player id → u'.store.scope b = u.store.scope b) →
        log'.flatMap Entry.writes = others → Store.ReadsAlike actor w'.store w.store := by
  refine ⟨fun x hx => (h.confined houtside x hx).scope, ?_⟩
  intro id actor hactor others
  -- whatever starts like the first run and then makes the writes of the others ends like it
  have hscope {s : Store} (hs : ∀ b, b ≠ .player id → s.scope b = u.store.scope b) {b : Actor} (hb : b ≠ .player id) :
      (others.foldl Store.put s).scope b = w.store.scope b := by
    rw [h.store houtside, Store.scope_foldl_put, Store.scope_foldl_put, filter_writes (h.confined houtside) hb, hs b hb]
  have halike {s : Store} (hs : ∀ b, b ≠ .player id → s.scope b = u.store.scope b) :
      Store.ReadsAlike actor (others.foldl Store.put s) w.store :=
    Store.readsAlike_of_scope (hscope hs hactor) (hscope hs (by simp))
  refine ⟨halike fun _ _ => rfl, fun h' houtside' hstart hwrites => ?_⟩
  rw [h'.store houtside', hwrites]
  exact halike hstart

/-- Two players set a variable of one name, and one of them does so alone. -/
theorem scopes_isolated_home :
    let e : Engine Script := { host := Script.host, config := {} }
    let start : World Script := { host := { files := ⟨[], [], []⟩ } }
    let action (value : Text) : Directive := Directive.parse ("+Home:" ++ value)
    let ann := after (e.enter (.player "ann") [] [action "hill"]) start
    let both := after (e.enter (.player "bob") [] [action "mill"]) ann
    let v := after (e.advance ⟨0, .player "ann", []⟩ (action "hill") []) { both with tasks := both.tasks.tail }
    let w := after (e.advance ⟨1, .player "bob", []⟩ (action "mill") []) { v with tasks := [] }
    let bob := after (e.enter (.player "bob") [] [action "mill"]) start
    let alone := after (e.advance ⟨0, .player "bob", []⟩ (action "mill") []) { bob with tasks := [] }
    Store.ReadsAlike (.player "bob") alone.store w.store ∧ w.store.get (.player "bob") "home" = "mill" ∧
      w.store.get (.player "ann") "home" = "hill" := by
  intro e start action ann both v w bob alone
  have hboth : both.tasks = [] ++ ⟨0, ⟨0, .player "ann", []⟩, .tail [(0, action "hill")]⟩ :: both.tasks.tail := rfl
  have hbob : bob.tasks = [] ++ [⟨0, ⟨0, .player "bob", []⟩, .tail [(0, action "mill")]⟩] := rfl
  have hstill := execute_still e ⟨0, .player "ann", []⟩ (action "hill") { both with tasks := both.tasks.tail }
  rw [Engine.startedCall?_of_disabled rfl] at hstill
  have hv : v.tasks = [] ++ [⟨0, ⟨1, .player "bob", []⟩, .tail [(0, action "mill")]⟩] := by
    have hadvance : v.tasks = _ := congrArg World.tasks (after_advance e _ _ [] _)
    rw [hadvance, hstill.tasks]
    rfl
  have hnow : v.now = 0 := hstill.now
  have hw : Trail e start _ w := (((Trail.nil.snoc (.enter (.player "ann") [] [action "hill"])).snoc
    (.enter (.player "bob") [] [action "mill"])).snoc
    (.directive hboth (Nat.le_refl 0) (by decide +kernel) : Move e both _ v)).snoc
    (.directive hv hnow.ge (by decide +kernel))
  have halone : Trail e start _ alone := (Trail.nil.snoc (.enter (.player "bob") [] [action "mill"])).snoc
    (.directive hbob (Nat.le_refl 0) (by decide +kernel))
  have halike := ((scopes_isolated hw (by simp [Entry.LeavesStore])).2 "ann" (.player "bob") (by decide)).2 halone
    (by simp [Entry.LeavesStore]) (fun _ _ => rfl) (by decide +kernel)
  exact ⟨halike, by decide +kernel, by decide +kernel⟩

end DirectiveEngine
