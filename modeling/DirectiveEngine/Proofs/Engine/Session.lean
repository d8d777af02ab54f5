import DirectiveEngine.Proofs.Engine.Waiting

/-!
# Sessions

A session is all that becomes of an engine: callers invoke action lists and bundles, wait and sleep in any order, and
meanwhile any `Move` may happen; so a session has a trail (`Session.trail`).  A relation between worlds that every effect
of an engine keeps is an `EngineFrame`, and holds between the start of a trail on which nothing happens outside and its
end (`EngineFrame.trail`); one of histories (`HistoryFrame`) holds between the start of a session and each of its worlds.
So an invariant is shown effect by effect and never run by run.  In particular every event of a session is of a known kind
(`Session.happens`).
-/

namespace DirectiveEngine

variable {σ : Type} {e : Engine σ} {u v w : World σ}

open Run (Keeps after)

/-- The worlds that calls of an engine and steps between them lead to. -/
inductive Session (e : Engine σ) : World σ → Prop where
  | start (host : σ) (store : Store) : Session e { host, store }
  | invoke {w : World σ} (h : Session e w) (draw : Nat) (actor : Actor) (args actions : List Text) :
      Session e (after (e.invoke draw actor args actions) w)
  | invokeBundle {w : World σ} (h : Session e w) (draw : Nat) (b : Bundle) (actor : Actor) (args : List Text) :
      Session e (after (e.invokeBundle draw b actor args) w)
  | wait {w : World σ} (h : Session e w) (invocation : Nat) : Session e (after (e.wait invocation) w)
  | sleep {w : World σ} (h : Session e w) (ms : Nat) : Session e (after (e.sleep ms) w)
  | move {w u : World σ} {a : Act} (h : Session e w) (hm : Move e w a u) : Session e u

/-- A bundle is denied, has no actions, or is an invocation of its actions. -/
theorem after_invokeBundle (e : Engine σ) (draw : Nat) (b : Bundle) (actor : Actor) (args : List Text) (w : World σ) :
    after (e.invokeBundle draw b actor args) w = after (e.tell actor Engine.permissionDenied .red) w ∨
      after (e.invokeBundle draw b actor args) w = w ∨
      ∃ actions, after (e.invokeBundle draw b actor args) w = after (e.invoke draw actor args actions) w := by
  let actions := b.selectActions args
  let invoked : Run σ (Option (Invocation × Bool)) := do
    return some (← e.invoke draw actor args actions)
  have hrun : after (e.invokeBundle draw b actor args) w =
      after (if (b.permission?.map (e.host.hasPermission w.host actor)).getD true then
          if actions.isEmpty then pure none else invoked
        else do
          e.tell actor Engine.permissionDenied .red
          return none) w := rfl
  rw [hrun]
  split
  · split
    · exact .inr (.inl rfl)
    · exact .inr (.inr ⟨actions, rfl⟩)
  · exact .inl rfl

theorem after_invoke (e : Engine σ) (draw : Nat) (actor : Actor) (args actions : List Text) (w : World σ) :
    after (e.invoke draw actor args actions) w =
      after (e.begin actor args (collapseRandom draw (actions.map Directive.parse))) w := rfl

/-- What an action list does before its invocation returns is a trail from where the invocation entered. -/
theorem invoke_trail (e : Engine σ) (draw : Nat) (actor : Actor) (args actions : List Text) (w : World σ) :
    ∃ log, Trail e (after (e.enter actor args (collapseRandom draw (actions.map Directive.parse))) w) log
      (after (e.invoke draw actor args actions) w) :=
  begin_trail e actor args _ w

/-- Whatever an engine is called for, its session has a trail. -/
theorem Session.trail (h : Session e w) : Orderly w ∧ ∃ host store log, Trail e { host, store } log w := by
  have hgo {u w : World σ} (ih : Orderly u ∧ ∃ host store log, Trail e { host, store } log u)
      (hs : ∃ log, Trail e u log w) : Orderly w ∧ ∃ host store log, Trail e { host, store } log w := by
    obtain ⟨hu, host, store, log, hlog⟩ := ih
    obtain ⟨log', hlog'⟩ := hs
    exact ⟨hlog'.orderly hu, host, store, log ++ log', hlog.trans hlog'⟩
  have hinvoke (draw : Nat) (actor : Actor) (args actions : List Text) (u : World σ) :
      ∃ log, Trail e u log (after (e.invoke draw actor args actions) u) := by
    obtain ⟨log, hlog⟩ := invoke_trail e draw actor args actions u
    exact ⟨_, (Move.enter actor args _).trail.trans hlog⟩
  induction h with
  | start host store => exact ⟨orderly_start host store, host, store, [], .nil⟩
  | invoke _ draw actor args actions ih => exact hgo ih (hinvoke draw actor args actions _)
  | @invokeBundle u _ draw b actor args ih =>
    refine hgo ih ?_
    rcases after_invokeBundle e draw b actor args u with hb | hb | ⟨actions, hb⟩
    · exact ⟨_, hb ▸ (Move.denied actor).trail⟩
    · exact ⟨[], by rw [hb]; exact .nil⟩
    · rw [hb]
      exact hinvoke draw actor args actions u
  | wait _ id ih => exact hgo ih (wait_trail e id ih.1)
  | sleep _ ms ih => exact hgo ih (sleep_trail e ms ih.1)
  | move _ hm ih => exact hgo ih ⟨_, hm.trail⟩

/-! ### Relations between worlds -/

/-- A relation between worlds that is kept by each effect an engine can have, and where host and history stay as they
are. -/
structure EngineFrame (e : Engine σ) (R : World σ → World σ → Prop) : Prop where
  frame : ∀ inv, Frame e inv R
  called : ∀ id request w, R w (after (e.call id request) w)
  completed : ∀ id call w, R w (after (Run.note (.completion id call)) w)
  still : ∀ {u w}, w.history = u.history → w.host = u.host → R u w

namespace EngineFrame

variable {R : World σ → World σ → Prop} (h : EngineFrame e R)
include h

theorem trans (huv : R u v) (hvw : R v w) : R u w :=
  (h.frame ⟨0, .console, []⟩).trans huv hvw

theorem advance (inv : Invocation) (d : Directive) (ds : List (Nat × Directive)) (w : World σ) :
    R w (after (e.advance inv d ds) w) := by
  have hexecuted : R w (after (e.execute inv d) w) := by
    obtain ⟨v, hv, hd⟩ := (h.frame inv).execute d w
    rw [hd]
    cases e.startedCall? inv d w with
    | none => exact hv
    | some call => exact h.trans hv (h.still rfl rfl)
  rw [after_advance]
  exact h.trans hexecuted (h.still rfl rfl)

theorem finishCall (inv : Invocation) (call : Call) (r : Except HostError WebhookResponse) (w : World σ) :
    R w (after (e.finishCall inv call r) w) :=
  ((h.frame inv).finishCall (h.completed inv.id call) r).after w

theorem move {a : Act} (hm : Move e u a w) (ha : a ≠ .outside) : R u w := by
  have htaken (tasks : List Task) : R u { u with tasks } := h.still rfl rfl
  cases hm with
  | enter actor args ds => exact h.still (by rw [after_enter]) (by rw [after_enter])
  | directive htasks hdue => exact h.trans (htaken _) (h.advance _ _ _ _)
  | @panicked _ _ inv _ d _ htasks hdue hpanics =>
    have hframe := h.frame inv
    exact h.trans (htaken _) (hframe.toDispatching.before_execute hframe.started d _ hpanics)
  | @call before later inv due call htasks hdue =>
    rw [after_runTask_call e inv call (w := { u with tasks := before ++ later }) hdue]
    refine h.trans (htaken (before ++ later)) (h.trans (h.called inv.id call.request _) ?_)
    split
    · exact h.finishCall _ _ _ _
    · exact h.still rfl rfl
  | @response before later inv due call r htasks hdue =>
    rw [after_runTask_response e inv call r (w := { u with tasks := before ++ later }) hdue]
    exact h.trans (htaken (before ++ later)) (h.finishCall _ _ _ _)
  | denied actor => exact ((h.frame ⟨0, actor, []⟩).tell _ _ _).after u
  | outside => exact absurd rfl ha
  | clock hnow => exact h.still rfl rfl

/-- What every effect keeps holds on a trail on which nothing happens outside. -/
theorem trail {log : List (Entry σ)} (ht : Trail e u log w) (hlog : ∀ x ∈ log, x.act ≠ .outside) : R u w := by
  induction ht with
  | nil => exact h.still rfl rfl
  | snoc _ hm ih =>
    refine h.trans (ih fun x hx => hlog x (List.mem_append_left _ hx)) (h.move hm ?_)
    exact hlog _ (List.mem_append_right _ (List.mem_singleton_self _))

end EngineFrame

/-- A relation between histories that is kept by each effect an engine can have. -/
structure HistoryFrame (e : Engine σ) (R : World σ → World σ → Prop) : Prop extends EngineFrame e R where
  outside : ∀ host store w, R w { w with host, store }

namespace HistoryFrame

variable {R : World σ → World σ → Prop} (h : HistoryFrame e R)
include h

theorem move {a : Act} (hm : Move e u a w) : R u w := by
  by_cases ha : a = .outside
  · subst ha
    cases hm
    exact h.outside _ _ u
  · exact h.toEngineFrame.move hm ha

theorem trail {log : List (Entry σ)} (ht : Trail e u log w) : R u w := by
  induction ht with
  | nil => exact h.still rfl rfl
  | snoc _ hm ih => exact h.trans ih (h.move hm)

/-- What every effect keeps holds from the start of a session on. -/
theorem session (hs : Session e w) : ∃ host store, R { host, store } w := by
  obtain ⟨host, store, log, hlog⟩ := hs.trail.2
  exact ⟨host, store, h.trail hlog⟩

end HistoryFrame

/-! ### Events of a session -/

/-- An event of a session is one of a directive, the begin of a call, or the end of one. -/
inductive Engine.Happens (e : Engine σ) : Event → Prop where
  | performs {inv : Invocation} {ev : Event} (h : e.Performs inv ev) : Happens e ev
  | called (id : Nat) (request : WebhookRequest) : Happens e (.webhook id request)
  | completed (id : Nat) (call : Call) : Happens e (.completion id call)

theorem NotesOnly.historyFrame (e : Engine σ) : HistoryFrame e (NotesOnly e.Happens) where
  frame inv := NotesOnly.frame e inv .performs
  called id request _ := .of_cons rfl (.called id request)
  completed id call _ := .of_cons rfl (.completed id call)
  still hhistory _ := .of_eq hhistory
  outside _ _ _ := .of_eq rfl

theorem Session.happens (h : Session e w) : ∀ x ∈ w.history, e.Happens x.2 := by
  obtain ⟨_, _, hw⟩ := (NotesOnly.historyFrame e).session h
  exact hw.all (by simp)

end DirectiveEngine
