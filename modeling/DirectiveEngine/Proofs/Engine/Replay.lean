import DirectiveEngine.Proofs.Engine.Session

/-!
# The host and the history

An engine notes what it asks of the host.  So the host behind a move is what the events of the move make of the host
before it (`Move.replays`), unless something happens outside, and on a trail it is the replay of all that the entries note
(`Trail.replays`).  The history of a session is made of such entries (`Session.replays`), so what holds of the history
holds of what the host was handed.
-/

namespace DirectiveEngine

variable {σ : Type} {e : Engine σ} {u v w : World σ}

open Run (after)

/-- What the host does at an event. -/
def Event.act (host : Host σ) : Event → σ → σ
  | dispatch actor line silent => host.dispatch actor line silent
  | text actor t => host.send actor t
  | process command => fun h => (host.run command h).2
  | read path key => fun h => (host.read path key h).2
  | write path key value => fun h => (host.write path key value h).2
  | webhook _ request => fun h => (host.call request h).2
  | directive .. => id
  | assign .. => id
  | completion .. => id

/-- What the host does at events, the first of which comes first. -/
def replay (host : Host σ) (evs : List (Nat × Event)) (h : σ) : σ :=
  evs.foldl (fun h x => x.2.act host h) h

theorem replay_append (host : Host σ) (evs evs' : List (Nat × Event)) (h : σ) :
    replay host (evs ++ evs') h = replay host evs' (replay host evs h) :=
  List.foldl_append

/-- The events between two worlds are what the host was handed between them. -/
def Replays (e : Engine σ) (u w : World σ) : Prop :=
  ∃ evs, w.history = evs.reverse ++ u.history ∧ w.host = replay e.host evs u.host

namespace Replays

theorem of_eq (hhistory : w.history = u.history) (hhost : w.host = u.host) : Replays e u w :=
  ⟨[], hhistory, hhost⟩

theorem of_cons {t : Nat} {ev : Event} (hhistory : w.history = (t, ev) :: u.history)
    (hhost : w.host = ev.act e.host u.host) : Replays e u w :=
  ⟨[(t, ev)], hhistory, hhost⟩

theorem trans (h : Replays e u v) (h' : Replays e v w) : Replays e u w := by
  obtain ⟨evs, hhistory, hhost⟩ := h
  obtain ⟨evs', hhistory', hhost'⟩ := h'
  refine ⟨evs ++ evs', ?_, ?_⟩
  · rw [hhistory', hhistory, List.reverse_append, List.append_assoc]
  · rw [hhost', hhost, replay_append]

theorem frame (e : Engine σ) (inv : Invocation) : Frame e inv (Replays e) where
  refl _ := .of_eq rfl rfl
  trans := .trans
  read _ _ _ := .of_cons rfl rfl
  write _ _ := .of_cons rfl rfl
  run _ _ _ := .of_cons rfl rfl
  send _ _ _ := .of_cons rfl rfl
  started _ _ := .of_cons rfl rfl
  assign _ _ _ := .of_cons rfl rfl
  dispatchLine _ _ _ _ _ := .of_cons rfl rfl

theorem engineFrame (e : Engine σ) : EngineFrame e (Replays e) where
  frame := frame e
  called _ _ _ := .of_cons rfl rfl
  completed _ _ _ := .of_cons rfl rfl
  still := .of_eq

end Replays

/-- Each effect of a directive hands the host what it notes. -/
theorem replays_execute (e : Engine σ) (inv : Invocation) (d : Directive) :
    (e.execute inv d).effects.Always e.host.MayPanic (Replays e) :=
  ((Replays.frame e inv).keeps_execute (fun _ _ _ => .of_eq rfl rfl) d).each

/-- The host behind a move is the replay of what the move notes. -/
theorem Move.replays {a : Act} (h : Move e u a w) (ha : a ≠ .outside) :
    w.host = replay e.host (⟨u, a, w⟩ : Entry σ).events u.host := by
  obtain ⟨evs, hhistory, hhost⟩ := (Replays.engineFrame e).move h ha
  have hevents : (⟨u, a, w⟩ : Entry σ).events = evs := Entry.events_eq hhistory
  rw [hevents, hhost]

/-- The host at the end of a trail is the replay of what its entries note. -/
theorem Trail.replays {log : List (Entry σ)} (h : Trail e u log w) (hlog : ∀ x ∈ log, x.act ≠ .outside) :
    w.host = replay e.host (log.flatMap Entry.events) u.host := by
  obtain ⟨evs, hhistory, hhost⟩ := (Replays.engineFrame e).trail h hlog
  have hevents : log.flatMap Entry.events = evs :=
    List.reverse_inj.1 (List.append_cancel_right (h.history.symm.trans hhistory))
  rw [hevents, hhost]

/-- A session has a trail whose entries hold its history, and hand the host what they note. -/
theorem Session.replays (h : Session e w) :
    ∃ host store log, Trail e { host, store } log w ∧ w.history = (log.flatMap Entry.events).reverse ∧
      ∀ x ∈ log, x.act ≠ .outside → x.behind.host = replay e.host x.events x.before.host := by
  obtain ⟨-, host, store, log, hlog⟩ := h.trail
  refine ⟨host, store, log, hlog, hlog.history.trans (List.append_nil _), fun x hx ha => ?_⟩
  obtain ⟨_, -, hm⟩ := hlog.entry hx
  exact hm.replays ha

end DirectiveEngine
