import DirectiveEngine.Host.Scripted
import DirectiveEngine.Proofs.Engine.Fairness

/-!
# Invocations run by their timetable

However the steps of an invocation are interleaved with others, and however long its effects take, its directives run
once each and in the order of the list, none of them before it is due and each in the state that all before it has left;
on a fair schedule all of them run, and on time if nothing takes time (`invoke_by_timetable`).  The directives that no
delay precedes run before the invocation returns.  What `Engine.invoke` and `Engine.wait` do is one such run.
-/

namespace DirectiveEngine

variable {σ : Type} {e : Engine σ} {inv : Invocation} {r u w : Runtime σ} {log : List (Moment σ)}

open Run (after value)

/-! ### Delays -/

private theorem lt_length_undelayed_iff (ds : List Directive) {i : Nat} (hi : i < ds.length) :
    i < (Engine.undelayed ds).length ↔ delaySum ds i = 0 := by
  rw [Engine.undelayed, List.length_map]
  induction ds generalizing i with
  | nil => simp at hi
  | cons d ds ih =>
    by_cases hd : d.delay = 0
    · have hsums : delaySums 0 (d :: ds) = (0, d) :: delaySums 0 ds := by simp [delaySums, hd]
      rw [hsums, List.takeWhile_cons_of_pos (by simp), List.length_cons]
      cases i with
      | zero => simp [delaySum, hd]
      | succ i =>
        have hsum : delaySum (d :: ds) (i + 1) = delaySum ds i := by simp [delaySum, hd]
        rw [hsum, ← ih (by simpa using hi)]
        omega
    · have hpos : ¬ (min (0 + d.delay) maxDelaySum == 0) := by
        simp only [maxDelaySum, beq_iff_eq]
        omega
      rw [delaySums, List.takeWhile_cons_of_neg (p := fun d : Nat × Directive => d.1 == 0) hpos]
      simp only [delaySum, List.take_succ_cons, List.map_cons, List.foldr_cons, List.length_nil]
      omega

theorem isDeferred_iff (ds : List Directive) : Engine.isDeferred ds = true ↔ ∃ d ∈ ds, d.delay ≠ 0 := by
  unfold Engine.isDeferred
  induction ds with
  | nil => simp [delaySums]
  | cons d ds ih =>
    by_cases hd : d.delay = 0
    · have hsums : delaySums 0 (d :: ds) = (0, d) :: delaySums 0 ds := by simp [delaySums, hd]
      rw [hsums, List.any_cons, bne_self_eq_false, Bool.false_or, ih]
      simp [hd]
    · have hne : min (0 + d.delay) maxDelaySum ≠ 0 := by
        simp only [maxDelaySum]
        omega
      rw [delaySums, List.any_cons, bne_iff_ne.2 hne, Bool.true_or]
      simp [hd]

theorem Engine.le_of_mem_timetable {start : Nat} {ds : List Directive} {d : Nat × Directive}
    (h : d ∈ e.timetable start ds) : start ≤ d.1 := by
  rw [e.timetable_eq] at h
  obtain ⟨d', -, rfl⟩ := List.mem_map.1 h
  exact Nat.le_add_right _ _

/-! ### The return of an invocation -/

/-- The first thread of the invocation has ended, and with it the call that runs it. -/
def Returned (inv : Invocation) (log : List (Moment σ)) : Prop :=
  ∃ x ∈ log, x.deed = .finish inv

/-- Up to its return an invocation has one thread, behind which the same directives are put off. -/
private theorem Steps.unreturned (hr : r.Orderly e) (hid : inv.id < r.world.invocations) {current : Effects σ Unit}
    {row others : List (Nat × Directive)} (hs : r.IsAt inv (.running current row others)) (h : Steps e r log u) :
    Returned inv log ∨ u.IsAt inv .finished ∨ ∃ current row, u.IsAt inv (.running current row others) := by
  have hfollow := h.follow
    (P := fun log _ s => Returned inv log ∨ s = .finished ∨ ∃ current row, s = .running current row others) hr hid hs
    (.inr (.inr ⟨current, row, rfl⟩)) fun {log u w x s s'} _ _ hP hstep => by
      rcases hP with ⟨y, hy, hdeed⟩ | hs
      · exact .inl ⟨y, List.mem_append_left _ hy, hdeed⟩
      · cases hstep with
        | wake => rcases hs with hs | ⟨_, _, hs⟩ <;> cases hs
        | start | effect =>
          rcases hs with hs | ⟨_, _, hs⟩
          · cases hs
          · cases hs
            exact .inr (.inr ⟨_, _, rfl⟩)
        | finish => exact .inl ⟨_, List.mem_append_right _ (List.mem_singleton_self _), rfl⟩
        | panic => exact .inr (.inl rfl)
        | elsewhere => exact .inr hs
  obtain ⟨-, -, s, hs, hP⟩ := hfollow
  rcases hP with hreturned | rfl | ⟨current, row, rfl⟩
  · exact .inl hreturned
  · exact .inr (.inl hs)
  · exact .inr (.inr ⟨current, row, hs⟩)

/-! ### Every interleaving -/

/-- What becomes of an invocation from where it has entered with a plan, of which the first `n` directives are not
delayed, whatever else is under way. -/
structure RunsByTimetable (e : Engine σ) (inv : Invocation) (plan : List (Nat × Directive)) (n : Nat) (r : Runtime σ) :
    Prop where
  /-- What has begun and what has yet to begin are the plan.  A panic of the host loses the directives in between. -/
  inOrder : ∀ {log u}, Steps e r log u →
    ∃ lost, begunOf inv log ++ lost ++ u.left inv = plan ∧ (¬ Panicked inv log → lost = [])
  /-- Nothing is lost to a host that never panics. -/
  panics : ∀ {log u}, Steps e r log u → Panicked inv log → e.host.MayPanic
  /-- A directive begins when those in front of it have run, in the world that all that has happened leads to. -/
  inState : ∀ {before later x u due d}, Steps e r (before ++ x :: later) u → x.deed = .start inv due d →
    Steps e r before x.before ∧ ∃ i, plan[i]? = some (due, d) ∧ Completed e inv (plan.take i) before
  /-- It goes through its effects, each of which acts on the world that it finds. -/
  walks : ∀ {log u}, Steps e r log u → ∀ y ∈ executionsOf inv log, ∃ m, y.Reaches e inv m
  notEarly : ∀ {log u}, Steps e r log u → ∀ y ∈ executionsOf inv log, y.due ≤ y.time
  /-- If time passes only while nothing is due, directives begin when they are, and have their effects then. -/
  onTime : ∀ {log u}, Steps e r log u → Prompt log →
    ∀ y ∈ executionsOf inv log, y.time = y.due ∧ ∀ z ∈ y.effects, z.1.now = y.due
  /-- When the invocation returns, the directives that are not delayed have run, and no others. -/
  returns : ∀ {log u w}, Steps e r log u → Step e u (.finish inv) w → ¬ Returned inv log →
    Completed e inv (plan.take n) log
  /-- All directives run on a fair schedule, unless the host panics. -/
  completes : ∀ p : Schedule e r, p.Fair inv → ∃ n, Panicked inv (p.log n) ∨ Completed e inv plan (p.log n)
  /-- All have run when an engine without other threads has waited for the invocation. -/
  waits : ∀ {log u}, Steps e r log u → u.threads = [] →
    ∃ log', Steps e u log' ⟨after (e.wait inv.id) u.world, []⟩ ∧ Prompt log' ∧
      (Panicked inv (log ++ log') ∨ Completed e inv plan (log ++ log'))

private theorem take_of_eq_append_cons {plan front rest : List (Nat × Directive)} {d : Nat × Directive}
    (h : plan = front ++ d :: rest) : plan[front.length]? = some d ∧ plan.take front.length = front := by
  subst h
  simp

theorem enter_runsByTimetable (e : Engine σ) (hr : r.Orderly e) (actor : Actor) (args : List Text) (ds : List Directive) :
    RunsByTimetable e ⟨r.world.invocations, actor, args⟩ (e.timetable r.world.now ds) (Engine.undelayed ds).length
      (r.enter e actor args ds) := by
  let inv : Invocation := ⟨r.world.invocations, actor, args⟩
  let plan := e.timetable r.world.now ds
  have henter : (r.enter e actor args ds).Orderly e := (Step.enter actor args ds).orderly hr
  have hid : inv.id < (r.enter e actor args ds).world.invocations := Nat.lt_succ_self _
  let first : Stage σ :=
    .running (.done ()) ((Engine.undelayed ds).map fun d => (r.world.now, d)) (e.delayed r.world.now ds)
  have hs : (r.enter e actor args ds).IsAt inv first := hr.isAt_enter actor args ds
  have hsplit : first.left = plan := (e.timetable_eq_append r.world.now ds).symm
  have htraced {log : List (Moment σ)} {u : Runtime σ} (h : Steps e (r.enter e actor args ds) log u) :
      ∃ s, u.IsAt inv s ∧ Traced e inv plan log s := by
    rw [← hsplit, ← hs.left]
    exact h.traced henter hid hs
  have hfinished {log : List (Moment σ)} {u : Runtime σ} (h : Steps e (r.enter e actor args ds) log u)
      (hu : u.IsAt inv .finished) : Panicked inv log ∨ Completed e inv plan log := by
    obtain ⟨s, hs, ht⟩ := htraced h
    obtain rfl := hu.unique hs
    exact ht.finished
  constructor
  case inOrder =>
    intro log u h
    obtain ⟨s, hu, ht⟩ := htraced h
    exact ⟨lostOf inv log, hu.left ▸ ht.plan, lostOf_eq_nil⟩
  case panics =>
    intro log u h
    exact h.mayPanic henter
  case inState =>
    intro before later x u due d h hx
    obtain ⟨hbefore, hstep, -⟩ := h.cut
    obtain ⟨s, hu, ht⟩ := htraced hbefore
    obtain ⟨v, deed, behind⟩ := x
    obtain rfl : deed = .start inv due d := hx
    have hstart : Step e v (.start inv due d) behind := hstep
    cases hstart with
    | start hthreads =>
      obtain ⟨rfl, -⟩ := hu.of_thread hthreads
      obtain ⟨front, hplan, hcompleted⟩ := ht.completed
      obtain ⟨hget, htake⟩ := take_of_eq_append_cons hplan
      exact ⟨hbefore, front.length, hget, by rwa [htake]⟩
  case walks =>
    intro log u h
    obtain ⟨s, -, ht⟩ := htraced h
    exact ht.walks
  case notEarly =>
    intro log u h
    refine h.notEarly henter hid hs fun d hd => ?_
    obtain ⟨d', -, rfl⟩ := List.mem_map.1 hd
    exact Nat.le_refl _
  case onTime =>
    intro log u h hprompt
    refine h.punctual henter hid hs ⟨by simp [executionsOf], nofun, ?_, ?_, ?_⟩ hprompt
    · intro current row others hfirst d hd
      obtain ⟨-, rfl, -⟩ := Stage.running.inj hfirst
      obtain ⟨d', -, rfl⟩ := List.mem_map.1 hd
      rfl
    · exact fun d hd => Engine.le_of_mem_timetable (e := e) (hsplit ▸ hd)
    · rw [hsplit]
      exact e.timetable_sorted r.world.now ds
  case returns =>
    intro log u w h hfinish hunreturned
    obtain ⟨s, hu, ht⟩ := htraced h
    cases hfinish with
    | finish hthreads =>
      obtain ⟨rfl, -⟩ := hu.of_thread hthreads
      rcases h.unreturned henter hid hs with hreturned | hend | ⟨current, row, hrunning⟩
      · exact absurd hreturned hunreturned
      · cases hend.unique hu
      · cases hrunning.unique hu
        obtain ⟨front, hplan, hcompleted⟩ := ht.completed
        have hfront : front = (Engine.undelayed ds).map fun d => (r.world.now, d) :=
          List.append_cancel_right (hplan.symm.trans hsplit.symm)
        have htake : plan.take (Engine.undelayed ds).length = front := by
          rw [hplan, hfront, List.nil_append]
          exact List.take_left' (List.length_map _)
        rwa [htake]
  case completes =>
    intro p hp
    obtain ⟨n, hn⟩ := hp.ends henter hid
    exact ⟨n, hfinished (p.steps n) hn⟩
  case waits =>
    intro log u h hthreads
    obtain ⟨world, threads⟩ := u
    obtain rfl : threads = [] := hthreads
    have hw := (h.orderly henter).world
    obtain ⟨log', hlog', hprompt⟩ := wait_promptly e inv.id hw
    exact ⟨log', hlog', hprompt, hfinished (h.trans hlog') (isAt_finished_after_wait e inv hw)⟩

/-- An invocation runs its directives by its timetable; it returns when those have run that no delay precedes, and
tells whether any is delayed. -/
theorem invoke_by_timetable (h : Reachable e r) (draw : Nat) (actor : Actor) (args actions : List Text) :
    let ds := collapseRandom draw (actions.map Directive.parse)
    let inv : Invocation := ⟨r.world.invocations, actor, args⟩
    (∃ n, (∀ i < ds.length, i < n ↔ delaySum ds i = 0) ∧
      RunsByTimetable e inv (e.timetable r.world.now ds) n (r.enter e actor args ds)) ∧
    LeadsPromptly e (r.enter e actor args ds) ⟨after (e.invoke draw actor args actions) r.world, r.threads⟩ ∧
    ∃ deferred, value (e.invoke draw actor args actions) r.world = (inv, deferred) ∧
      (deferred = true ↔ ∃ d ∈ ds, d.delay ≠ 0) := by
  intro ds inv
  refine ⟨⟨_, fun i hi => lt_length_undelayed_iff ds hi, enter_runsByTimetable e h.orderly actor args ds⟩, ?_⟩
  exact ⟨begin_promptly e actor args ds r, Engine.isDeferred ds, rfl, isDeferred_iff ds⟩

/-- Two directives, the second of which is delayed by two units. -/
theorem invoke_two_by_timetable :
    let e : Engine Script := { host := Script.host, config := {} }
    let r : Runtime Script := { world := { host := { files := ⟨[], [], []⟩ } } }
    let actions := ["say a".toList, "[delay:2] say b".toList]
    let plan := [(0, Directive.parse "say a".toList), (2000, Directive.parse "[delay:2] say b".toList)]
    RunsByTimetable e ⟨0, .console, []⟩ plan 1 (r.enter e .console [] (actions.map Directive.parse)) := by
  intro e r actions plan
  have hr : Reachable e r := ⟨_, _, [], .nil⟩
  obtain ⟨n, hn, hruns⟩ := (invoke_by_timetable hr 0 .console [] actions).1
  obtain rfl : n = 1 := by
    have hfirst : 0 < n := (hn 0 Nat.zero_lt_two).2 rfl
    have hsecond : ¬ 1 < n := fun h => absurd ((hn 1 Nat.one_lt_two).1 h) (show ¬ 2 = 0 by decide)
    omega
  have hds : collapseRandom 0 (actions.map Directive.parse) = actions.map Directive.parse := by decide +kernel
  have hplan : e.timetable 0 (actions.map Directive.parse) = plan := by decide +kernel
  rw [hds] at hruns
  exact hplan ▸ hruns

end DirectiveEngine
