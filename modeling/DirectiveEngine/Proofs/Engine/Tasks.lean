import DirectiveEngine.Engine.Schedule
import DirectiveEngine.Proofs.Engine.Panic

/-!
# Tasks

What an engine has put off: the directives that an invocation has yet to run, calls that have not begun, and responses
that have not arrived.  A directive takes the first that its invocation has yet to run and adds one call at most
(`execute_still`), and what is done for a call adds its response at most (`after_runTask_call`).

The invariant is `Orderly`: the directives that an invocation has yet to run lie in one task, which is due when the first
of them is, and identifiers are fresh.  It does not say that tasks are in time.
-/

namespace DirectiveEngine

variable {σ : Type}

open Run (Keeps after)
open Engine (taskWork totalWork)

/-! ### Timetables -/

/-- The sum of the delays up to a directive of a list and including it. -/
def delaySum (ds : List Directive) (i : Nat) : Nat :=
  ((ds.take (i + 1)).map Directive.delay).foldr (· + ·) 0

namespace Engine

variable (e : Engine σ)

/-- When each directive of an invocation is due. -/
def timetable (start : Nat) (ds : List Directive) : List (Nat × Directive) :=
  ds.mapIdx fun i d => (start + e.delayOf (delaySum ds i), d)

/-- Begins an invocation, with nothing of it run yet. -/
def enter (actor : Actor) (args : List Text) (ds : List Directive) : Run σ Invocation := do
  let (start, inv) ← register actor args
  postponeTail inv (e.timetable start ds)
  return inv

/-- Runs the first directive of a tail and puts the others off. -/
def advance (inv : Invocation) (d : Directive) (ds : List (Nat × Directive)) : Run σ Unit := do
  e.execute inv d
  postponeTail inv ds

end Engine

private theorem delaySums_eq_mapIdx {s : Nat} (hs : s ≤ maxDelaySum) (ds : List Directive) :
    delaySums s ds = ds.mapIdx fun i d => (min (s + delaySum ds i) maxDelaySum, d) := by
  induction ds generalizing s with
  | nil => rfl
  | cons d ds ih =>
    rw [delaySums, ih (Nat.min_le_right _ _), List.mapIdx_cons]
    have hsum (i : Nat) : min (min (s + d.delay) maxDelaySum + delaySum ds i) maxDelaySum =
        min (s + delaySum (d :: ds) (i + 1)) maxDelaySum := by
      simp only [delaySum, List.take_succ_cons, List.map_cons, List.foldr_cons]
      omega
    simp only [hsum]
    simp [delaySum]

private theorem delayOf_min (e : Engine σ) (n : Nat) : e.delayOf (min n maxDelaySum) = e.delayOf n := by
  have : min (min n maxDelaySum) maxUnits = min n maxUnits := by
    simp only [maxDelaySum, maxUnits]
    omega
  rw [Engine.delayOf, Engine.delayOf, this]

/-- The timetable holds the sums that an invocation computes as it goes through its directives. -/
theorem Engine.timetable_eq (e : Engine σ) (start : Nat) (ds : List Directive) :
    e.timetable start ds = (delaySums 0 ds).map fun d => (start + e.delayOf d.1, d.2) := by
  apply List.ext_getElem?
  intro i
  simp only [delaySums_eq_mapIdx (Nat.zero_le _), Engine.timetable, List.getElem?_mapIdx, List.getElem?_map,
    Option.map_map, Nat.zero_add, Function.comp_def, delayOf_min]

/-- The directives before the first delayed one are due at once, and then come the others. -/
theorem Engine.timetable_eq_append (e : Engine σ) (start : Nat) (ds : List Directive) :
    e.timetable start ds = (Engine.undelayed ds).map (fun d => (start, d)) ++ e.delayed start ds := by
  let zero (d : Nat × Directive) : Bool := d.1 == 0
  have hundelayed : ((delaySums 0 ds).takeWhile zero).map (fun d => (start + e.delayOf d.1, d.2)) =
      (Engine.undelayed ds).map fun d => (start, d) := by
    rw [Engine.undelayed, List.map_map]
    refine List.map_congr_left fun d hd => ?_
    have hzero : d.1 = 0 := beq_iff_eq.1 (List.mem_takeWhile_imp (p := zero) hd)
    simp [hzero, Engine.delayOf]
  rw [e.timetable_eq, ← hundelayed, Engine.delayed, ← List.map_append]
  exact congrArg _ List.takeWhile_append_dropWhile.symm

private theorem delayOf_mono (e : Engine σ) {a b : Nat} (h : a ≤ b) : e.delayOf a ≤ e.delayOf b := by
  have hab : min a maxUnits ≤ min b maxUnits := by omega
  have := Nat.mul_le_mul_left e.config.delayUnit hab
  unfold Engine.delayOf
  omega

private theorem le_delaySums {s : Nat} (hs : s ≤ maxDelaySum) (ds : List Directive) :
    ∀ d ∈ delaySums s ds, s ≤ d.1 := by
  induction ds generalizing s with
  | nil => simp [delaySums]
  | cons d ds ih =>
    intro x hx
    simp only [delaySums, List.mem_cons] at hx
    rcases hx with rfl | hx
    · simp only
      omega
    · have := ih (Nat.min_le_right _ _) x hx
      omega

private theorem delaySums_sorted {s : Nat} (hs : s ≤ maxDelaySum) (ds : List Directive) :
    (delaySums s ds).Pairwise fun x y => x.1 ≤ y.1 := by
  induction ds generalizing s with
  | nil => exact List.Pairwise.nil
  | cons d ds ih =>
    exact List.Pairwise.cons (le_delaySums (Nat.min_le_right _ _) ds) (ih (Nat.min_le_right _ _))

/-- Directives are due in the order of the list. -/
theorem Engine.timetable_sorted (e : Engine σ) (start : Nat) (ds : List Directive) :
    (e.timetable start ds).Pairwise fun x y => x.1 ≤ y.1 := by
  rw [e.timetable_eq, List.pairwise_map]
  refine (delaySums_sorted (Nat.zero_le _) ds).imp fun hxy => ?_
  have := delayOf_mono e hxy
  omega

/-! ### Directives yet to run -/

/-- The directives put off for an invocation, tail by tail. -/
def tailsOf (inv : Invocation) (ts : List Task) : List (List (Nat × Directive)) :=
  ts.filterMap fun t =>
    match t.work with
    | .tail ds => if t.invocation = inv then some ds else none
    | _ => none

/-- What an invocation has yet to run. -/
def World.pending (w : World σ) (inv : Invocation) : List (Nat × Directive) :=
  (tailsOf inv w.tasks).flatten

/-- The directives of a tail that are due by a time are in front of the others. -/
theorem le_of_mem_takeWhile {ds : List (Nat × Directive)} {now : Nat} {d : Nat × Directive}
    (h : d ∈ ds.takeWhile fun d => d.1 ≤ now) : d.1 ≤ now :=
  of_decide_eq_true (List.mem_takeWhile_imp (p := fun d : Nat × Directive => decide (d.1 ≤ now)) h)

theorem tailsOf_append (inv : Invocation) (ts ts' : List Task) :
    tailsOf inv (ts ++ ts') = tailsOf inv ts ++ tailsOf inv ts' :=
  List.filterMap_append

theorem mem_tailsOf_iff {inv : Invocation} {ts : List Task} {ds : List (Nat × Directive)} :
    ds ∈ tailsOf inv ts ↔ ∃ t ∈ ts, t.invocation = inv ∧ t.work = .tail ds := by
  unfold tailsOf
  rw [List.mem_filterMap]
  refine exists_congr fun t => and_congr_right fun _ => ?_
  cases t.work <;> simp

theorem tailsOf_eq_nil {inv : Invocation} {ts : List Task} (h : ∀ t ∈ ts, ∀ ds, t.work ≠ .tail ds) :
    tailsOf inv ts = [] := by
  refine List.filterMap_eq_nil_iff.2 fun t ht => ?_
  split
  · exact absurd ‹_› (h t ht _)
  · rfl

/-- The task for a tail; an empty one needs none. -/
def tailTask (inv : Invocation) : List (Nat × Directive) → List Task
  | [] => []
  | (due, d) :: ds => [{ due, invocation := inv, work := .tail ((due, d) :: ds) }]

theorem of_mem_tailTask {inv : Invocation} {ds : List (Nat × Directive)} {t : Task} (h : t ∈ tailTask inv ds) :
    t.invocation = inv ∧ t.work = .tail ds := by
  cases ds with
  | nil => simp [tailTask] at h
  | cons d ds =>
    rw [List.mem_singleton.1 h]
    exact ⟨rfl, rfl⟩

theorem after_postponeTail (inv : Invocation) (ds : List (Nat × Directive)) (w : World σ) :
    after (Engine.postponeTail inv ds) w = { w with tasks := w.tasks ++ tailTask inv ds } := by
  cases ds with
  | nil => simp only [tailTask, List.append_nil]; rfl
  | cons d ds => rfl

theorem after_enter (e : Engine σ) (actor : Actor) (args : List Text) (ds : List Directive) (w : World σ) :
    after (e.enter actor args ds) w =
      { w with
        invocations := w.invocations + 1
        tasks := w.tasks ++ tailTask ⟨w.invocations, actor, args⟩ (e.timetable w.now ds) } :=
  after_postponeTail _ _ { w with invocations := w.invocations + 1 }

theorem flatten_tailsOf_tailTask (inv inv' : Invocation) (ds : List (Nat × Directive)) :
    (tailsOf inv (tailTask inv' ds)).flatten = if inv' = inv then ds else [] := by
  cases ds with
  | nil => simp [tailTask, tailsOf]
  | cons d ds =>
    by_cases h : inv' = inv <;> simp [tailTask, tailsOf, h]

theorem length_tailsOf_tailTask (inv inv' : Invocation) (ds : List (Nat × Directive)) :
    (tailsOf inv (tailTask inv' ds)).length ≤ if inv' = inv then 1 else 0 := by
  cases ds with
  | nil => simp [tailTask, tailsOf]
  | cons d ds =>
    by_cases h : inv' = inv <;> simp [tailTask, tailsOf, h]

/-- Nothing but the host, the store and the history differs. -/
structure Still (u w : World σ) : Prop where
  now : w.now = u.now
  tasks : w.tasks = u.tasks
  invocations : w.invocations = u.invocations

theorem Still.frame (e : Engine σ) (inv : Invocation) : Frame e inv Still where
  refl _ := ⟨rfl, rfl, rfl⟩
  trans h h' := ⟨h'.now.trans h.now, h'.tasks.trans h.tasks, h'.invocations.trans h.invocations⟩
  started _ _ := ⟨rfl, rfl, rfl⟩
  read _ _ _ := ⟨rfl, rfl, rfl⟩
  write _ _ := ⟨rfl, rfl, rfl⟩
  run _ _ _ := ⟨rfl, rfl, rfl⟩
  send _ _ _ := ⟨rfl, rfl, rfl⟩
  dispatchLine _ _ _ _ _ := ⟨rfl, rfl, rfl⟩
  assign _ _ _ := ⟨rfl, rfl, rfl⟩

theorem Still.finishCall (e : Engine σ) (inv : Invocation) (call : Call) (r : Except HostError WebhookResponse)
    (w : World σ) : Still w (after (e.finishCall inv call r) w) :=
  ((Still.frame e inv).finishCall (fun _ => ⟨rfl, rfl, rfl⟩) r).after w

/-- A directive puts off the call that it starts, and nothing else. -/
theorem execute_still (e : Engine σ) (inv : Invocation) (d : Directive) (w : World σ) :
    Still { w with tasks := w.tasks ++ (e.startedCall? inv d w).toList.map fun call => ⟨w.now, inv, .call call⟩ }
      (after (e.execute inv d) w) := by
  obtain ⟨u, hu, hd⟩ := (Still.frame e inv).execute d w
  rw [hd]
  cases e.startedCall? inv d w with
  | none => exact ⟨hu.now, by simpa [World.withCall?] using hu.tasks, hu.invocations⟩
  | some call => exact ⟨hu.now, by simp [World.withCall?, World.withCall, hu.tasks, hu.now], hu.invocations⟩

/-- A directive that panics puts nothing off. -/
theorem execute_still_of_panics {e : Engine σ} {inv : Invocation} {d : Directive} {w : World σ}
    (h : (e.execute inv d).Panics w) : Still w (after (e.execute inv d).attempt w) :=
  (Still.frame e inv).toDispatching.before_execute (fun _ _ => ⟨rfl, rfl, rfl⟩) d w h

/-- A response that is due is processed. -/
theorem after_runTask_response (e : Engine σ) {due : Nat} (inv : Invocation) (call : Call)
    (r : Except HostError WebhookResponse) {w : World σ} (hdue : due ≤ w.now) :
    after (e.runTask ⟨due, inv, .response call r⟩) w = after (e.finishCall inv call r) w := by
  have hw : { w with now := max w.now due } = w := by rw [Nat.max_eq_left hdue]
  have hr : after (e.runTask ⟨due, inv, .response call r⟩) w =
      after (e.finishCall inv call r) { w with now := max w.now due } := rfl
  rw [hr, hw]

/-- A call that is due is made, and then its response is processed or awaited. -/
theorem after_runTask_call (e : Engine σ) {due : Nat} (inv : Invocation) (call : Call) {w : World σ}
    (hdue : due ≤ w.now) :
    let outcome := (e.host.call call.request w.host).1
    let v := after (e.call inv.id call.request) w
    after (e.runTask ⟨due, inv, .call call⟩) w =
      if outcome.latency = 0 then after (e.finishCall inv call outcome.result) v
      else { v with tasks := w.tasks ++ [⟨w.now + outcome.latency, inv, .response call outcome.result⟩] } := by
  intro outcome v
  have hw : { w with now := max w.now due } = w := by rw [Nat.max_eq_left hdue]
  have hr : after (e.runTask ⟨due, inv, .call call⟩) w =
      (fun u : World σ =>
        let outcome := (e.host.call call.request u.host).1
        after (if outcome.latency = 0 then e.finishCall inv call outcome.result
          else Run.postpone ⟨u.now + outcome.latency, inv, .response call outcome.result⟩)
          (after (e.call inv.id call.request) u))
        { w with now := max w.now due } := rfl
  rw [hr, hw]
  simp only
  split
  · rfl
  · rfl

theorem after_advance (e : Engine σ) (inv : Invocation) (d : Directive) (ds : List (Nat × Directive)) (w : World σ) :
    after (e.advance inv d ds) w =
      { after (e.execute inv d) w with tasks := (after (e.execute inv d) w).tasks ++ tailTask inv ds } :=
  after_postponeTail inv ds _

/-! ### The invariant -/

/-- A task belongs to an invocation that was begun, and is a tail only for the directive that it is due for and later
ones. -/
structure Task.InOrder (w : World σ) (t : Task) : Prop where
  known : t.invocation.id < w.invocations
  tail : ∀ ds, t.work = .tail ds → ∃ d ds', ds = (t.due, d) :: ds'

structure Orderly (w : World σ) : Prop where
  tasks : ∀ t ∈ w.tasks, t.InOrder w
  single : ∀ inv, (tailsOf inv w.tasks).length ≤ 1

theorem orderly_start (host : σ) (store : Store) : Orderly ({ host, store } : World σ) :=
  ⟨by simp, by simp [tailsOf]⟩

theorem Orderly.tailsOf_fresh {w : World σ} (h : Orderly w) {inv : Invocation} (hinv : w.invocations ≤ inv.id) :
    tailsOf inv w.tasks = [] := by
  refine List.filterMap_eq_nil_iff.2 fun t ht => ?_
  have hknown := (h.tasks t ht).known
  have hne : t.invocation ≠ inv := by
    rintro rfl
    omega
  split
  · rw [if_neg hne]
  · rfl

theorem tailTask_inOrder {inv : Invocation} {w : World σ} (hinv : inv.id < w.invocations)
    (ds : List (Nat × Directive)) : ∀ t ∈ tailTask inv ds, t.InOrder w := by
  cases ds with
  | nil => simp [tailTask]
  | cons d ds =>
    simp only [tailTask, List.mem_singleton, forall_eq]
    exact ⟨hinv, fun _ hw => ⟨d.2, ds, by cases hw; rfl⟩⟩

/-- Only the number of invocations matters to a task. -/
theorem Task.InOrder.mono {t : Task} {u w : World σ} (h : t.InOrder u) (hinv : u.invocations ≤ w.invocations) :
    t.InOrder w :=
  ⟨Nat.lt_of_lt_of_le h.known hinv, h.tail⟩

/-- An invocation that has just entered is new and has yet to run all that its timetable holds. -/
theorem Orderly.pending_after_enter {w : World σ} (h : Orderly w) (e : Engine σ) (actor : Actor) (args : List Text)
    (ds : List Directive) :
    (after (e.enter actor args ds) w).pending ⟨w.invocations, actor, args⟩ = e.timetable w.now ds ∧
      w.invocations < (after (e.enter actor args ds) w).invocations := by
  rw [after_enter]
  refine ⟨?_, Nat.lt_succ_self _⟩
  unfold World.pending
  rw [tailsOf_append, h.tailsOf_fresh (Nat.le_refl _), List.nil_append, flatten_tailsOf_tailTask, if_pos rfl]

end DirectiveEngine
