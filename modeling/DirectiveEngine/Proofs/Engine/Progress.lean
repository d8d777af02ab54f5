import DirectiveEngine.Proofs.Engine.Trail
import Mathlib.Data.List.TakeWhile

/-!
# The engine on a trail

Beginning an invocation, running tasks and sleeping are moves, one after another (`begin_trail`, `runWhile_trail`,
`sleep_trail`), so they are covered by what holds on every trail.  The work that is left bounds how many tasks are run:
each of them costs more than it adds (`runTask_work`), so tasks run until the first is one that may not
(`runWhile_stops`).
-/

namespace DirectiveEngine

variable {σ : Type}

open Run (after value after_bind)
open Engine (postponeTail takeFirst? taskWork totalWork)

/-! ### The first task -/

theorem takeFirst?_eq_none {ts : List Task} : takeFirst? ts = none ↔ ts = [] := by
  cases ts with
  | nil => simp [takeFirst?]
  | cons t ts =>
    unfold takeFirst?
    split
    · simp
    · split <;> simp

/-- The first task is due no later than any other, and the others keep their order. -/
theorem takeFirst?_eq_some {ts us : List Task} {t : Task} (h : takeFirst? ts = some (t, us)) :
    ∃ before later, ts = before ++ t :: later ∧ us = before ++ later ∧ ∀ u ∈ ts, t.due ≤ u.due := by
  induction ts generalizing t us with
  | nil => simp [takeFirst?] at h
  | cons t' ts ih =>
    unfold takeFirst? at h
    split at h
    · rename_i hnone
      simp only [Option.some.injEq, Prod.mk.injEq] at h
      obtain ⟨rfl, rfl⟩ := h
      rw [takeFirst?_eq_none] at hnone
      exact ⟨[], [], by simp [hnone], rfl, by simp [hnone]⟩
    · rename_i u vs hsome
      obtain ⟨before, later, hts, hvs, hmin⟩ := ih hsome
      split at h
      · rename_i hle
        simp only [Option.some.injEq, Prod.mk.injEq] at h
        obtain ⟨rfl, rfl⟩ := h
        refine ⟨[], ts, rfl, rfl, fun x hx => ?_⟩
        rcases List.mem_cons.1 hx with rfl | hx
        · exact Nat.le_refl _
        · exact Nat.le_trans hle (hmin x hx)
      · rename_i hle
        simp only [Option.some.injEq, Prod.mk.injEq] at h
        obtain ⟨rfl, rfl⟩ := h
        refine ⟨t' :: before, later, by rw [hts]; rfl, by rw [hvs]; rfl, fun x hx => ?_⟩
        rcases List.mem_cons.1 hx with rfl | hx
        · omega
        · exact hmin x hx

/-! ### Directives in a row -/

theorem now_after_execute (e : Engine σ) (inv : Invocation) (d : Directive) (w : World σ) :
    (after (e.execute inv d) w).now = w.now :=
  (execute_still e inv d w).now

/-- The first directive of a row goes through, or its panic ends the row. -/
theorem after_executeRow_cons (e : Engine σ) (inv : Invocation) (d : Directive) (ds : List Directive)
    (others : List (Nat × Directive)) (w : World σ) :
    after (e.executeRow inv (d :: ds) others) w =
      if (e.execute inv d).Panics w then after (e.execute inv d).attempt w
      else after (e.executeRow inv ds others) (after (e.execute inv d) w) := by
  rw [Engine.executeRow, Engine.executeAll, Run.after_bind, Run.value_bind, Run.after_bind]
  by_cases hpanics : (e.execute inv d).Panics w
  · have hnone : value (e.execute inv d).attempt w = none := hpanics
    rw [if_pos hpanics, hnone]
    rfl
  · obtain ⟨hvalue, hafter⟩ := Run.attempt_of_not_panics hpanics
    rw [if_neg hpanics, hvalue, hafter]
    rfl

/-- A row takes no time. -/
theorem now_after_executeRow (e : Engine σ) (inv : Invocation) (ds : List Directive) (others : List (Nat × Directive))
    (w : World σ) : (after (e.executeRow inv ds others) w).now = w.now := by
  induction ds generalizing w with
  | nil =>
    have hrow : after (e.executeRow inv [] others) w = after (postponeTail inv others) w := rfl
    rw [hrow, after_postponeTail]
  | cons d ds ih =>
    rw [after_executeRow_cons]
    split
    · exact (execute_still_of_panics ‹_›).now
    · exact (ih _).trans (now_after_execute e inv d w)

/-- Directives that are due run in a row, and the others of their tail are put off. -/
theorem executeRow_trail (e : Engine σ) (inv : Invocation) (ds others : List (Nat × Directive))
    (before later : List Task) {w : World σ} (hw : w.tasks = before ++ tailTask inv (ds ++ others) ++ later)
    (hlater : ds = [] → later = []) (hds : ∀ d ∈ ds, d.1 ≤ w.now) :
    ∃ log, Trail e w log (after (e.executeRow inv (ds.map Prod.snd) others) { w with tasks := before ++ later }) := by
  induction ds generalizing w before later with
  | nil =>
    have hrow (v : World σ) : after (e.executeRow inv [] others) v = after (postponeTail inv others) v := rfl
    obtain rfl := hlater rfl
    have hsame : after (postponeTail inv others) { w with tasks := before ++ [] } = w := by
      rw [after_postponeTail, List.append_nil, ← List.append_nil (before ++ _)]
      exact congrArg (fun tasks => { w with tasks }) hw.symm
    rw [List.map_nil, hrow, hsame]
    exact ⟨[], .nil⟩
  | cons d ds ih =>
    obtain ⟨due, d⟩ := d
    have htasks : w.tasks = before ++ ⟨due, inv, .tail ((due, d) :: (ds ++ others))⟩ :: later := by
      rw [hw, List.append_assoc]
      rfl
    have hdue : due ≤ w.now := hds (due, d) List.mem_cons_self
    rw [List.map_cons, after_executeRow_cons]
    split
    · exact ⟨_, (Move.panicked htasks hdue ‹_›).trail⟩
    · have hmove := Move.directive (e := e) htasks hdue ‹_›
      -- behind the directive the others of its tail are the last task
      let v := after (e.execute inv d) { w with tasks := before ++ later }
      rw [after_advance, ← List.append_nil (v.tasks ++ _)] at hmove
      have hnow : v.now = w.now := now_after_execute e inv d _
      obtain ⟨log, hlog⟩ := ih v.tasks [] (w := { v with tasks := v.tasks ++ tailTask inv (ds ++ others) ++ [] }) rfl
        (fun _ => rfl) fun x hx => hnow ▸ hds x (List.mem_cons_of_mem _ hx)
      rw [List.append_nil v.tasks] at hlog
      exact ⟨_, hmove.trail.trans hlog⟩

/-- What an invocation does before it returns is a trail from where it entered. -/
theorem begin_trail (e : Engine σ) (actor : Actor) (args : List Text) (ds : List Directive) (w : World σ) :
    ∃ log, Trail e (after (e.enter actor args ds) w) log (after (e.begin actor args ds) w) := by
  let inv : Invocation := ⟨w.invocations, actor, args⟩
  have hsplit := e.timetable_eq_append w.now ds
  have hrow := executeRow_trail e inv ((Engine.undelayed ds).map fun d => (w.now, d)) (e.delayed w.now ds) w.tasks []
    (w := after (e.enter actor args ds) w)
    (by rw [after_enter, hsplit, List.append_nil]) (fun _ => rfl)
    (by
      rw [after_enter]
      simp)
  rw [List.map_map, List.append_nil, after_enter] at hrow
  have hids : (Engine.undelayed ds).map (Prod.snd ∘ fun d => (w.now, d)) = Engine.undelayed ds := by
    rw [show (Prod.snd ∘ fun d : Directive => (w.now, d)) = id from rfl, List.map_id]
  rw [hids] at hrow
  rw [after_enter]
  exact hrow

/-! ### Running tasks -/

/-- A task that is taken up early waits until it is due. -/
theorem after_runTask_early (e : Engine σ) (t : Task) (w : World σ) :
    after (e.runTask t) { w with now := max w.now t.due } = after (e.runTask t) w := by
  have hclock : after (modify fun w => { w with now := max w.now t.due } : Run σ Unit)
      { w with now := max w.now t.due } =
      after (modify fun w => { w with now := max w.now t.due } : Run σ Unit) w := by
    show ({ w with now := max (max w.now t.due) t.due } : World σ) = { w with now := max w.now t.due }
    rw [Nat.max_assoc, Nat.max_self]
  unfold Engine.runTask
  rw [after_bind, hclock]
  rfl

theorem after_runTask_tail (e : Engine σ) (due : Nat) {inv : Invocation} {ds : List (Nat × Directive)} {w : World σ}
    (h : due ≤ w.now) :
    after (e.runTask ⟨due, inv, .tail ds⟩) w =
      after (e.executeRow inv ((ds.takeWhile fun d => d.1 ≤ w.now).map Prod.snd) (ds.dropWhile fun d => d.1 ≤ w.now))
        w := by
  have hmax : { w with now := max w.now due } = w := by rw [Nat.max_eq_left h]
  have hrun : after (e.runTask ⟨due, inv, .tail ds⟩) w =
      (fun v : World σ => after
        (e.executeRow inv ((ds.takeWhile fun d => d.1 ≤ v.now).map Prod.snd) (ds.dropWhile fun d => d.1 ≤ v.now)) v)
        { w with now := max w.now due } := rfl
  rw [hrun, hmax]

theorem now_after_runTask (e : Engine σ) (t : Task) (w : World σ) :
    (after (e.runTask t) w).now = max w.now t.due := by
  rw [← after_runTask_early]
  obtain ⟨due, inv, work⟩ := t
  let v : World σ := { w with now := max w.now due }
  have hdue : due ≤ v.now := Nat.le_max_right _ _
  show (after (e.runTask ⟨due, inv, work⟩) v).now = v.now
  cases work with
  | tail ds => rw [after_runTask_tail e due hdue, now_after_executeRow]
  | call call =>
    rw [after_runTask_call e inv call hdue]
    split
    · exact (Still.finishCall e inv call _ _).now
    · rfl
  | response call r => rw [after_runTask_response e inv call r hdue, (Still.finishCall e inv call r v).now]

/-- Running any of the tasks is some moves. -/
theorem runTask_trail (e : Engine σ) {w : World σ} (h : Orderly w) {before later : List Task} {t : Task}
    (hw : w.tasks = before ++ t :: later) :
    ∃ log, Trail e w log (after (e.runTask t) { w with tasks := before ++ later }) := by
  have hin := h.tasks t (by rw [hw]; simp)
  -- the clock goes on to the time of the task
  let v : World σ := { w with now := max w.now t.due }
  have hclock : Trail e w _ v := (Move.clock (Nat.le_max_left _ _)).trail
  have hdue : t.due ≤ v.now := Nat.le_max_right _ _
  rw [← after_runTask_early]
  show ∃ log, Trail e w log (after (e.runTask t) { v with tasks := before ++ later })
  obtain ⟨due, inv, work⟩ := t
  cases work with
  | call call => exact ⟨_, hclock.snoc (Move.call hw hdue)⟩
  | response call r => exact ⟨_, hclock.snoc (Move.response hw hdue)⟩
  | tail ds =>
    obtain ⟨d, ds', hds⟩ := hin.tail ds rfl
    obtain rfl : ds = (due, d) :: ds' := hds
    rw [after_runTask_tail e due (w := { v with tasks := before ++ later }) hdue]
    obtain ⟨log, hlog⟩ := executeRow_trail e inv (((due, d) :: ds').takeWhile fun d => d.1 ≤ v.now)
      (((due, d) :: ds').dropWhile fun d => d.1 ≤ v.now) before later (w := v)
      (by
        rw [List.takeWhile_append_dropWhile, List.append_assoc]
        exact hw)
      (fun hnil => by simp [hdue] at hnil) fun x hx => le_of_mem_takeWhile hx
    exact ⟨_, hclock.trans hlog⟩

/-! ### Work -/

theorem totalWork_append (ts us : List Task) : totalWork (ts ++ us) = totalWork ts + totalWork us := by
  induction ts with
  | nil => simp [totalWork]
  | cons t ts ih => simp [totalWork, ih, Nat.add_assoc]

private theorem totalWork_tailTask (inv : Invocation) (ds : List (Nat × Directive)) :
    totalWork (tailTask inv ds) = 3 * ds.length := by
  cases ds <;> simp [tailTask, totalWork, taskWork]

/-- A directive of a row adds a call at most. -/
private theorem executeRow_work (e : Engine σ) (inv : Invocation) (ds : List Directive)
    (others : List (Nat × Directive)) (w : World σ) :
    totalWork (after (e.executeRow inv ds others) w).tasks ≤
      totalWork w.tasks + 2 * ds.length + 3 * others.length := by
  induction ds generalizing w with
  | nil =>
    have hrow : after (e.executeRow inv [] others) w = after (postponeTail inv others) w := rfl
    rw [hrow, after_postponeTail, totalWork_append, totalWork_tailTask]
    exact Nat.le_refl _
  | cons d ds ih =>
    rw [after_executeRow_cons, List.length_cons]
    split
    · rw [(execute_still_of_panics ‹_›).tasks]
      omega
    · have hrest := ih (after (e.execute inv d) w)
      rw [(execute_still e inv d w).tasks, totalWork_append] at hrest
      have hcall : totalWork ((e.startedCall? inv d w).toList.map fun call => ⟨w.now, inv, .call call⟩) ≤ 2 := by
        cases e.startedCall? inv d w <;> simp [totalWork, taskWork]
      omega

/-- A task costs more than what it adds. -/
theorem runTask_work (e : Engine σ) {w : World σ} {t : Task} (hin : t.InOrder w) (ts : List Task) :
    totalWork (after (e.runTask t) { w with tasks := ts }).tasks < taskWork t + totalWork ts := by
  rw [← after_runTask_early]
  obtain ⟨due, inv, work⟩ := t
  let u : World σ := { w with tasks := ts, now := max w.now due }
  have hdue : due ≤ u.now := Nat.le_max_right _ _
  have hts : u.tasks = ts := rfl
  show totalWork (after (e.runTask ⟨due, inv, work⟩) u).tasks < _
  cases work with
  | tail ds =>
    obtain ⟨d, ds', hds⟩ := hin.tail ds rfl
    obtain rfl : ds = (due, d) :: ds' := hds
    have hwork := executeRow_work e inv ((((due, d) :: ds').takeWhile fun d => d.1 ≤ u.now).map Prod.snd)
      (((due, d) :: ds').dropWhile fun d => d.1 ≤ u.now) u
    have hsplit := congrArg List.length
      (List.takeWhile_append_dropWhile (p := fun d : Nat × Directive => decide (d.1 ≤ u.now)) (l := (due, d) :: ds'))
    rw [after_runTask_tail e due hdue]
    simp only [hts, List.length_map, List.length_append, List.takeWhile_cons, List.dropWhile_cons, hdue,
      decide_true, if_true, List.length_cons, taskWork] at *
    omega
  | call call =>
    rw [after_runTask_call e inv call hdue]
    split
    · rw [(Still.finishCall e inv call _ _).tasks]
      exact Nat.lt_add_of_pos_left (Nat.succ_pos 1)
    · simp only [totalWork_append, totalWork, taskWork, hts]
      omega
  | response call r =>
    rw [after_runTask_response e inv call r hdue, (Still.finishCall e inv call r u).tasks, hts]
    exact Nat.lt_add_of_pos_left Nat.one_pos

theorem runTask_work_lt (e : Engine σ) {w : World σ} (h : Orderly w) {before later : List Task} {t : Task}
    (hw : w.tasks = before ++ t :: later) :
    totalWork (after (e.runTask t) { w with tasks := before ++ later }).tasks < totalWork w.tasks := by
  have hwork := runTask_work e (h.tasks t (by rw [hw]; simp)) (before ++ later)
  rw [hw, List.append_cons]
  simp only [totalWork_append] at hwork ⊢
  have : totalWork [t] = taskWork t := by simp [totalWork]
  omega

/-- The first task, if there is one, is not one that `goOn` lets run. -/
def Stops (goOn : World σ → Task → Bool) (w : World σ) : Prop :=
  ∀ t ts, takeFirst? w.tasks = some (t, ts) → goOn w t = false

theorem after_runWhile_of_none {goOn : World σ → Task → Bool} {n : Nat} {e : Engine σ} {w : World σ}
    (h : takeFirst? w.tasks = none) : after (e.runWhile goOn (n + 1)) w = w := by
  rw [Engine.runWhile, Run.after_bind]
  simp only [Run.value_get, Run.after_get, h]
  rfl

theorem after_runWhile_of_some {goOn : World σ → Task → Bool} {n : Nat} {e : Engine σ} {w : World σ}
    {t : Task} {ts : List Task} (h : takeFirst? w.tasks = some (t, ts)) :
    after (e.runWhile goOn (n + 1)) w =
      if goOn w t then after (e.runWhile goOn n) (after (e.runTask t) { w with tasks := ts }) else w := by
  rw [Engine.runWhile, Run.after_bind]
  simp only [Run.value_get, Run.after_get, h]
  by_cases hgo : goOn w t = true
  · simp only [hgo, if_true]
    rfl
  · simp only [hgo]
    rfl

private theorem after_runWhile (e : Engine σ) (goOn : World σ → Task → Bool) (n : Nat) (w : World σ) :
    (Stops goOn w ∧ after (e.runWhile goOn (n + 1)) w = w) ∨
      ∃ t before later, w.tasks = before ++ t :: later ∧ goOn w t = true ∧ (∀ u ∈ w.tasks, t.due ≤ u.due) ∧
        after (e.runWhile goOn (n + 1)) w =
          after (e.runWhile goOn n) (after (e.runTask t) { w with tasks := before ++ later }) := by
  cases hfirst : takeFirst? w.tasks with
  | none => exact Or.inl ⟨by simp [Stops, hfirst], after_runWhile_of_none hfirst⟩
  | some r =>
    obtain ⟨t, ts⟩ := r
    obtain ⟨before, later, hw, rfl, hmin⟩ := takeFirst?_eq_some hfirst
    by_cases hgo : goOn w t = true
    · refine Or.inr ⟨t, before, later, hw, hgo, hmin, ?_⟩
      rw [after_runWhile_of_some hfirst, if_pos hgo]
    · refine Or.inl ⟨?_, ?_⟩
      · intro t' ts' h'
        rw [hfirst] at h'
        cases h'
        simpa using hgo
      · rw [after_runWhile_of_some hfirst, if_neg hgo]

/-- Running tasks is some moves. -/
theorem runWhile_trail (e : Engine σ) (goOn : World σ → Task → Bool) (n : Nat) {w : World σ} (h : Orderly w) :
    ∃ log, Trail e w log (after (e.runWhile goOn n) w) := by
  induction n generalizing w with
  | zero => exact ⟨[], .nil⟩
  | succ n ih =>
    rcases after_runWhile e goOn n w with ⟨-, hr⟩ | ⟨t, before, later, hw, -, -, hr⟩
    · exact ⟨[], by rw [hr]; exact .nil⟩
    · obtain ⟨log, hlog⟩ := runTask_trail e h hw
      obtain ⟨log', hlog'⟩ := ih (hlog.orderly h)
      exact ⟨log ++ log', hr ▸ hlog.trans hlog'⟩

/-- With enough fuel the run ends before a task that `goOn` does not let run. -/
theorem runWhile_stops (e : Engine σ) (goOn : World σ → Task → Bool) {n : Nat} {w : World σ} (h : Orderly w)
    (hn : totalWork w.tasks ≤ n) : Stops goOn (after (e.runWhile goOn n) w) := by
  induction n generalizing w with
  | zero =>
    intro t ts hfirst
    obtain ⟨before, later, hw, -, -⟩ := takeFirst?_eq_some (show takeFirst? w.tasks = some (t, ts) from hfirst)
    have hwork := runTask_work_lt e h hw
    omega
  | succ n ih =>
    rcases after_runWhile e goOn n w with ⟨hstops, hr⟩ | ⟨t, before, later, hw, -, -, hr⟩
    · rwa [hr]
    · obtain ⟨_, hlog⟩ := runTask_trail e h hw
      have hwork := runTask_work_lt e h hw
      rw [hr]
      exact ih (hlog.orderly h) (by omega)

/-- The clock stops where the last task that may run is due. -/
private theorem now_after_runWhile (e : Engine σ) {goOn : World σ → Task → Bool} {time : Nat}
    (htime : ∀ w t, goOn w t = true → t.due ≤ time) (n : Nat) {w : World σ} (hw : w.now ≤ time) :
    (after (e.runWhile goOn n) w).now ≤ time := by
  induction n generalizing w with
  | zero => exact hw
  | succ n ih =>
    rcases after_runWhile e goOn n w with ⟨-, hr⟩ | ⟨t, before, later, -, hgo, -, hr⟩
    · rwa [hr]
    · rw [hr]
      refine ih ?_
      rw [now_after_runTask]
      exact Nat.max_le.2 ⟨hw, htime w t hgo⟩

/-- Sleeping is some moves. -/
theorem sleep_trail (e : Engine σ) (ms : Nat) {w : World σ} (h : Orderly w) :
    ∃ log, Trail e w log (after (e.sleep ms) w) := by
  let goOn (_ : World σ) (t : Task) : Bool := t.due ≤ w.now + ms
  obtain ⟨log, hlog⟩ := runWhile_trail e goOn (totalWork w.tasks) h
  have hnow : (after (e.runWhile goOn (totalWork w.tasks)) w).now ≤ w.now + ms :=
    now_after_runWhile e (fun _ _ hgo => of_decide_eq_true hgo) _ (Nat.le_add_right _ _)
  exact ⟨_, hlog.snoc (.clock hnow)⟩

end DirectiveEngine
