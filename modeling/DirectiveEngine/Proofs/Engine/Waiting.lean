import DirectiveEngine.Proofs.Engine.Progress

/-!
# Waiting

Waiting for an invocation joins its directives and then its calls in rounds, until a round finds none.  Each join runs
the first task as long as what it waits for is there, so a longer run of tasks goes on from where a shorter one stopped
(`after_runTasks_runTasks`).  When the directives have run no more calls are started, and a round leaves none of those
that it found (`openCalls_after_joinAll`).  So nothing of the invocation is left in the end (`tasks_after_wait`), and to
wait is to run tasks as long as there is one of the invocation (`after_wait`).
-/

namespace DirectiveEngine

variable {σ : Type} {e : Engine σ} {w : World σ} {goOn goOn' : World σ → Task → Bool} {id : Nat}

open Run (after)
open Engine (takeFirst? totalWork hasTail openCalls workCall?)

/-! ### Longer and shorter runs -/

/-- More fuel than there is work makes no difference. -/
private theorem after_runWhile_congr {n m : Nat} (h : Orderly w) (hn : totalWork w.tasks ≤ n)
    (hm : totalWork w.tasks ≤ m) : after (e.runWhile goOn n) w = after (e.runWhile goOn m) w := by
  induction n generalizing m w with
  | zero =>
    have hnone : takeFirst? w.tasks = none := by
      by_contra hsome
      obtain ⟨⟨t, ts⟩, hfirst⟩ := Option.ne_none_iff_exists'.1 hsome
      obtain ⟨before, later, hw, -, -⟩ := takeFirst?_eq_some hfirst
      have := runTask_work_lt e h hw
      omega
    cases m with
    | zero => rfl
    | succ m => exact (after_runWhile_of_none hnone).symm
  | succ n ih =>
    cases hfirst : takeFirst? w.tasks with
    | none =>
      rw [after_runWhile_of_none hfirst]
      cases m with
      | zero => rfl
      | succ m => exact (after_runWhile_of_none hfirst).symm
    | some r =>
      obtain ⟨t, ts⟩ := r
      obtain ⟨before, later, hw, rfl, -⟩ := takeFirst?_eq_some hfirst
      obtain ⟨_, hlog⟩ := runTask_trail e h hw
      have hwork := runTask_work_lt e h hw
      cases m with
      | zero => omega
      | succ m =>
        rw [after_runWhile_of_some hfirst, after_runWhile_of_some hfirst]
        split
        · exact ih (hlog.orderly h) (by omega) (by omega)
        · rfl

theorem after_runTasks_of_some (h : Orderly w) {t : Task} {ts : List Task} (hfirst : takeFirst? w.tasks = some (t, ts))
    (hgo : goOn w t = true) :
    after (e.runTasks goOn) w = after (e.runTasks goOn) (after (e.runTask t) { w with tasks := ts }) := by
  obtain ⟨before, later, hw, rfl, -⟩ := takeFirst?_eq_some hfirst
  obtain ⟨_, hlog⟩ := runTask_trail e h hw
  have hwork := runTask_work_lt e h hw
  have hsome : after (e.runWhile goOn (totalWork w.tasks + 1)) w = _ := after_runWhile_of_some hfirst
  rw [if_pos hgo] at hsome
  calc after (e.runTasks goOn) w
    _ = after (e.runWhile goOn (totalWork w.tasks + 1)) w := after_runWhile_congr h (Nat.le_refl _) (Nat.le_succ _)
    _ = after (e.runWhile goOn (totalWork w.tasks)) (after (e.runTask t) { w with tasks := before ++ later }) := hsome
    _ = _ := after_runWhile_congr (hlog.orderly h) (Nat.le_of_lt hwork) (Nat.le_refl _)

/-- A run of tasks stops at once, or the first task runs. -/
private theorem stops_or (goOn : World σ → Task → Bool) (w : World σ) :
    Stops goOn w ∨ ∃ t before later, takeFirst? w.tasks = some (t, before ++ later) ∧
      w.tasks = before ++ t :: later ∧ (∀ u ∈ w.tasks, t.due ≤ u.due) ∧ goOn w t = true := by
  cases hfirst : takeFirst? w.tasks with
  | none => exact .inl (by simp [Stops, hfirst])
  | some r =>
    obtain ⟨t, ts⟩ := r
    obtain ⟨before, later, hw, rfl, hmin⟩ := takeFirst?_eq_some hfirst
    cases hgo : goOn w t with
    | true => exact .inr ⟨t, before, later, rfl, hw, hmin, hgo⟩
    | false =>
      refine .inl fun t' ts' hfirst' => ?_
      rw [hfirst] at hfirst'
      cases hfirst'
      exact hgo

theorem after_runTasks_of_stops (h : Stops goOn w) : after (e.runTasks goOn) w = w := by
  show after (e.runWhile goOn (totalWork w.tasks)) w = w
  cases totalWork w.tasks with
  | zero => rfl
  | succ n =>
    cases hfirst : takeFirst? w.tasks with
    | none => exact after_runWhile_of_none hfirst
    | some r =>
      obtain ⟨t, ts⟩ := r
      rw [after_runWhile_of_some hfirst, if_neg (by simp [h t ts hfirst])]

/-- A run of tasks goes on from where one stopped that stops earlier. -/
theorem after_runTasks_runTasks (h : Orderly w) (hgo : ∀ w t, goOn' w t = true → goOn w t = true) :
    after (e.runTasks goOn) (after (e.runTasks goOn') w) = after (e.runTasks goOn) w := by
  induction hn : totalWork w.tasks using Nat.strong_induction_on generalizing w with
  | _ n ih =>
    rcases stops_or goOn' w with hstops | ⟨t, before, later, hfirst, hw, -, hgo'⟩
    · rw [after_runTasks_of_stops hstops]
    · rw [after_runTasks_of_some h hfirst hgo', after_runTasks_of_some h hfirst (hgo w t hgo')]
      obtain ⟨_, hlog⟩ := runTask_trail e h hw
      exact ih _ (hn ▸ runTask_work_lt e h hw) (hlog.orderly h) rfl

/-- What every task keeps that is run, the first that is due, is kept while tasks run. -/
theorem after_runTasks_induction {P : World σ → Prop} (h : Orderly w) (hw : P w)
    (htask : ∀ {w t before later}, Orderly w → P w → w.tasks = before ++ t :: later → (∀ u ∈ w.tasks, t.due ≤ u.due) →
      P (after (e.runTask t) { w with tasks := before ++ later })) :
    Orderly (after (e.runTasks goOn) w) ∧ P (after (e.runTasks goOn) w) := by
  induction hn : totalWork w.tasks using Nat.strong_induction_on generalizing w with
  | _ n ih =>
    rcases stops_or goOn w with hstops | ⟨t, before, later, hfirst, htasks, hmin, hgo⟩
    · rw [after_runTasks_of_stops hstops]
      exact ⟨h, hw⟩
    · rw [after_runTasks_of_some h hfirst hgo]
      obtain ⟨_, hlog⟩ := runTask_trail e h htasks
      exact ih _ (hn ▸ runTask_work_lt e h htasks) (hlog.orderly h) (htask h hw htasks hmin) rfl

theorem runTasks_stops (h : Orderly w) : Stops goOn (after (e.runTasks goOn) w) :=
  runWhile_stops e goOn h (Nat.le_refl _)

/-! ### What a task leaves -/

/-- A task for a call puts nothing off but the response to it, and directives put work of their invocation off. -/
structure Task.Leaves (t : Task) (new : List Task) : Prop where
  invocation : ∀ x ∈ new, x.invocation = t.invocation
  call : workCall? t.work ≠ none → ∀ x ∈ new, workCall? x.work = workCall? t.work

private theorem executeRow_tasks (e : Engine σ) (inv : Invocation) (ds : List Directive)
    (others : List (Nat × Directive)) (w : World σ) :
    ∃ new, (after (e.executeRow inv ds others) w).tasks = w.tasks ++ new ∧ ∀ x ∈ new, x.invocation = inv := by
  induction ds generalizing w with
  | nil =>
    have hrow : after (e.executeRow inv [] others) w = after (Engine.postponeTail inv others) w := rfl
    rw [hrow, after_postponeTail]
    exact ⟨_, rfl, fun x hx => (of_mem_tailTask hx).1⟩
  | cons d ds ih =>
    rw [after_executeRow_cons]
    split
    · exact ⟨[], by rw [(execute_still_of_panics ‹_›).tasks, List.append_nil], by simp⟩
    · obtain ⟨new, hnew, hinv⟩ := ih (after (e.execute inv d) w)
      rw [(execute_still e inv d w).tasks, List.append_assoc] at hnew
      refine ⟨_, hnew, fun x hx => ?_⟩
      rcases List.mem_append.1 hx with hx | hx
      · obtain ⟨_, -, rfl⟩ := List.mem_map.1 hx
        rfl
      · exact hinv x hx

theorem runTask_leaves (e : Engine σ) (t : Task) (w : World σ) :
    ∃ new, (after (e.runTask t) w).tasks = w.tasks ++ new ∧ t.Leaves new := by
  rw [← after_runTask_early]
  obtain ⟨due, inv, work⟩ := t
  let u : World σ := { w with now := max w.now due }
  have hdue : due ≤ u.now := Nat.le_max_right _ _
  show ∃ new, (after (e.runTask ⟨due, inv, work⟩) u).tasks = u.tasks ++ new ∧ _
  cases work with
  | tail ds =>
    rw [after_runTask_tail e due hdue]
    obtain ⟨new, hnew, hinv⟩ := executeRow_tasks e inv _ _ u
    exact ⟨new, hnew, hinv, fun h => absurd rfl h⟩
  | call call =>
    rw [after_runTask_call e inv call hdue]
    split
    · exact ⟨[], by rw [(Still.finishCall e inv call _ _).tasks, List.append_nil]; rfl, by simp, by simp⟩
    · exact ⟨_, rfl, by simp, by simp [workCall?]⟩
  | response call r =>
    rw [after_runTask_response e inv call r hdue, (Still.finishCall e inv call r u).tasks]
    exact ⟨[], (List.append_nil _).symm, by simp, by simp⟩

/-! ### The calls that are open -/

theorem mem_openCalls_iff {call : Call} :
    call ∈ openCalls id w ↔ ∃ t ∈ w.tasks, t.invocation.id = id ∧ workCall? t.work = some call := by
  unfold Engine.openCalls
  rw [List.mem_filterMap]
  refine exists_congr fun t => and_congr_right fun _ => ?_
  by_cases h : t.invocation.id = id <;> simp [h]

theorem hasTail_eq_false_iff :
    hasTail id w = false ↔ ∀ t ∈ w.tasks, t.invocation.id = id → workCall? t.work ≠ none := by
  simp [Engine.hasTail]

/-- The directives of an invocation have run, and no other calls of it are open than were in another world. -/
structure Drains (id : Nat) (u w : World σ) : Prop where
  noTail : hasTail id w = false
  calls : openCalls id w ⊆ openCalls id u

/-- When the directives of an invocation have run, no task starts a call of it. -/
theorem Drains.runTask {u : World σ} (h : Drains id u w) {t : Task} {before later : List Task}
    (hw : w.tasks = before ++ t :: later) : Drains id u (after (e.runTask t) { w with tasks := before ++ later }) := by
  obtain ⟨new, hnew, hleaves⟩ := runTask_leaves e t { w with tasks := before ++ later }
  have hold {x : Task} (hx : x ∈ before ++ later) : x ∈ w.tasks := by
    rw [hw]
    rcases List.mem_append.1 hx with hx | hx <;> simp [hx]
  have ht : t ∈ w.tasks := by rw [hw]; simp
  -- of the invocation there is no tail, so a new task of it is about the call of `t`
  have hcall {x : Task} (hx : x ∈ new) (hid : x.invocation.id = id) :
      t.invocation.id = id ∧ workCall? t.work ≠ none ∧ workCall? x.work = workCall? t.work := by
    rw [hleaves.invocation x hx] at hid
    have hsome := hasTail_eq_false_iff.1 h.noTail t ht hid
    exact ⟨hid, hsome, hleaves.call hsome x hx⟩
  constructor
  · rw [hasTail_eq_false_iff, hnew]
    intro x hx hid
    rcases List.mem_append.1 hx with hx | hx
    · exact hasTail_eq_false_iff.1 h.noTail x (hold hx) hid
    · obtain ⟨-, hsome, heq⟩ := hcall hx hid
      rwa [heq]
  · intro call hmem
    obtain ⟨x, hx, hid, hxcall⟩ := mem_openCalls_iff.1 hmem
    rw [hnew] at hx
    rcases List.mem_append.1 hx with hx | hx
    · exact h.calls (mem_openCalls_iff.2 ⟨x, hold hx, hid, hxcall⟩)
    · obtain ⟨htid, -, heq⟩ := hcall hx hid
      exact h.calls (mem_openCalls_iff.2 ⟨t, ht, htid, by rw [← heq, hxcall]⟩)

/-- A call that has been joined is not open any more. -/
theorem not_mem_openCalls_after_join (h : Orderly w) (call : Call) : call ∉ openCalls id (after (e.join id call) w) := by
  intro hmem
  have hstops : Stops (fun w _ => decide (call ∈ openCalls id w)) (after (e.join id call) w) := runTasks_stops h
  cases hfirst : takeFirst? (after (e.join id call) w).tasks with
  | none =>
    obtain ⟨t, ht, -⟩ := mem_openCalls_iff.1 hmem
    rw [takeFirst?_eq_none.1 hfirst] at ht
    simp at ht
  | some r => exact of_decide_eq_false (hstops r.1 r.2 hfirst) hmem

theorem Drains.joinAll {u : World σ} (hu : Orderly w) (h : Drains id u w) (calls : List Call) :
    Orderly (after (e.joinAll id calls) w) ∧ Drains id u (after (e.joinAll id calls) w) ∧
      ∀ call ∈ calls, call ∉ openCalls id (after (e.joinAll id calls) w) := by
  induction calls generalizing u w with
  | nil => exact ⟨hu, h, by simp⟩
  | cons call calls ih =>
    let v := after (e.join id call) w
    have hjoin (u : World σ) (h : Drains id u w) : Orderly v ∧ Drains id u v :=
      after_runTasks_induction hu h fun _ h hw _ => h.runTask hw
    have hgone : call ∉ openCalls id v := not_mem_openCalls_after_join hu call
    obtain ⟨hlast, hdrains, hrest⟩ := ih (hjoin u h).1 (u := v) ⟨(hjoin u h).2.noTail, List.Subset.refl _⟩
    refine ⟨hlast, ⟨hdrains.noTail, List.Subset.trans hdrains.calls (hjoin u h).2.calls⟩, fun c hc => ?_⟩
    rcases List.mem_cons.1 hc with rfl | hc
    · exact fun hmem => hgone (hdrains.calls hmem)
    · exact hrest c hc

/-- One round leaves no call open, if the directives of the invocation have run. -/
theorem openCalls_after_joinAll (hw : Orderly w) (h : hasTail id w = false) :
    let v := after (e.joinAll id (openCalls id w)) w
    Orderly v ∧ hasTail id v = false ∧ openCalls id v = [] := by
  obtain ⟨hv, hdrains, hgone⟩ := Drains.joinAll (e := e) hw ⟨h, List.Subset.refl _⟩ (openCalls id w)
  exact ⟨hv, hdrains.noTail, List.eq_nil_iff_forall_not_mem.2 fun call hmem => hgone call (hdrains.calls hmem) hmem⟩

/-! ### Rounds -/

theorem after_drain_of_nil (h : openCalls id w = []) (n : Nat) : after (e.drain id n) w = w := by
  cases n with
  | zero => rfl
  | succ n =>
    have hround : after (e.drain id (n + 1)) w = after
        (if !(openCalls id w).isEmpty then do
          e.joinAll id (openCalls id w)
          e.drain id n
        else pure ()) w := rfl
    rw [hround, h]
    rfl

theorem after_drain_succ (h : openCalls id w ≠ []) (n : Nat) :
    after (e.drain id (n + 1)) w = after (e.drain id n) (after (e.joinAll id (openCalls id w)) w) := by
  have hround : after (e.drain id (n + 1)) w = after
      (if !(openCalls id w).isEmpty then do
        e.joinAll id (openCalls id w)
        e.drain id n
      else pure ()) w := rfl
  rw [hround, if_pos (by simpa using h)]
  rfl

private theorem totalWork_pos_of_openCalls (h : openCalls id w ≠ []) : 0 < totalWork w.tasks := by
  obtain ⟨call, hmem⟩ := List.exists_mem_of_ne_nil _ h
  obtain ⟨t, ht, -, hcall⟩ := mem_openCalls_iff.1 hmem
  obtain ⟨before, later, hw⟩ := List.append_of_mem ht
  have hpos : 0 < Engine.taskWork t := by
    obtain ⟨_, _, work⟩ := t
    cases work with
    | tail ds => simp [workCall?] at hcall
    | call call => exact Nat.succ_pos 1
    | response call r => exact Nat.one_pos
  rw [hw, totalWork_append]
  unfold Engine.totalWork
  omega

theorem openCalls_after_drain (hw : Orderly w) (h : hasTail id w = false) {n : Nat} (hn : totalWork w.tasks ≤ n) :
    hasTail id (after (e.drain id n) w) = false ∧ openCalls id (after (e.drain id n) w) = [] := by
  by_cases hnil : openCalls id w = []
  · rw [after_drain_of_nil hnil]
    exact ⟨h, hnil⟩
  · have hpos := totalWork_pos_of_openCalls hnil
    obtain ⟨n, rfl⟩ : ∃ k, n = k + 1 := ⟨n - 1, by omega⟩
    obtain ⟨-, htail, hcalls⟩ := openCalls_after_joinAll (e := e) hw h
    rw [after_drain_succ hnil, after_drain_of_nil hcalls]
    exact ⟨htail, hcalls⟩

/-! ### Waiting -/

/-- When an invocation has been waited for, nothing of it is left to do. -/
theorem tasks_after_wait (e : Engine σ) (id : Nat) {w : World σ} (h : Orderly w) :
    ∀ t ∈ (after (e.wait id) w).tasks, t.invocation.id ≠ id := by
  let v := after (e.runTasks fun w _ => hasTail id w) w
  have hv : Orderly v := (after_runTasks_induction (P := fun _ => True) h trivial fun _ _ _ _ => trivial).1
  have htail : hasTail id v = false := by
    by_contra hsome
    have hstops : Stops (fun w _ => hasTail id w) v := runTasks_stops h
    cases hfirst : takeFirst? v.tasks with
    | none => simp [Engine.hasTail, takeFirst?_eq_none.1 hfirst] at hsome
    | some r => exact hsome (hstops r.1 r.2 hfirst)
  obtain ⟨hdone, hcalls⟩ := openCalls_after_drain (e := e) hv htail (Nat.le_refl _)
  intro t ht hid
  have hsome := hasTail_eq_false_iff.1 hdone t ht hid
  obtain ⟨call, hcall⟩ := Option.ne_none_iff_exists'.1 hsome
  have hmem : call ∈ openCalls id (after (e.drain id (totalWork v.tasks)) v) :=
    mem_openCalls_iff.2 ⟨t, ht, hid, hcall⟩
  rw [hcalls] at hmem
  simp at hmem

/-- Some task of an invocation is left. -/
private def isLeft (id : Nat) (w : World σ) (_ : Task) : Bool :=
  w.tasks.any fun t => t.invocation.id == id

private theorem isLeft_of_openCalls {call : Call} {t : Task} (h : call ∈ openCalls id w) : isLeft id w t = true := by
  obtain ⟨t, ht, hid, -⟩ := mem_openCalls_iff.1 h
  exact List.any_eq_true.2 ⟨t, ht, by simpa using hid⟩

/-- Where a run of tasks as long as one of an invocation is left would end is where it would end from another world. -/
private structure LeadsOn (e : Engine σ) (id : Nat) (u w : World σ) : Prop where
  orderly : Orderly w
  same : after (e.runTasks (isLeft id)) w = after (e.runTasks (isLeft id)) u

private theorem LeadsOn.runTasks {u : World σ} (h : LeadsOn e id u w) (hgo : ∀ w t, goOn w t = true → isLeft id w t) :
    LeadsOn e id u (after (e.runTasks goOn) w) where
  orderly := (after_runTasks_induction (P := fun _ => True) h.orderly trivial fun _ _ _ _ => trivial).1
  same := (after_runTasks_runTasks h.orderly hgo).trans h.same

private theorem LeadsOn.joinAll {u : World σ} (h : LeadsOn e id u w) (calls : List Call) :
    LeadsOn e id u (after (e.joinAll id calls) w) := by
  induction calls generalizing w with
  | nil => exact h
  | cons call calls ih => exact ih (h.runTasks fun _ _ hopen => isLeft_of_openCalls (of_decide_eq_true hopen))

private theorem LeadsOn.drain {u : World σ} (h : LeadsOn e id u w) (n : Nat) :
    LeadsOn e id u (after (e.drain id n) w) := by
  induction n generalizing w with
  | zero => exact h
  | succ n ih =>
    by_cases hnil : openCalls id w = []
    · rwa [after_drain_of_nil hnil]
    · rw [after_drain_succ hnil]
      exact ih (h.joinAll _)

/-- To wait for an invocation is to run tasks as long as there is one of it. -/
theorem after_wait (e : Engine σ) (id : Nat) {w : World σ} (h : Orderly w) :
    after (e.wait id) w = after (e.runTasks fun w _ => w.tasks.any fun t => t.invocation.id == id) w := by
  let v := after (e.runTasks fun w _ => hasTail id w) w
  have hleads : LeadsOn e id w (after (e.wait id) w) := by
    have hv : LeadsOn e id w v := LeadsOn.runTasks ⟨h, rfl⟩ fun w _ htail => by
      obtain ⟨t, ht, hid⟩ := List.any_eq_true.1 htail
      exact List.any_eq_true.2 ⟨t, ht, (Bool.and_eq_true_iff.1 hid).1⟩
    exact hv.drain (totalWork v.tasks)
  -- nothing of the invocation is left, so the longer run stops at once
  have hstops : Stops (isLeft id) (after (e.wait id) w) := by
    intro t ts _
    have hnone := tasks_after_wait e id h
    simpa [isLeft] using hnone
  rw [← after_runTasks_of_stops (e := e) hstops]
  exact hleads.same

/-- Waiting is some moves. -/
theorem wait_trail (e : Engine σ) (id : Nat) {w : World σ} (h : Orderly w) :
    ∃ log, Trail e w log (after (e.wait id) w) := by
  rw [after_wait e id h]
  exact runWhile_trail e _ _ h

end DirectiveEngine
