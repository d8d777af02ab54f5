import DirectiveEngine.Proofs.Engine.History
import DirectiveEngine.Proofs.Engine.Tasks

/-!
# Trails

A trail is a run of an engine with everything that happens on the way: an entry holds the world before a move, what the
move does, and the world behind it.  A `Move` lets an invocation enter with all its directives still to come, runs one
directive that is due, begins or ends a webhook call, denies a bundle, changes the host or a variable from outside, or
lets time pass; the order of moves is open, and nothing has to happen when it is due.  All that the history gains on a
trail is noted in its entries (`Trail.history`), and the directives that it runs of an invocation are the first of those
that the invocation has yet to run (`Trail.pending`).
-/

namespace DirectiveEngine

variable {σ : Type} {e : Engine σ} {u v w : World σ}

open Run (after)

/-! ### Moves -/

/-- What a move does. -/
inductive Act where
  | enter (inv : Invocation)
  /-- A directive runs, and starts a call if it is a webhook that passes its gate. -/
  | directive (inv : Invocation) (d : Directive) (started : Option Call)
  /-- The host panics in a directive, which ends its invocation. -/
  | panicked (inv : Invocation) (d : Directive)
  | call (inv : Invocation) (call : Call) (outcome : WebhookOutcome)
  | response (inv : Invocation) (call : Call) (result : Except HostError WebhookResponse)
  | denied (actor : Actor)
  | outside
  | clock

namespace Act

/-- In whose name something is done. -/
def invocation? : Act → Option Invocation
  | enter inv => some inv
  | directive inv _ _ => some inv
  | panicked inv _ => some inv
  | call inv _ _ => some inv
  | response inv _ _ => some inv
  | denied _ => none
  | outside => none
  | clock => none

def ran? : Act → Option (Invocation × Directive)
  | directive inv d _ => some (inv, d)
  | _ => none

/-- The directive that runs of an invocation. -/
def directiveOf? (inv : Invocation) (a : Act) : Option Directive :=
  (a.ran?.filter fun x => x.1 = inv).map Prod.snd

/-- How many invocations enter. -/
def entering : Act → Nat
  | enter _ => 1
  | _ => 0

end Act

inductive Move (e : Engine σ) (u : World σ) : Act → World σ → Prop where
  | enter (actor : Actor) (args : List Text) (ds : List Directive) :
      Move e u (.enter ⟨u.invocations, actor, args⟩) (after (e.enter actor args ds) u)
  | directive {before later : List Task} {inv : Invocation} {due : Nat} {d : Directive}
      {ds : List (Nat × Directive)} (htasks : u.tasks = before ++ ⟨due, inv, .tail ((due, d) :: ds)⟩ :: later)
      (hdue : due ≤ u.now) (hran : ¬ (e.execute inv d).Panics { u with tasks := before ++ later }) :
      Move e u (.directive inv d (e.startedCall? inv d { u with tasks := before ++ later }))
        (after (e.advance inv d ds) { u with tasks := before ++ later })
  | panicked {before later : List Task} {inv : Invocation} {due : Nat} {d : Directive}
      {ds : List (Nat × Directive)} (htasks : u.tasks = before ++ ⟨due, inv, .tail ((due, d) :: ds)⟩ :: later)
      (hdue : due ≤ u.now) (hpanics : (e.execute inv d).Panics { u with tasks := before ++ later }) :
      Move e u (.panicked inv d) (after (e.execute inv d).attempt { u with tasks := before ++ later })
  | call {before later : List Task} {inv : Invocation} {due : Nat} {call : Call}
      (htasks : u.tasks = before ++ ⟨due, inv, .call call⟩ :: later) (hdue : due ≤ u.now) :
      Move e u (.call inv call (e.host.call call.request u.host).1)
        (after (e.runTask ⟨due, inv, .call call⟩) { u with tasks := before ++ later })
  | response {before later : List Task} {inv : Invocation} {due : Nat} {call : Call}
      {result : Except HostError WebhookResponse}
      (htasks : u.tasks = before ++ ⟨due, inv, .response call result⟩ :: later) (hdue : due ≤ u.now) :
      Move e u (.response inv call result)
        (after (e.runTask ⟨due, inv, .response call result⟩) { u with tasks := before ++ later })
  | denied (actor : Actor) : Move e u (.denied actor) (after (e.tell actor Engine.permissionDenied .red) u)
  | outside (host : σ) (store : Store) : Move e u .outside { u with host, store }
  | clock {now : Nat} (hnow : u.now ≤ now) : Move e u .clock { u with now }

theorem after_tell_still (e : Engine σ) (actor : Actor) (t : Text) (color : Color) (w : World σ) :
    Still w (after (e.tell actor t color) w) :=
  ((Still.frame e ⟨0, actor, []⟩).tell actor t color).after w

/-- Where a directive runs, its invocation is executed in the world without the task that held the directive. -/
theorem Move.directive_eq {a : Act} (h : Move e u a w) {inv : Invocation} {d : Directive}
    (ha : a.directiveOf? inv = some d) :
    ∃ tasks ds, a = .directive inv d (e.startedCall? inv d { u with tasks }) ∧
      w = after (e.advance inv d ds) { u with tasks } := by
  obtain ⟨x, hx, rfl⟩ := Option.map_eq_some_iff.1 ha
  obtain ⟨hran, hinv⟩ := Option.filter_eq_some_iff.1 hx
  obtain rfl : x.1 = inv := of_decide_eq_true hinv
  clear ha hx
  cases h with
  | directive =>
    cases hran
    exact ⟨_, _, rfl, rfl⟩
  | enter | panicked | call | response | denied | outside | clock => simp [Act.ran?] at hran

/-! ### What is noted -/

/-- The events of a move, the first thing first. -/
inductive Engine.Noted (e : Engine σ) (now : Nat) : Act → List (Nat × Event) → Prop where
  | enter (inv : Invocation) : Noted e now (.enter inv) []
  | directive {inv : Invocation} {evs : List (Nat × Event)} (h : ∀ x ∈ evs, e.Performs inv x.2) (d : Directive)
      (started : Option Call) : Noted e now (.directive inv d started) evs
  | panicked {inv : Invocation} {evs : List (Nat × Event)} (h : ∀ x ∈ evs, e.NotesBefore inv x.2) (d : Directive) :
      Noted e now (.panicked inv d) evs
  | begun (inv : Invocation) (call : Call) {outcome : WebhookOutcome} (hlatency : outcome.latency ≠ 0) :
      Noted e now (.call inv call outcome) [(now, .webhook inv.id call.request)]
  | answered {inv : Invocation} (call : Call) {outcome : WebhookOutcome} (hlatency : outcome.latency = 0)
      {evs : List (Nat × Event)} (h : ∀ x ∈ evs, Engine.Concludes inv x.2) :
      Noted e now (.call inv call outcome)
        ((now, .webhook inv.id call.request) :: (now, .completion inv.id call) :: evs)
  | response {inv : Invocation} (call : Call) (result : Except HostError WebhookResponse) {evs : List (Nat × Event)}
      (h : ∀ x ∈ evs, Engine.Concludes inv x.2) :
      Noted e now (.response inv call result) ((now, .completion inv.id call) :: evs)
  | denied (actor : Actor) (t : StyledText) : Noted e now (.denied actor) [(now, .text actor t)]
  | outside : Noted e now .outside []
  | clock : Noted e now .clock []

theorem Move.noted {a : Act} (h : Move e u a w) :
    ∃ evs, w.history = evs.reverse ++ u.history ∧ e.Noted u.now a evs := by
  cases h with
  | enter actor args ds => exact ⟨[], by rw [after_enter]; rfl, .enter _⟩
  | @directive before later inv due d ds htasks hdue hran =>
    obtain ⟨new, hnew, hperforms⟩ := notesOnly_execute e inv d { u with tasks := before ++ later }
    refine ⟨new.reverse, ?_, .directive (fun x hx => hperforms x (List.mem_reverse.1 hx)) d _⟩
    rw [after_advance, List.reverse_reverse, ← hnew]
  | @panicked before later inv due d ds htasks hdue hpanics =>
    obtain ⟨new, hnew, hnotes⟩ := notesOnly_of_panics hpanics
    refine ⟨new.reverse, ?_, .panicked (fun x hx => hnotes x (List.mem_reverse.1 hx)) d⟩
    rw [List.reverse_reverse, ← hnew]
  | @call before later inv due call htasks hdue =>
    let v : World σ := { u with tasks := before ++ later }
    rw [after_runTask_call e inv call (w := v) hdue]
    split
    · obtain ⟨new, hnew, hconcludes⟩ := history_after_finishCall e inv call
        (e.host.call call.request u.host).1.result (after (e.call inv.id call.request) v)
      refine ⟨_, ?_, .answered call ‹_› fun x hx => hconcludes x (List.mem_reverse.1 hx)⟩
      rw [hnew]
      simp only [List.reverse_cons, List.reverse_reverse, List.append_assoc]
      rfl
    · exact ⟨_, rfl, .begun inv call ‹_›⟩
  | @response before later inv due call result htasks hdue =>
    let v : World σ := { u with tasks := before ++ later }
    obtain ⟨new, hnew, hconcludes⟩ := history_after_finishCall e inv call result v
    refine ⟨_, ?_, .response call result fun x hx => hconcludes x (List.mem_reverse.1 hx)⟩
    rw [after_runTask_response e inv call result (w := v) hdue, hnew]
    simp only [List.reverse_cons, List.reverse_reverse, List.append_assoc]
    rfl
  | denied actor => exact ⟨_, rfl, .denied actor _⟩
  | outside host store => exact ⟨[], rfl, .outside⟩
  | clock hnow => exact ⟨[], rfl, .clock⟩

/-- Only the clock takes time. -/
theorem Move.now_eq {a : Act} (h : Move e u a w) (ha : a ≠ .clock) : w.now = u.now := by
  cases h with
  | enter => rw [after_enter]
  | directive =>
    rw [after_advance]
    exact (execute_still e _ _ _).now
  | panicked htasks hdue hpanics => exact (execute_still_of_panics hpanics).now
  | @call before later inv due call htasks hdue =>
    rw [after_runTask_call e inv call (w := { u with tasks := before ++ later }) hdue]
    split
    · exact (Still.finishCall e inv call _ _).now
    · rfl
  | @response before later inv due call result htasks hdue =>
    rw [after_runTask_response e inv call result (w := { u with tasks := before ++ later }) hdue]
    exact (Still.finishCall e inv call result _).now
  | denied actor => exact (after_tell_still e actor _ _ u).now
  | outside => rfl
  | clock => exact absurd rfl ha

theorem Move.now_le {a : Act} (h : Move e u a w) : u.now ≤ w.now := by
  by_cases ha : a = .clock
  · subst ha
    cases h with
    | clock hnow => exact hnow
  · exact Nat.le_of_eq (h.now_eq ha).symm

/-! ### The tasks of a move -/

/-- The tasks that a move takes up, and those that it puts off. -/
inductive Act.Shifts (u : World σ) : Act → List Task → List Task → Prop where
  | enter (actor : Actor) (args : List Text) (ds : List (Nat × Directive)) :
      Shifts u (.enter ⟨u.invocations, actor, args⟩) [] (tailTask ⟨u.invocations, actor, args⟩ ds)
  | directive (inv : Invocation) (due : Nat) (d : Directive) (ds : List (Nat × Directive)) (started : Option Call) :
      Shifts u (.directive inv d started) [⟨due, inv, .tail ((due, d) :: ds)⟩]
        ((started.toList.map fun call => ⟨u.now, inv, .call call⟩) ++ tailTask inv ds)
  | panicked (inv : Invocation) (due : Nat) (d : Directive) (ds : List (Nat × Directive)) :
      Shifts u (.panicked inv d) [⟨due, inv, .tail ((due, d) :: ds)⟩] []
  | begun (due : Nat) (inv : Invocation) (call : Call) {outcome : WebhookOutcome} (hlatency : outcome.latency ≠ 0) :
      Shifts u (.call inv call outcome) [⟨due, inv, .call call⟩]
        [⟨u.now + outcome.latency, inv, .response call outcome.result⟩]
  | answered (due : Nat) (inv : Invocation) (call : Call) {outcome : WebhookOutcome} (hlatency : outcome.latency = 0) :
      Shifts u (.call inv call outcome) [⟨due, inv, .call call⟩] []
  | response (due : Nat) (inv : Invocation) (call : Call) (result : Except HostError WebhookResponse) :
      Shifts u (.response inv call result) [⟨due, inv, .response call result⟩] []
  | denied (actor : Actor) : Shifts u (.denied actor) [] []
  | outside : Shifts u .outside [] []
  | clock : Shifts u .clock [] []

theorem Move.tasks {a : Act} (h : Move e u a w) :
    ∃ before later taken added, a.Shifts u taken added ∧ u.tasks = before ++ taken ++ later ∧
      w.tasks = before ++ later ++ added ∧ w.invocations = u.invocations + a.entering := by
  cases h with
  | enter actor args ds =>
    rw [after_enter]
    exact ⟨u.tasks, [], _, _, .enter actor args (e.timetable u.now ds), by simp, by simp, rfl⟩
  | @directive before later inv due d ds htasks hdue hran =>
    have hstill := execute_still e inv d { u with tasks := before ++ later }
    rw [after_advance]
    refine ⟨before, later, _, _, .directive inv due d ds _, by simp [htasks], ?_, ?_⟩
    · rw [hstill.tasks, ← List.append_assoc]
    · exact hstill.invocations
  | @panicked before later inv due d ds htasks hdue hpanics =>
    have hstill := execute_still_of_panics hpanics
    exact ⟨before, later, _, _, .panicked inv due d ds, by simp [htasks],
      hstill.tasks.trans (List.append_nil _).symm, hstill.invocations⟩
  | @call before later inv due call htasks hdue =>
    let v : World σ := { u with tasks := before ++ later }
    rw [after_runTask_call e inv call (w := v) hdue]
    split
    · have hdone := Still.finishCall e inv call (e.host.call call.request u.host).1.result
        (after (e.call inv.id call.request) v)
      exact ⟨before, later, _, _, .answered due inv call ‹_›, by simp [htasks],
        hdone.tasks.trans (List.append_nil _).symm, hdone.invocations⟩
    · exact ⟨before, later, _, _, .begun due inv call ‹_›, by simp [htasks], rfl, rfl⟩
  | @response before later inv due call result htasks hdue =>
    let v : World σ := { u with tasks := before ++ later }
    have hdone := Still.finishCall e inv call result v
    rw [after_runTask_response e inv call result (w := v) hdue]
    exact ⟨before, later, _, _, .response due inv call result, by simp [htasks],
      hdone.tasks.trans (List.append_nil _).symm, hdone.invocations⟩
  | denied actor =>
    have hstill := after_tell_still e actor Engine.permissionDenied .red u
    exact ⟨u.tasks, [], [], [], .denied actor, by simp, by simp [hstill.tasks], hstill.invocations⟩
  | outside host store => exact ⟨u.tasks, [], [], [], .outside, by simp, by simp, rfl⟩
  | clock hnow => exact ⟨u.tasks, [], [], [], .clock, by simp, by simp, rfl⟩

/-- A move takes a tail for each that it puts off, unless that is the tail of an invocation that enters. -/
theorem Act.Shifts.tails {a : Act} {taken added : List Task} (h : a.Shifts u taken added) (inv : Invocation) :
    (tailsOf inv added).length ≤ (tailsOf inv taken).length ∨
      inv.id = u.invocations ∧ (tailsOf inv added).length ≤ 1 := by
  cases h with
  | enter actor args ds =>
    have hlength := length_tailsOf_tailTask inv ⟨u.invocations, actor, args⟩ ds
    split at hlength
    · exact .inr ⟨by rw [← ‹_ = inv›], hlength⟩
    · exact .inl (Nat.le_trans hlength (Nat.zero_le _))
  | directive i due d ds started =>
    have hlength := length_tailsOf_tailTask inv i ds
    have hcalls : tailsOf inv (started.toList.map fun call => (⟨u.now, i, .call call⟩ : Task)) = [] :=
      tailsOf_eq_nil (by simp)
    rw [tailsOf_append, hcalls, List.nil_append]
    refine .inl (Nat.le_trans hlength ?_)
    by_cases hi : i = inv <;> simp [tailsOf, hi]
  | begun | panicked | answered | response | denied | outside | clock => exact .inl (Nat.zero_le _)

theorem Act.Shifts.inOrder {a : Act} {taken added : List Task} (h : a.Shifts u taken added)
    (htaken : ∀ t ∈ taken, t.InOrder u) (hinv : w.invocations = u.invocations + a.entering) :
    ∀ t ∈ added, t.InOrder w := by
  cases h with
  | enter actor args ds => exact tailTask_inOrder (by rw [hinv]; exact Nat.lt_succ_self _) ds
  | directive inv due d ds started =>
    have hknown : inv.id < w.invocations := by
      rw [hinv]
      exact (htaken _ (List.mem_singleton_self _)).known
    intro t ht
    rcases List.mem_append.1 ht with ht | ht
    · obtain ⟨_, -, rfl⟩ := List.mem_map.1 ht
      exact ⟨hknown, nofun⟩
    · exact tailTask_inOrder hknown ds t ht
  | begun due inv call =>
    intro t ht
    rw [List.mem_singleton.1 ht]
    exact ⟨by rw [hinv]; exact (htaken _ (List.mem_singleton_self _)).known, nofun⟩
  | panicked | answered | response | denied | outside | clock => simp

/-- A directive that a move runs is the first of a tail.  What a move leaves of a tail comes behind that. -/
theorem Act.Shifts.pending {a : Act} {taken added : List Task} (h : a.Shifts u taken added) {inv : Invocation}
    (hid : inv.id < u.invocations) :
    tailsOf inv taken = [] ∧ tailsOf inv added = [] ∧ a.directiveOf? inv = none ∨
      tailsOf inv taken ≠ [] ∧ (a.directiveOf? inv).toList ++ (tailsOf inv added).flatten.map Prod.snd <+:
        (tailsOf inv taken).flatten.map Prod.snd := by
  cases h with
  | enter actor args ds =>
    have hne : ⟨u.invocations, actor, args⟩ ≠ inv := by
      rintro rfl
      exact Nat.lt_irrefl _ hid
    have hlength := length_tailsOf_tailTask inv ⟨u.invocations, actor, args⟩ ds
    rw [if_neg hne] at hlength
    exact .inl ⟨rfl, List.eq_nil_of_length_eq_zero (Nat.le_zero.1 hlength), rfl⟩
  | directive i due d ds started =>
    have hcalls : tailsOf inv (started.toList.map fun call => (⟨u.now, i, .call call⟩ : Task)) = [] :=
      tailsOf_eq_nil (by simp)
    have hflat := flatten_tailsOf_tailTask inv i ds
    rw [tailsOf_append, hcalls, List.nil_append]
    by_cases hi : i = inv
    · rw [if_pos hi] at hflat
      refine .inr ⟨by simp [tailsOf, hi], ?_⟩
      rw [hflat]
      simp [tailsOf, hi, directiveOf?, ran?, Option.filter]
    · have hlength := length_tailsOf_tailTask inv i ds
      rw [if_neg hi] at hlength
      refine .inl ⟨by simp [tailsOf, hi], List.eq_nil_of_length_eq_zero (Nat.le_zero.1 hlength), ?_⟩
      simp [directiveOf?, ran?, hi, Option.filter]
  | panicked i due d ds =>
    by_cases hi : i = inv
    · exact .inr ⟨by simp [tailsOf, hi], by simp [tailsOf, directiveOf?, ran?]⟩
    · exact .inl ⟨by simp [tailsOf, hi], rfl, rfl⟩
  | begun | answered | response | denied | outside | clock =>
    exact .inl ⟨tailsOf_eq_nil (by simp), tailsOf_eq_nil (by simp), rfl⟩

namespace Move

variable {a : Act}

theorem orderly (h : Move e u a w) (hu : Orderly u) : Orderly w := by
  obtain ⟨before, later, taken, added, hshifts, htasks, hw, hinv⟩ := h.tasks
  constructor
  · intro t ht
    have hold : t ∈ u.tasks → t.InOrder w := fun ht => (hu.tasks t ht).mono (by omega)
    rw [hw, List.mem_append, List.mem_append] at ht
    rcases ht with (ht | ht) | ht
    · exact hold (by rw [htasks]; simp [ht])
    · exact hold (by rw [htasks]; simp [ht])
    · exact hshifts.inOrder (fun t ht => hu.tasks t (by rw [htasks]; simp [ht])) hinv t ht
  · intro inv
    have hsingle := hu.single inv
    rw [htasks] at hsingle
    rw [hw]
    simp only [tailsOf_append, List.length_append] at hsingle ⊢
    rcases hshifts.tails inv with htails | ⟨hnew, hone⟩
    · omega
    · -- the invocation is new, so nothing of it was there
      have hfresh := hu.tailsOf_fresh (Nat.le_of_eq hnew.symm)
      rw [htasks, tailsOf_append, tailsOf_append, List.append_eq_nil_iff, List.append_eq_nil_iff] at hfresh
      simpa [hfresh.1.1, hfresh.2] using hone

/-- The directive that a move runs is the first that its invocation has yet to run, and no other invocation is touched.
A panic loses the others of the invocation. -/
theorem pending (h : Move e u a w) (hu : Orderly u) {inv : Invocation} (hid : inv.id < u.invocations) :
    (a.directiveOf? inv).toList ++ (w.pending inv).map Prod.snd <+: (u.pending inv).map Prod.snd ∧
      inv.id < w.invocations := by
  obtain ⟨before, later, taken, added, hshifts, htasks, hw, hinv⟩ := h.tasks
  refine ⟨?_, by omega⟩
  have hsingle := hu.single inv
  unfold World.pending
  rw [htasks] at hsingle ⊢
  rw [hw]
  simp only [tailsOf_append, List.length_append, List.flatten_append] at hsingle ⊢
  rcases hshifts.pending hid with ⟨htaken, hadded, hnone⟩ | ⟨hsome, hprefix⟩
  · simp [htaken, hadded, hnone]
  · -- the invocation has this one tail only
    have hpos := List.length_pos_iff.2 hsome
    have hbefore : tailsOf inv before = [] := List.eq_nil_of_length_eq_zero (by omega)
    have hlater : tailsOf inv later = [] := List.eq_nil_of_length_eq_zero (by omega)
    simpa [hbefore, hlater] using hprefix

end Move

/-- An invocation is the only one of its number. -/
structure Invocation.IsSingle (inv : Invocation) (w : World σ) : Prop where
  known : inv.id < w.invocations
  tasks : ∀ t ∈ w.tasks, t.invocation.id = inv.id → t.invocation = inv

/-- All that a move takes up and puts off is its invocation's, which was there before or is new. -/
theorem Act.Shifts.invocation {a : Act} {taken added : List Task} (h : a.Shifts u taken added) :
    (∀ inv, a.invocation? = some inv → inv.id = u.invocations ∨ ∃ t ∈ taken, t.invocation = inv) ∧
      ∀ t ∈ added, a.invocation? = some t.invocation := by
  cases h with
  | enter actor args ds =>
    refine ⟨fun inv hinv => ?_, fun t ht => by rw [(of_mem_tailTask ht).1]; rfl⟩
    cases hinv
    exact .inl rfl
  | directive inv due d ds started =>
    refine ⟨fun i hi => .inr ⟨_, List.mem_singleton_self _, Option.some.inj hi⟩, fun t ht => ?_⟩
    rcases List.mem_append.1 ht with ht | ht
    · obtain ⟨_, -, rfl⟩ := List.mem_map.1 ht
      rfl
    · rw [(of_mem_tailTask ht).1]
      rfl
  | panicked inv due d ds =>
    exact ⟨fun i hi => .inr ⟨_, List.mem_singleton_self _, Option.some.inj hi⟩, by simp⟩
  | begun due inv call =>
    exact ⟨fun i hi => .inr ⟨_, List.mem_singleton_self _, Option.some.inj hi⟩,
      fun t ht => by rw [List.mem_singleton.1 ht]; rfl⟩
  | answered due inv call =>
    exact ⟨fun i hi => .inr ⟨_, List.mem_singleton_self _, Option.some.inj hi⟩, by simp⟩
  | response due inv call result =>
    exact ⟨fun i hi => .inr ⟨_, List.mem_singleton_self _, Option.some.inj hi⟩, by simp⟩
  | denied | outside | clock => simp [Act.invocation?]

theorem Move.isSingle {a : Act} (h : Move e u a w) {inv : Invocation} (hu : inv.IsSingle u) :
    inv.IsSingle w ∧ ∀ i, a.invocation? = some i → i.id = inv.id → i = inv := by
  obtain ⟨before, later, taken, added, hshifts, htasks, hw, hinvocations⟩ := h.tasks
  obtain ⟨hold, hnew⟩ := hshifts.invocation
  -- the act is in the name of a task that was there, or of an invocation whose number is new
  have hact (i : Invocation) (hi : a.invocation? = some i) (hid : i.id = inv.id) : i = inv := by
    rcases hold i hi with hfresh | ⟨t, ht, rfl⟩
    · have := hu.known
      omega
    · exact hu.tasks t (by rw [htasks]; simp [ht]) hid
  refine ⟨⟨by have := hu.known; omega, fun t ht hid => ?_⟩, hact⟩
  rw [hw, List.mem_append, List.mem_append] at ht
  rcases ht with (ht | ht) | ht
  · exact hu.tasks t (by rw [htasks]; simp [ht]) hid
  · exact hu.tasks t (by rw [htasks]; simp [ht]) hid
  · exact hact _ (hnew t ht) hid

/-! ### Entries -/

structure Entry (σ : Type) where
  before : World σ
  act : Act
  behind : World σ

/-- What is noted in an entry, the first thing first. -/
def Entry.events (x : Entry σ) : List (Nat × Event) :=
  (x.behind.history.take (x.behind.history.length - x.before.history.length)).reverse

theorem Entry.events_eq {x : Entry σ} {evs : List (Nat × Event)}
    (h : x.behind.history = evs.reverse ++ x.before.history) : x.events = evs := by
  unfold Entry.events
  rw [h, List.length_append, Nat.add_sub_cancel, List.take_left, List.reverse_reverse]

theorem Move.noted_events {a : Act} (h : Move e u a w) : e.Noted u.now a (⟨u, a, w⟩ : Entry σ).events := by
  obtain ⟨evs, hevs, hnoted⟩ := h.noted
  have hevents : (⟨u, a, w⟩ : Entry σ).events = evs := Entry.events_eq hevs
  rwa [hevents]

/-- What a log holds of the directives of an invocation. -/
def runsOf (inv : Invocation) (log : List (Entry σ)) : List (Directive × Entry σ) :=
  log.filterMap fun x => (x.act.directiveOf? inv).map fun d => (d, x)

theorem runsOf_append (inv : Invocation) (log log' : List (Entry σ)) :
    runsOf inv (log ++ log') = runsOf inv log ++ runsOf inv log' :=
  List.filterMap_append

theorem mem_runsOf {inv : Invocation} {log : List (Entry σ)} {d : Directive} {x : Entry σ} :
    (d, x) ∈ runsOf inv log ↔ x ∈ log ∧ x.act.directiveOf? inv = some d := by
  unfold runsOf
  rw [List.mem_filterMap]
  constructor
  · rintro ⟨y, hy, h⟩
    obtain ⟨d', hd', heq⟩ := Option.map_eq_some_iff.1 h
    cases heq
    exact ⟨hy, hd'⟩
  · rintro ⟨hx, hd⟩
    exact ⟨x, hx, by rw [hd]; rfl⟩

/-! ### Trails -/

/-- A log of the moves from one world to another. -/
inductive Trail (e : Engine σ) (u : World σ) : List (Entry σ) → World σ → Prop where
  | nil : Trail e u [] u
  | snoc {log : List (Entry σ)} {v w : World σ} {a : Act} (h : Trail e u log v) (hm : Move e v a w) :
      Trail e u (log ++ [⟨v, a, w⟩]) w

theorem Move.trail {a : Act} (h : Move e u a w) : Trail e u [⟨u, a, w⟩] w :=
  .snoc .nil h

namespace Trail

variable {log log' : List (Entry σ)}

theorem trans (h : Trail e u log v) (h' : Trail e v log' w) : Trail e u (log ++ log') w := by
  induction h' with
  | nil => rwa [List.append_nil]
  | snoc _ hm ih =>
    rw [← List.append_assoc]
    exact ih.snoc hm

theorem orderly (h : Trail e u log w) (hu : Orderly u) : Orderly w := by
  induction h with
  | nil => exact hu
  | snoc _ hm ih => exact hm.orderly ih

/-- Every entry is a move that the log leads to. -/
theorem entry (h : Trail e u log w) {x : Entry σ} (hx : x ∈ log) :
    ∃ before, Trail e u before x.before ∧ Move e x.before x.act x.behind := by
  induction h with
  | nil => simp at hx
  | snoc h hm ih =>
    rcases List.mem_append.1 hx with hx | hx
    · exact ih hx
    · rw [List.mem_singleton.1 hx]
      exact ⟨_, h, hm⟩

/-- What was noted is what the entries note. -/
theorem history (h : Trail e u log w) : w.history = (log.flatMap Entry.events).reverse ++ u.history := by
  induction h with
  | nil => rfl
  | @snoc log v w a _ hm ih =>
    obtain ⟨evs, hevs, -⟩ := hm.noted
    have hevents : (⟨v, a, w⟩ : Entry σ).events = evs := Entry.events_eq hevs
    rw [List.flatMap_append, List.flatMap_singleton, hevents, List.reverse_append, List.append_assoc, ← ih, hevs]

/-- What ran of an invocation, and what it has yet to run, are the first that it had yet to run. -/
theorem pending (h : Trail e u log w) (hu : Orderly u) {inv : Invocation} (hid : inv.id < u.invocations) :
    (runsOf inv log).map Prod.fst ++ (w.pending inv).map Prod.snd <+: (u.pending inv).map Prod.snd ∧
      inv.id < w.invocations := by
  induction h with
  | nil => exact ⟨List.prefix_refl _, hid⟩
  | @snoc log v w a h hm ih =>
    obtain ⟨hp, hid'⟩ := hm.pending (h.orderly hu) ih.2
    refine ⟨List.IsPrefix.trans ?_ ih.1, hid'⟩
    have hlast : (runsOf inv [(⟨v, a, w⟩ : Entry σ)]).map Prod.fst = (a.directiveOf? inv).toList := by
      unfold runsOf
      cases ha : a.directiveOf? inv <;> simp [ha]
    rw [runsOf_append, List.map_append, hlast, List.append_assoc]
    exact List.prefix_append_right_inj _ |>.2 hp

theorem isSingle (h : Trail e u log w) {inv : Invocation} (hu : inv.IsSingle u) :
    inv.IsSingle w ∧ ∀ x ∈ log, ∀ i, x.act.invocation? = some i → i.id = inv.id → i = inv := by
  induction h with
  | nil => exact ⟨hu, by simp⟩
  | snoc _ hm ih =>
    obtain ⟨hw, hact⟩ := hm.isSingle ih.1
    refine ⟨hw, fun x hx => ?_⟩
    rcases List.mem_append.1 hx with hx | hx
    · exact ih.2 x hx
    · rw [List.mem_singleton.1 hx]
      exact hact

end Trail

/-! ### Invocations on a trail -/

private theorem map_snd_delaySums (s : Nat) (ds : List Directive) : (delaySums s ds).map Prod.snd = ds := by
  induction ds generalizing s with
  | nil => rfl
  | cons d ds ih => rw [delaySums, List.map_cons, ih]

theorem Orderly.isSingle_after_enter (hu : Orderly u) (e : Engine σ) (actor : Actor) (args : List Text)
    (ds : List Directive) : Invocation.IsSingle ⟨u.invocations, actor, args⟩ (after (e.enter actor args ds) u) := by
  rw [after_enter]
  refine ⟨Nat.lt_succ_self _, fun t ht hid => ?_⟩
  rcases List.mem_append.1 ht with ht | ht
  · exact absurd hid (Nat.ne_of_lt (hu.tasks t ht).known)
  · exact (of_mem_tailTask ht).1

theorem Engine.map_snd_timetable (e : Engine σ) (start : Nat) (ds : List Directive) :
    (e.timetable start ds).map Prod.snd = ds := by
  rw [e.timetable_eq, List.map_map]
  exact map_snd_delaySums 0 ds

/-- The directives that ran of an invocation since it entered are the first of its list. -/
theorem runsOf_prefix {log : List (Entry σ)} (hu : Orderly u) {actor : Actor} {args : List Text} {ds : List Directive}
    (h : Trail e (after (e.enter actor args ds) u) log w) :
    (runsOf ⟨u.invocations, actor, args⟩ log).map Prod.fst <+: ds := by
  let inv : Invocation := ⟨u.invocations, actor, args⟩
  have henter : Orderly (after (e.enter actor args ds) u) := (Move.enter actor args ds).orderly hu
  obtain ⟨hplan, hid⟩ := hu.pending_after_enter e actor args ds
  have hprefix : (runsOf inv log).map Prod.fst ++ (w.pending inv).map Prod.snd <+: _ := (h.pending henter hid).1
  rw [hplan, e.map_snd_timetable] at hprefix
  exact (List.prefix_append _ _).trans hprefix

end DirectiveEngine
