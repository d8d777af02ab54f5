import DirectiveEngine.Proofs.Engine.Uninterrupted
import Mathlib.Data.Nat.Find

/-!
# Fair schedules

Steps alone do not say that anything happens.  A schedule goes on without end, and is fair to an invocation if time goes on
as well and the invocation goes on whenever it can.  On such a schedule the invocation comes to its end (`Fair.ends`),
since each of its directives has finitely many effects, whatever they find; and from everywhere there is one
(`exists_fair`).
-/

namespace DirectiveEngine

variable {σ : Type} {e : Engine σ} {inv : Invocation} {r u : Runtime σ}

/-- Steps without end. -/
structure Schedule (e : Engine σ) (r : Runtime σ) where
  states : Nat → Runtime σ
  deeds : Nat → Deed
  start : states 0 = r
  step : ∀ n, Step e (states n) (deeds n) (states (n + 1))

/-- A thread of the invocation is there, or directives of it are due. -/
def Runtime.CanGoOn (r : Runtime σ) (inv : Invocation) : Prop :=
  threadsOf inv r.threads ≠ [] ∨ ∃ d ds, d :: ds ∈ tailsOf inv r.world.tasks ∧ d.1 ≤ r.world.now

namespace Schedule

/-- What happens in the first `n` steps. -/
def log (p : Schedule e r) (n : Nat) : List (Moment σ) :=
  (List.range n).map fun i => ⟨p.states i, p.deeds i, p.states (i + 1)⟩

theorem steps (p : Schedule e r) (n : Nat) : Steps e r (p.log n) (p.states n) := by
  induction n with
  | zero =>
    rw [p.start]
    exact .nil
  | succ n ih =>
    rw [log, List.range_succ, List.map_append]
    exact ih.snoc (p.step n)

/-- Time goes on, and so does the invocation whenever it can. -/
structure Fair (p : Schedule e r) (inv : Invocation) : Prop where
  time : ∀ t, ∃ n, t ≤ (p.states n).world.now
  goesOn : ∀ n, (p.states n).CanGoOn inv → ∃ m ≥ n, (p.deeds m).invocation? = some inv

end Schedule

/-- Only its own steps change the stage of an invocation. -/
theorem Stage.Step.eq_of_ne {u w : World σ} {s s' : Stage σ} {x : Deed} (h : Stage.Step e inv u w s x s')
    (hx : x.invocation? ≠ some inv) : s' = s := by
  cases h with
  | wake | start | effect | finish | panic => exact absurd rfl hx
  | elsewhere => rfl

/-! ### Fair schedules end -/

section

variable {p : Schedule e r} {n m : Nat} {s : Stage σ}

namespace Schedule

theorem orderly (p : Schedule e r) (hr : r.Orderly e) (n : Nat) : (p.states n).Orderly e :=
  (p.steps n).orderly hr

theorem known (p : Schedule e r) (hr : r.Orderly e) (hid : inv.id < r.world.invocations) (n : Nat) :
    inv.id < (p.states n).world.invocations := by
  induction n with
  | zero => rwa [p.start]
  | succ n ih => exact Nat.lt_of_lt_of_le ih ((p.step n).invocations_le (p.orderly hr n))

theorem now_mono (p : Schedule e r) (hr : r.Orderly e) (hnm : n ≤ m) :
    (p.states n).world.now ≤ (p.states m).world.now := by
  induction m, hnm using Nat.le_induction with
  | base => exact Nat.le_refl _
  | succ m _ ih => exact Nat.le_trans ih ((p.step m).now_le (p.orderly hr m))

/-- An invocation stays where it is until it takes a step. -/
theorem stays (hr : r.Orderly e) (hid : inv.id < r.world.invocations) (hs : (p.states n).IsAt inv s) (hnm : n ≤ m)
    (hnone : ∀ k, n ≤ k → k < m → (p.deeds k).invocation? ≠ some inv) : (p.states m).IsAt inv s := by
  induction m, hnm using Nat.le_induction with
  | base => exact hs
  | succ m hnm ih =>
    obtain ⟨s', hstep, hs'⟩ :=
      (p.step m).stage (p.orderly hr m) (p.known hr hid m) (ih fun k hk hkm => hnone k hk (by omega))
    rwa [hstep.eq_of_ne (hnone m hnm (Nat.lt_succ_self m))] at hs'

/-- The next step of an invocation finds it where it is. -/
private theorem next (hr : r.Orderly e) (hid : inv.id < r.world.invocations) (hs : (p.states n).IsAt inv s)
    (hown : ∃ m ≥ n, (p.deeds m).invocation? = some inv) :
    ∃ m u w x s', Stage.Step e inv u w s x s' ∧ x.invocation? = some inv ∧ (p.states m).IsAt inv s' := by
  classical
  obtain ⟨hnm, hm⟩ := Nat.find_spec hown
  have hat := stays hr hid hs hnm fun k hk hkm hx => Nat.find_min hown hkm ⟨hk, hx⟩
  obtain ⟨s', hstep, hs'⟩ := (p.step _).stage (p.orderly hr _) (p.known hr hid _) hat
  exact ⟨_, _, _, _, s', hstep, hm, hs'⟩

end Schedule

namespace Schedule.Fair

variable (h : p.Fair inv)
include h

/-- An invocation takes a step as long as it is not finished. -/
private theorem own (hr : r.Orderly e) (hid : inv.id < r.world.invocations) (hs : (p.states n).IsAt inv s)
    (hfinished : s ≠ .finished) : ∃ m ≥ n, (p.deeds m).invocation? = some inv := by
  cases s with
  | finished => exact absurd rfl hfinished
  | running current row others =>
    refine h.goesOn n (.inl ?_)
    rw [hs.1]
    exact List.cons_ne_nil _ _
  | waiting ds =>
    by_contra hnone
    have hnever (k : Nat) (hk : n ≤ k) : (p.deeds k).invocation? ≠ some inv := fun hx => hnone ⟨k, hk, hx⟩
    -- the directives are put off all the time, and at some time the first of them is due
    have htail (m : Nat) (hm : n ≤ m) : tailsOf inv (p.states m).world.tasks = [ds] :=
      (Schedule.stays hr hid hs hm fun k hk _ => hnever k hk).2
    obtain ⟨t, ht, -, hwork⟩ := mem_tailsOf_iff.1 ((htail n (Nat.le_refl n)).symm ▸ List.mem_singleton_self ds)
    obtain ⟨d, ds', rfl⟩ := ((p.orderly hr n).tasks t ht).tail ds hwork
    obtain ⟨k, hk⟩ := h.time t.due
    have hdue : t.due ≤ (p.states (max n k)).world.now := Nat.le_trans hk (p.now_mono hr (Nat.le_max_right n k))
    have hmem : (t.due, d) :: ds' ∈ tailsOf inv (p.states (max n k)).world.tasks := by
      rw [htail _ (Nat.le_max_left n k)]
      exact List.mem_singleton_self _
    obtain ⟨m, hm, hx⟩ := h.goesOn (max n k) (.inr ⟨_, ds', hmem, hdue⟩)
    exact hnever m (Nat.le_trans (Nat.le_max_left n k) hm) hx

/-- An invocation that is not finished takes its next step. -/
private theorem next (hr : r.Orderly e) (hid : inv.id < r.world.invocations) (hs : (p.states n).IsAt inv s)
    (hfinished : s ≠ .finished) :
    ∃ m u w x s', Stage.Step e inv u w s x s' ∧ x.invocation? = some inv ∧ (p.states m).IsAt inv s' :=
  Schedule.next hr hid hs (h.own hr hid hs hfinished)

variable {left : Nat} {row others ds : List (Nat × Directive)} {d : Nat × Directive}

/-- When a directive begins, less is left. -/
private theorem ends_of_row (hr : r.Orderly e) (hid : inv.id < r.world.invocations)
    (ih : ∀ n s, (p.states n).IsAt inv s → s.left.length < left → ∃ n, (p.states n).IsAt inv .finished)
    (hs : (p.states n).IsAt inv (.running (.done ()) (d :: row) others)) (hleft : (d :: row ++ others).length ≤ left) :
    ∃ n, (p.states n).IsAt inv .finished := by
  obtain ⟨m, u, w, x, s', hstep, hown, hs'⟩ := h.next hr hid hs nofun
  cases hstep with
  | start => exact ih _ _ hs' hleft
  | elsewhere hx => exact absurd hown hx

/-- Directives that were put off are taken up with one that begins. -/
private theorem ends_of_waiting (hr : r.Orderly e) (hid : inv.id < r.world.invocations)
    (ih : ∀ n s, (p.states n).IsAt inv s → s.left.length < left → ∃ n, (p.states n).IsAt inv .finished)
    (hs : (p.states n).IsAt inv (.waiting ds)) (hleft : ds.length ≤ left) : ∃ n, (p.states n).IsAt inv .finished := by
  obtain ⟨m, u, w, x, s', hstep, hown, hs'⟩ := h.next hr hid hs nofun
  cases hstep with
  | @wake due d ds hdue =>
    have hrow : ((due, d) :: ds).takeWhile (fun d => decide (d.1 ≤ u.now)) =
        (due, d) :: ds.takeWhile fun d => decide (d.1 ≤ u.now) := List.takeWhile_cons_of_pos (decide_eq_true hdue)
    rw [hrow] at hs'
    refine h.ends_of_row hr hid ih hs' ?_
    rwa [← hrow, List.takeWhile_append_dropWhile]
  | elsewhere hx => exact absurd hown hx

/-- A thread ends, by induction on what its directive has yet to do. -/
private theorem ends_of_running (hr : r.Orderly e) (hid : inv.id < r.world.invocations)
    (ih : ∀ n s, (p.states n).IsAt inv s → s.left.length < left → ∃ n, (p.states n).IsAt inv .finished)
    {current : Effects σ Unit} (hs : (p.states n).IsAt inv (.running current row others))
    (hleft : (row ++ others).length ≤ left) : ∃ n, (p.states n).IsAt inv .finished := by
  induction current generalizing n with
  | done a =>
    cases row with
    | cons d row => exact h.ends_of_row hr hid ih hs hleft
    | nil =>
      obtain ⟨m, u, w, x, s', hstep, hown, hs'⟩ := h.next hr hid hs nofun
      cases hstep with
      | finish =>
        cases others with
        | nil => exact ⟨_, hs'⟩
        | cons d others => exact h.ends_of_waiting hr hid ih hs' hleft
      | elsewhere hx => exact absurd hown hx
  | effect act next hnext =>
    obtain ⟨m, u, w, x, s', hstep, hown, hs'⟩ := h.next hr hid hs nofun
    cases hstep with
    | effect => exact hnext _ hs'
    | elsewhere hx => exact absurd hown hx
  | panic rest =>
    obtain ⟨m, u, w, x, s', hstep, hown, hs'⟩ := h.next hr hid hs nofun
    cases hstep with
    | panic => exact ⟨_, hs'⟩
    | elsewhere hx => exact absurd hown hx

/-- On a fair schedule an invocation comes to its end. -/
theorem ends (hr : r.Orderly e) (hid : inv.id < r.world.invocations) : ∃ n, (p.states n).IsAt inv .finished := by
  have hends (left : Nat) :
      ∀ n s, (p.states n).IsAt inv s → s.left.length = left → ∃ n, (p.states n).IsAt inv .finished := by
    induction left using Nat.strong_induction_on with
    | _ left ih =>
      intro n s hs hleft
      have hless (n : Nat) (s : Stage σ) (hs : (p.states n).IsAt inv s) (hlt : s.left.length < left) :
          ∃ n, (p.states n).IsAt inv .finished := ih _ hlt n s hs rfl
      cases s with
      | running current row others => exact h.ends_of_running hr hid hless hs (Nat.le_of_eq hleft)
      | waiting ds => exact h.ends_of_waiting hr hid hless hs (Nat.le_of_eq hleft)
      | finished => exact ⟨n, hs⟩
  obtain ⟨s, hs⟩ := (p.orderly hr 0).stage inv
  exact hends _ 0 s hs rfl

end Schedule.Fair

end

/-! ### There are fair schedules -/

namespace Schedule

/-- Nothing happens but that time goes on. -/
def idle (e : Engine σ) (r : Runtime σ) : Schedule e r where
  states n := { r with world := { r.world with now := r.world.now + n } }
  deeds _ := .aside .clock
  start := rfl
  step _ := .aside (.clock (Nat.le_succ _)) rfl

/-- A step and then a schedule. -/
def cons {x : Deed} (h : Step e r x u) (p : Schedule e u) : Schedule e r where
  states
    | 0 => r
    | n + 1 => p.states n
  deeds
    | 0 => x
    | n + 1 => p.deeds n
  start := rfl
  step
    | 0 => show Step e r x (p.states 0) by rwa [p.start]
    | n + 1 => p.step n

theorem fair_idle (hr : r.IsAt inv .finished) : (idle e r).Fair inv := by
  refine ⟨fun t => ⟨t, Nat.le_add_left _ _⟩, fun n hcan => ?_⟩
  rcases hcan with hthread | ⟨d, ds, hmem, -⟩
  · exact absurd hr.1 hthread
  · rw [show tailsOf inv ((idle e r).states n).world.tasks = [] from hr.2] at hmem
    exact absurd hmem List.not_mem_nil

/-- What an invocation can do it can do until it takes a step. -/
private theorem canGoOn {x : Deed} (h : Step e r x u) (hr : r.Orderly e) (hx : x.invocation? ≠ some inv)
    (hcan : r.CanGoOn inv) : u.CanGoOn inv := by
  obtain ⟨hthreads, htails⟩ := h.elsewhere hr hx
  rcases hcan with hthread | ⟨d, ds, hmem, hdue⟩
  · exact .inl (hthreads ▸ hthread)
  · exact .inr ⟨d, ds, htails ▸ hmem, Nat.le_trans hdue (h.now_le hr)⟩

theorem fair_cons {x : Deed} (h : Step e r x u) (hr : r.Orderly e) {p : Schedule e u} (hp : p.Fair inv) :
    (cons h p).Fair inv := by
  constructor
  · intro t
    obtain ⟨n, hn⟩ := hp.time t
    exact ⟨n + 1, hn⟩
  · intro n hcan
    cases n with
    | succ n =>
      obtain ⟨m, hm, hown⟩ := hp.goesOn n hcan
      exact ⟨m + 1, Nat.succ_le_succ hm, hown⟩
    | zero =>
      by_cases hx : x.invocation? = some inv
      · exact ⟨0, Nat.le_refl 0, hx⟩
      · obtain ⟨m, -, hown⟩ := hp.goesOn 0 (p.start.symm ▸ canGoOn h hr hx hcan)
        exact ⟨m + 1, Nat.zero_le _, hown⟩

/-- Where some steps lead to a fair schedule, there is one from their start. -/
theorem exists_fair_of_steps {log : List (Moment σ)} (h : Steps e r log u) (hr : r.Orderly e)
    (hu : ∃ p : Schedule e u, p.Fair inv) : ∃ p : Schedule e r, p.Fair inv := by
  induction h with
  | nil => exact hu
  | snoc h hs ih =>
    obtain ⟨p, hp⟩ := hu
    exact ih ⟨cons hs p, fair_cons hs (h.orderly hr) hp⟩

end Schedule

/-- All threads may end, one after another. -/
theorem threads_promptly (e : Engine σ) (r : Runtime σ) : ∃ w, LeadsPromptly e r ⟨w, []⟩ := by
  obtain ⟨w, threads⟩ := r
  induction threads generalizing w with
  | nil => exact ⟨w, .refl _⟩
  | cons t later ih =>
    obtain ⟨v, hv⟩ := thread_promptly e t [] later w
    obtain ⟨u, hu⟩ := ih v
    exact ⟨u, hv.trans hu⟩

/-- From everywhere a prompt run leads to where an invocation is finished. -/
theorem finished_promptly (e : Engine σ) (hr : r.Orderly e) (inv : Invocation) :
    ∃ u, LeadsPromptly e r u ∧ u.IsAt inv .finished := by
  obtain ⟨w, hthreads⟩ := threads_promptly e r
  have hw : Orderly w := by
    obtain ⟨log, hlog, -⟩ := hthreads
    exact (hlog.orderly hr).world
  exact ⟨_, hthreads.trans (wait_promptly e inv.id hw), isAt_finished_after_wait e inv hw⟩

theorem exists_fair (e : Engine σ) (hr : r.Orderly e) (inv : Invocation) : ∃ p : Schedule e r, p.Fair inv := by
  obtain ⟨u, ⟨log, hlog, -⟩, hfinished⟩ := finished_promptly e hr inv
  exact Schedule.exists_fair_of_steps hlog hr ⟨_, Schedule.fair_idle hfinished⟩

end DirectiveEngine
