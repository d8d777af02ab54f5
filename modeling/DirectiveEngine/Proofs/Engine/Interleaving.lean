import DirectiveEngine.Proofs.Engine.Trail

/-!
# Interleavings

Invocations run side by side, and a directive has one effect after the other, between which anything may happen.  So a
`Thread` holds what the directive that has begun has yet to do, and a `Step` lets one thread have one effect, begin its
next directive or go to sleep, wakes directives that are due, or is something else that happens to the world; time may
pass at any point.  What the steps of all invocations do to a given one is to take it from one `Stage` to the next
(`Step.stage`), and this is all that has to be known of them to follow that invocation.
-/

namespace DirectiveEngine

variable {σ : Type} {e : Engine σ}

open Run (Keeps after)

/-! ### Threads -/

/-- Directives of an invocation that are under way. -/
structure Thread (σ : Type) where
  invocation : Invocation
  /-- What the directive that has begun has yet to do. -/
  current : Effects σ Unit
  /-- The directives that begin next, each with the time when it was due. -/
  row : List (Nat × Directive)
  /-- The directives behind those, which are put off then. -/
  others : List (Nat × Directive)

structure Runtime (σ : Type) where
  world : World σ
  threads : List (Thread σ) := []

/-- What happens in a step. -/
inductive Deed where
  | enter (inv : Invocation)
  /-- Directives that were put off are taken up. -/
  | wake (inv : Invocation)
  | start (inv : Invocation) (due : Nat) (d : Directive)
  | effect (inv : Invocation)
  /-- A thread ends.  The first of an invocation ends with its call. -/
  | finish (inv : Invocation)
  /-- The host panics, and with it a thread. -/
  | panic (inv : Invocation) (lost : List (Nat × Directive))
  | aside (a : Act)

/-- Whether something happens beside the directives. -/
def Act.isAside : Act → Bool
  | .call .. => true
  | .response .. => true
  | .denied _ => true
  | .outside => true
  | .clock => true
  | .enter _ => false
  | .directive .. => false
  | .panicked .. => false

/-- The invocation that a step takes further. -/
def Deed.invocation? : Deed → Option Invocation
  | enter inv => some inv
  | wake inv => some inv
  | start inv _ _ => some inv
  | effect inv => some inv
  | finish inv => some inv
  | panic inv _ => some inv
  | aside _ => none

/-- An invocation enters with a thread for the directives up to the first delayed one. -/
def Runtime.enter (e : Engine σ) (actor : Actor) (args : List Text) (ds : List Directive) (r : Runtime σ) :
    Runtime σ where
  world := { r.world with invocations := r.world.invocations + 1 }
  threads := r.threads ++
    [{ invocation := ⟨r.world.invocations, actor, args⟩
       current := .done ()
       row := (Engine.undelayed ds).map fun d => (r.world.now, d)
       others := e.delayed r.world.now ds }]

inductive Step (e : Engine σ) (r : Runtime σ) : Deed → Runtime σ → Prop where
  | enter (actor : Actor) (args : List Text) (ds : List Directive) :
      Step e r (.enter ⟨r.world.invocations, actor, args⟩) (r.enter e actor args ds)
  | wake {before later : List Task} {due : Nat} {inv : Invocation} {ds : List (Nat × Directive)}
      (htasks : r.world.tasks = before ++ ⟨due, inv, .tail ds⟩ :: later) (hdue : due ≤ r.world.now) :
      Step e r (.wake inv)
        { world := { r.world with tasks := before ++ later }
          threads := r.threads ++
            [⟨inv, .done (), ds.takeWhile fun d => d.1 ≤ r.world.now, ds.dropWhile fun d => d.1 ≤ r.world.now⟩] }
  | start {before later : List (Thread σ)} {inv : Invocation} {due : Nat} {d : Directive}
      {row others : List (Nat × Directive)}
      (hthreads : r.threads = before ++ ⟨inv, .done (), (due, d) :: row, others⟩ :: later) :
      Step e r (.start inv due d)
        { r with threads := before ++ ⟨inv, (e.execute inv d).effects, row, others⟩ :: later }
  | effect {before later : List (Thread σ)} {inv : Invocation} {act : World σ → World σ}
      {next : World σ → Effects σ Unit} {row others : List (Nat × Directive)}
      (hthreads : r.threads = before ++ ⟨inv, .effect act next, row, others⟩ :: later) :
      Step e r (.effect inv)
        { world := act r.world, threads := before ++ ⟨inv, next r.world, row, others⟩ :: later }
  | finish {before later : List (Thread σ)} {inv : Invocation} {others : List (Nat × Directive)}
      (hthreads : r.threads = before ++ ⟨inv, .done (), [], others⟩ :: later) :
      Step e r (.finish inv)
        { world := after (Engine.postponeTail inv others) r.world, threads := before ++ later }
  | panic {before later : List (Thread σ)} {inv : Invocation} {rest : Effects σ Unit}
      {row others : List (Nat × Directive)}
      (hthreads : r.threads = before ++ ⟨inv, .panic rest, row, others⟩ :: later) :
      Step e r (.panic inv (row ++ others)) { r with threads := before ++ later }
  | aside {a : Act} {w : World σ} (h : Move e r.world a w) (ha : a.isAside = true) :
      Step e r (.aside a) { r with world := w }

/-! ### Runs -/

structure Moment (σ : Type) where
  before : Runtime σ
  deed : Deed
  behind : Runtime σ

/-- Steps from one runtime to another, with all that happens on the way. -/
inductive Steps (e : Engine σ) (r : Runtime σ) : List (Moment σ) → Runtime σ → Prop where
  | nil : Steps e r [] r
  | snoc {log : List (Moment σ)} {u w : Runtime σ} {x : Deed} (h : Steps e r log u) (hs : Step e u x w) :
      Steps e r (log ++ [⟨u, x, w⟩]) w

/-- A runtime that some steps lead to from a start without work. -/
def Reachable (e : Engine σ) (r : Runtime σ) : Prop :=
  ∃ host store log, Steps e { world := { host, store } } log r

namespace Steps

variable {r u w : Runtime σ} {log log' : List (Moment σ)}

theorem single {x : Deed} (h : Step e r x u) : Steps e r [⟨r, x, u⟩] u :=
  .snoc .nil h

theorem trans (h : Steps e r log u) (h' : Steps e u log' w) : Steps e r (log ++ log') w := by
  induction h' with
  | nil => rwa [List.append_nil]
  | snoc _ hs ih =>
    rw [← List.append_assoc]
    exact ih.snoc hs

/-- A moment finds what the moments before it leave, and leaves what those behind it find. -/
theorem cut {before later : List (Moment σ)} {x : Moment σ} (h : Steps e r (before ++ x :: later) w) :
    Steps e r before x.before ∧ Step e x.before x.deed x.behind ∧ Steps e x.behind later w := by
  generalize hlog : before ++ x :: later = log at h
  induction h generalizing later with
  | nil => simp at hlog
  | @snoc log u w deed h hs ih =>
    rcases List.eq_nil_or_concat later with rfl | ⟨later, last, rfl⟩
    · obtain ⟨rfl, hx⟩ := List.append_inj' hlog rfl
      rw [List.singleton_inj.1 hx]
      exact ⟨h, hs, .nil⟩
    · rw [List.concat_eq_append, ← List.cons_append, ← List.append_assoc] at hlog
      obtain ⟨hfront, hlast⟩ := List.append_inj' hlog rfl
      obtain ⟨hbefore, hx, hlater⟩ := ih hfront
      rw [List.singleton_inj.1 hlast, List.concat_eq_append]
      exact ⟨hbefore, hx, hlater.snoc hs⟩

end Steps

/-! ### What an effect does to the work of others -/

/-- An effect takes no time, and puts off no more than calls of its invocation. -/
structure Tame (inv : Invocation) (u w : World σ) : Prop where
  now : w.now = u.now
  invocations : w.invocations = u.invocations
  tasks : ∃ calls : List Task, w.tasks = u.tasks ++ calls ∧ ∀ t ∈ calls, t.invocation = inv ∧ ∃ call, t.work = .call call

theorem Tame.of_still {inv : Invocation} {u w : World σ} (h : Still u w) : Tame inv u w :=
  ⟨h.now, h.invocations, [], by simpa using h.tasks, by simp⟩

theorem Tame.frame (e : Engine σ) (inv : Invocation) : Frame e inv (Tame inv) where
  refl w := .of_still ((Still.frame e inv).refl w)
  trans h h' := by
    obtain ⟨calls, htasks, hcalls⟩ := h.tasks
    obtain ⟨calls', htasks', hcalls'⟩ := h'.tasks
    refine ⟨h'.now.trans h.now, h'.invocations.trans h.invocations, calls ++ calls', ?_, ?_⟩
    · rw [htasks', htasks, List.append_assoc]
    · exact fun t ht => (List.mem_append.1 ht).elim (hcalls t) (hcalls' t)
  started _ _ := .of_still ⟨rfl, rfl, rfl⟩
  read _ _ _ := .of_still ⟨rfl, rfl, rfl⟩
  write _ _ := .of_still ⟨rfl, rfl, rfl⟩
  run _ _ _ := .of_still ⟨rfl, rfl, rfl⟩
  send _ _ _ := .of_still ⟨rfl, rfl, rfl⟩
  dispatchLine _ _ _ _ _ := .of_still ⟨rfl, rfl, rfl⟩
  assign _ _ _ := .of_still ⟨rfl, rfl, rfl⟩

/-- Each effect of a directive is tame. -/
theorem tame_execute (e : Engine σ) (inv : Invocation) (d : Directive) :
    (e.execute inv d).effects.Always e.host.MayPanic (Tame inv) := by
  refine ((Tame.frame e inv).keeps_execute (fun due call w => ?_) d).each
  exact ⟨rfl, rfl, [⟨due, inv, .call call⟩], rfl, by simp⟩

/-! ### Stages -/

/-- Where an invocation stands. -/
inductive Stage (σ : Type) where
  /-- It has a thread. -/
  | running (current : Effects σ Unit) (row others : List (Nat × Directive))
  /-- What it has yet to run is put off. -/
  | waiting (ds : List (Nat × Directive))
  | finished

/-- What has yet to begin. -/
def Stage.left : Stage σ → List (Nat × Directive)
  | running _ row others => row ++ others
  | waiting ds => ds
  | finished => []

/-- The stage behind a thread that puts directives off. -/
def Stage.behind : List (Nat × Directive) → Stage σ
  | [] => finished
  | d :: ds => waiting (d :: ds)

/-- What a step of all invocations does to the stage of one. -/
inductive Stage.Step (e : Engine σ) (inv : Invocation) (u w : World σ) : Stage σ → Deed → Stage σ → Prop where
  | wake {due : Nat} {d : Directive} {ds : List (Nat × Directive)} (hdue : due ≤ u.now) (hnow : w.now = u.now) :
      Stage.Step e inv u w (.waiting ((due, d) :: ds)) (.wake inv)
        (.running (.done ()) (((due, d) :: ds).takeWhile fun d => d.1 ≤ u.now)
          (((due, d) :: ds).dropWhile fun d => d.1 ≤ u.now))
  | start {due : Nat} {d : Directive} {row others : List (Nat × Directive)} (hnow : w.now = u.now) :
      Stage.Step e inv u w (.running (.done ()) ((due, d) :: row) others) (.start inv due d)
        (.running (e.execute inv d).effects row others)
  | effect {act : World σ → World σ} {next : World σ → Effects σ Unit} {row others : List (Nat × Directive)}
      (hact : w = act u) (hnow : w.now = u.now) :
      Stage.Step e inv u w (.running (.effect act next) row others) (.effect inv) (.running (next u) row others)
  | finish {others : List (Nat × Directive)} (hnow : w.now = u.now) :
      Stage.Step e inv u w (.running (.done ()) [] others) (.finish inv) (.behind others)
  | panic {rest : Effects σ Unit} {row others : List (Nat × Directive)} (hnow : w.now = u.now) :
      Stage.Step e inv u w (.running (.panic rest) row others) (.panic inv (row ++ others)) .finished
  | elsewhere {s : Stage σ} {x : Deed} (hx : x.invocation? ≠ some inv) (hnow : u.now ≤ w.now)
      (hstill : x ≠ .aside .clock → w.now = u.now) : Stage.Step e inv u w s x s

def threadsOf (inv : Invocation) (ts : List (Thread σ)) : List (Thread σ) :=
  ts.filter fun t => t.invocation = inv

theorem threadsOf_append (inv : Invocation) (ts ts' : List (Thread σ)) :
    threadsOf inv (ts ++ ts') = threadsOf inv ts ++ threadsOf inv ts' :=
  List.filter_append ..

/-- The invocation has one thread and nothing put off, or the other way round, or neither. -/
def Runtime.IsAt (r : Runtime σ) (inv : Invocation) : Stage σ → Prop
  | .running current row others =>
    threadsOf inv r.threads = [⟨inv, current, row, others⟩] ∧ tailsOf inv r.world.tasks = []
  | .waiting ds => threadsOf inv r.threads = [] ∧ tailsOf inv r.world.tasks = [ds]
  | .finished => threadsOf inv r.threads = [] ∧ tailsOf inv r.world.tasks = []

/-- A thread belongs to an invocation that was begun, and interferes with no other. -/
structure Thread.InOrder (e : Engine σ) (w : World σ) (t : Thread σ) : Prop where
  known : t.invocation.id < w.invocations
  tame : t.current.Always e.host.MayPanic (Tame t.invocation)

/-- Every invocation is at some stage, and identifiers are fresh. -/
structure Runtime.Orderly (e : Engine σ) (r : Runtime σ) : Prop where
  tasks : ∀ t ∈ r.world.tasks, t.InOrder r.world
  threads : ∀ t ∈ r.threads, t.InOrder e r.world
  stage : ∀ inv, ∃ s, r.IsAt inv s

/-- What an invocation has yet to begin. -/
def Runtime.left (r : Runtime σ) (inv : Invocation) : List (Nat × Directive) :=
  (threadsOf inv r.threads).flatMap (fun t => t.row ++ t.others) ++ r.world.pending inv

namespace Runtime

variable {r : Runtime σ} {inv : Invocation} {s s' : Stage σ}

theorem IsAt.left (h : r.IsAt inv s) : r.left inv = s.left := by
  unfold Runtime.left World.pending
  cases s <;> simp [h.1, h.2, Stage.left]

/-- An invocation is at one stage only. -/
theorem IsAt.unique (h : r.IsAt inv s) (h' : r.IsAt inv s') : s = s' := by
  cases s <;> cases s' <;> simp_all [IsAt]

/-- An invocation with a thread is at the stage of the thread. -/
theorem IsAt.of_thread {before later : List (Thread σ)} {current : Effects σ Unit} {row others : List (Nat × Directive)}
    (h : r.IsAt inv s) (hthreads : r.threads = before ++ ⟨inv, current, row, others⟩ :: later) :
    s = .running current row others ∧ threadsOf inv before = [] ∧ threadsOf inv later = [] ∧
      tailsOf inv r.world.tasks = [] := by
  have hsplit : threadsOf inv r.threads =
      threadsOf inv before ++ ⟨inv, current, row, others⟩ :: threadsOf inv later := by
    rw [hthreads, threadsOf_append]
    simp [threadsOf]
  cases s with
  | running current' row' others' =>
    obtain ⟨hone, htails⟩ := h
    rw [hsplit, List.append_eq_singleton_iff] at hone
    rcases hone with ⟨hbefore, hcons⟩ | ⟨-, hnil⟩
    · simp only [List.cons.injEq, Thread.mk.injEq, true_and] at hcons
      obtain ⟨⟨rfl, rfl, rfl⟩, hlater⟩ := hcons
      exact ⟨rfl, hbefore, hlater, htails⟩
    · simp at hnil
  | waiting ds => simp [hsplit, IsAt] at h
  | finished => simp [hsplit, IsAt] at h

/-- An invocation with directives that are put off is at their stage. -/
theorem IsAt.of_tail {before later : List Task} {due : Nat} {ds : List (Nat × Directive)} (h : r.IsAt inv s)
    (htasks : r.world.tasks = before ++ ⟨due, inv, .tail ds⟩ :: later) :
    s = .waiting ds ∧ threadsOf inv r.threads = [] ∧ tailsOf inv before = [] ∧ tailsOf inv later = [] := by
  have hsplit : tailsOf inv r.world.tasks = tailsOf inv before ++ ds :: tailsOf inv later := by
    rw [htasks, tailsOf_append]
    simp [tailsOf]
  cases s with
  | running current row others => simp [hsplit, IsAt] at h
  | waiting ds' =>
    obtain ⟨hthreads, hone⟩ := h
    rw [hsplit, List.append_eq_singleton_iff] at hone
    rcases hone with ⟨hbefore, hcons⟩ | ⟨-, hnil⟩
    · simp only [List.cons.injEq] at hcons
      obtain ⟨rfl, hlater⟩ := hcons
      exact ⟨rfl, hthreads, hbefore, hlater⟩
    · simp at hnil
  | finished => simp [hsplit, IsAt] at h

theorem Orderly.world (hr : r.Orderly e) : DirectiveEngine.Orderly r.world := by
  refine ⟨hr.tasks, fun inv => ?_⟩
  obtain ⟨s, hs⟩ := hr.stage inv
  cases s <;> simp [hs.2]

theorem Orderly.thread (hr : r.Orderly e) {before later : List (Thread σ)} {t : Thread σ}
    (h : r.threads = before ++ t :: later) : t.InOrder e r.world :=
  hr.threads t (by rw [h]; exact List.mem_append_right _ List.mem_cons_self)

theorem Orderly.task (hr : r.Orderly e) {before later : List Task} {t : Task}
    (h : r.world.tasks = before ++ t :: later) : t.InOrder r.world :=
  hr.tasks t (by rw [h]; exact List.mem_append_right _ List.mem_cons_self)

/-- An invocation that has just entered has a thread for the directives up to the first delayed one. -/
theorem Orderly.isAt_enter (hr : r.Orderly e) (actor : Actor) (args : List Text) (ds : List Directive) :
    (r.enter e actor args ds).IsAt ⟨r.world.invocations, actor, args⟩
      (.running (.done ()) ((Engine.undelayed ds).map fun d => (r.world.now, d)) (e.delayed r.world.now ds)) := by
  have hthreads : threadsOf ⟨r.world.invocations, actor, args⟩ r.threads = [] := by
    refine List.filter_eq_nil_iff.2 fun t ht heq => ?_
    have hknown := (hr.threads t ht).known
    rw [of_decide_eq_true heq] at hknown
    exact Nat.lt_irrefl _ hknown
  refine ⟨?_, hr.world.tailsOf_fresh (Nat.le_refl _)⟩
  rw [enter, threadsOf_append, hthreads]
  simp [threadsOf]

end Runtime

theorem Move.tails_aside {u w : World σ} {a : Act} (h : Move e u a w) (ha : a.isAside = true) (inv : Invocation) :
    tailsOf inv w.tasks = tailsOf inv u.tasks ∧ w.invocations = u.invocations := by
  obtain ⟨before, later, taken, added, hshifts, hu, hw, hinv⟩ := h.tasks
  have hnone : tailsOf inv taken = [] ∧ tailsOf inv added = [] := by
    cases hshifts with
    | enter | directive | panicked => simp [Act.isAside] at ha
    | begun | answered | response | denied | outside | clock =>
      exact ⟨tailsOf_eq_nil (by simp), tailsOf_eq_nil (by simp)⟩
  have hentering : a.entering = 0 := by cases a <;> first | rfl | simp [Act.isAside] at ha
  rw [hu, hw]
  simp [tailsOf_append, hnone, hinv, hentering]

theorem tailsOf_calls {inv inv' : Invocation} {ts : List Task}
    (h : ∀ t ∈ ts, t.invocation = inv' ∧ ∃ call, t.work = .call call) : tailsOf inv ts = [] := by
  refine tailsOf_eq_nil fun t ht ds hds => ?_
  obtain ⟨-, call, hcall⟩ := h t ht
  rw [hcall] at hds
  cases hds

theorem tailsOf_cons_of_ne {inv : Invocation} {t : Task} (h : t.invocation ≠ inv) (ts : List Task) :
    tailsOf inv (t :: ts) = tailsOf inv ts := by
  refine List.filterMap_cons_none ?_
  split
  · rw [if_neg h]
  · rfl

theorem threadsOf_splice {inv : Invocation} {before later : List (Thread σ)} {current : Effects σ Unit}
    {row others : List (Nat × Directive)} (hbefore : threadsOf inv before = []) (hlater : threadsOf inv later = []) :
    threadsOf inv (before ++ ⟨inv, current, row, others⟩ :: later) = [⟨inv, current, row, others⟩] := by
  rw [threadsOf_append, hbefore, List.nil_append, threadsOf, List.filter_cons_of_pos (by simp)]
  exact congrArg _ hlater

namespace Step

variable {r u : Runtime σ} {x : Deed}

/-- An invocation that a step does not take further has the same threads and tails. -/
theorem elsewhere (h : Step e r x u) (hr : r.Orderly e) {inv : Invocation} (hx : x.invocation? ≠ some inv) :
    threadsOf inv u.threads = threadsOf inv r.threads ∧
      tailsOf inv u.world.tasks = tailsOf inv r.world.tasks := by
  cases h with
  | enter actor args ds =>
    have hne : ⟨r.world.invocations, actor, args⟩ ≠ inv := fun h => hx (congrArg some h)
    simp [Runtime.enter, threadsOf, hne]
  | @wake before later due i ds htasks hdue =>
    have hne : i ≠ inv := fun h => hx (congrArg some h)
    rw [htasks]
    simp [threadsOf, hne, tailsOf_append, tailsOf_cons_of_ne (t := ⟨due, i, .tail ds⟩) hne]
  | @start before later i due d row others hthreads =>
    have hne : i ≠ inv := fun h => hx (congrArg some h)
    rw [hthreads]
    simp [threadsOf, hne]
  | @effect before later i act next row others hthreads =>
    have hne : i ≠ inv := fun h => hx (congrArg some h)
    obtain ⟨calls, htasks, hcalls⟩ := ((hr.thread hthreads).tame.1 r.world).tasks
    rw [htasks, tailsOf_append, tailsOf_calls hcalls, List.append_nil, hthreads]
    simp [threadsOf, hne]
  | @finish before later i others hthreads =>
    have hne : i ≠ inv := fun h => hx (congrArg some h)
    have hnone : tailsOf inv (tailTask i others) = [] := by
      cases others with
      | nil => rfl
      | cons d ds => exact tailsOf_cons_of_ne hne []
    rw [after_postponeTail, tailsOf_append, hnone, hthreads]
    simp [threadsOf, hne]
  | @panic before later i rest row others hthreads =>
    have hne : i ≠ inv := fun h => hx (congrArg some h)
    rw [hthreads]
    simp [threadsOf, hne]
  | aside hm ha => exact ⟨rfl, (hm.tails_aside ha inv).1⟩

/-- Only the clock takes time. -/
theorem now_eq (h : Step e r x u) (hr : r.Orderly e) (hx : x ≠ .aside .clock) : u.world.now = r.world.now := by
  cases h with
  | effect hthreads => exact ((hr.thread hthreads).tame.1 r.world).now
  | finish => rw [after_postponeTail]
  | aside hm ha => exact hm.now_eq fun h => hx (congrArg Deed.aside h)
  | enter | wake | start | panic => rfl

theorem now_le (h : Step e r x u) (hr : r.Orderly e) : r.world.now ≤ u.world.now := by
  by_cases hx : x = .aside .clock
  · subst hx
    cases h with
    | aside hm ha => exact hm.now_le
  · exact Nat.le_of_eq (h.now_eq hr hx).symm

/-- A step takes an invocation that has entered from one stage to another. -/
theorem stage (h : Step e r x u) (hr : r.Orderly e) {inv : Invocation} (hid : inv.id < r.world.invocations) {s : Stage σ}
    (hs : r.IsAt inv s) : ∃ s', Stage.Step e inv r.world u.world s x s' ∧ u.IsAt inv s' := by
  by_cases hx : x.invocation? = some inv
  · cases h with
    | enter actor args ds =>
      obtain rfl : _ = inv := Option.some.inj hx
      exact absurd hid (Nat.lt_irrefl _)
    | @wake before later due i ds htasks hdue =>
      obtain rfl : i = inv := Option.some.inj hx
      obtain ⟨rfl, hthreads, hbefore, hlater⟩ := hs.of_tail htasks
      obtain ⟨d, ds', hds⟩ := (hr.task htasks).tail ds rfl
      obtain rfl : ds = (due, d) :: ds' := hds
      refine ⟨_, .wake hdue rfl, ?_, ?_⟩
      · rw [threadsOf_append, hthreads]
        simp [threadsOf]
      · rw [tailsOf_append, hbefore, hlater, List.append_nil]
    | @start before later i due d row others hthreads =>
      obtain rfl : i = inv := Option.some.inj hx
      obtain ⟨rfl, hbefore, hlater, htails⟩ := hs.of_thread hthreads
      exact ⟨_, .start rfl, threadsOf_splice hbefore hlater, htails⟩
    | @effect before later i act next row others hthreads =>
      obtain rfl : i = inv := Option.some.inj hx
      obtain ⟨rfl, hbefore, hlater, htails⟩ := hs.of_thread hthreads
      have htame := (hr.thread hthreads).tame.1 r.world
      obtain ⟨calls, htasks, hcalls⟩ := htame.tasks
      refine ⟨_, .effect rfl htame.now, threadsOf_splice hbefore hlater, ?_⟩
      rw [htasks, tailsOf_append, htails, tailsOf_calls hcalls, List.append_nil]
    | @finish before later i others hthreads =>
      obtain rfl : i = inv := Option.some.inj hx
      obtain ⟨rfl, hbefore, hlater, htails⟩ := hs.of_thread hthreads
      have hnone : threadsOf i (before ++ later) = [] := by rw [threadsOf_append, hbefore, hlater, List.append_nil]
      refine ⟨_, .finish (by rw [after_postponeTail]), ?_⟩
      rw [after_postponeTail]
      cases others with
      | nil => exact ⟨hnone, by simpa [tailTask] using htails⟩
      | cons d ds => exact ⟨hnone, by rw [tailsOf_append, htails]; simp [tailTask, tailsOf]⟩
    | @panic before later i rest row others hthreads =>
      obtain rfl : i = inv := Option.some.inj hx
      obtain ⟨rfl, hbefore, hlater, htails⟩ := hs.of_thread hthreads
      exact ⟨_, .panic rfl, by rw [threadsOf_append, hbefore, hlater, List.append_nil], htails⟩
    | aside hm ha => simp [Deed.invocation?] at hx
  · obtain ⟨hthreads, htails⟩ := h.elsewhere hr hx
    refine ⟨s, .elsewhere hx (h.now_le hr) (h.now_eq hr), ?_⟩
    cases s <;> simpa [Runtime.IsAt, hthreads, htails] using hs

/-- Only a host that may panic does. -/
theorem mayPanic {inv : Invocation} {lost : List (Nat × Directive)} (h : Step e r (.panic inv lost) u)
    (hr : r.Orderly e) : e.host.MayPanic := by
  cases h with
  | panic hthreads => exact (hr.thread hthreads).tame.1

theorem known (h : Step e r x u) (hr : r.Orderly e) {inv : Invocation} (hx : x.invocation? = some inv) :
    x = .enter inv ∨ inv.id < r.world.invocations := by
  cases h with
  | enter => exact .inl (congrArg Deed.enter (Option.some.inj hx))
  | @wake before later due i ds htasks =>
    obtain rfl : i = inv := Option.some.inj hx
    exact .inr (hr.task htasks).known
  | start hthreads | effect hthreads | finish hthreads | panic hthreads =>
    exact .inr (Option.some.inj hx ▸ (hr.thread hthreads).known)
  | aside => simp [Deed.invocation?] at hx

theorem invocations_le (h : Step e r x u) (hr : r.Orderly e) : r.world.invocations ≤ u.world.invocations := by
  cases h with
  | effect hthreads => exact Nat.le_of_eq ((hr.thread hthreads).tame.1 r.world).invocations.symm
  | finish => rw [after_postponeTail]
  | aside hm ha => exact Nat.le_of_eq (hm.tails_aside ha ⟨0, .console, []⟩).2.symm
  | enter => exact Nat.le_succ _
  | wake | start | panic => exact Nat.le_refl _

private theorem threads_inOrder (h : Step e r x u) (hr : r.Orderly e) : ∀ t ∈ u.threads, t.InOrder e u.world := by
  have hle := h.invocations_le hr
  have hold : ∀ t ∈ r.threads, t.InOrder e u.world :=
    fun t ht => ⟨Nat.lt_of_lt_of_le (hr.threads t ht).known hle, (hr.threads t ht).tame⟩
  have hothers {before later : List (Thread σ)} {t : Thread σ} (hthreads : r.threads = before ++ t :: later) :
      ∀ t ∈ before ++ later, t.InOrder e u.world := by
    refine fun t ht => hold t ?_
    rw [hthreads]
    exact ((List.sublist_cons_self _ _).append_left before).subset ht
  have hreplaced {before later : List (Thread σ)} {t t' : Thread σ} (hthreads : r.threads = before ++ t :: later)
      (ht' : t'.InOrder e u.world) : ∀ t ∈ before ++ t' :: later, t.InOrder e u.world := by
    intro y hy
    rcases List.mem_append.1 hy with hy | hy
    · exact hothers hthreads y (List.mem_append_left _ hy)
    · rcases List.mem_cons.1 hy with rfl | hy
      · exact ht'
      · exact hothers hthreads y (List.mem_append_right _ hy)
  have hadded {t' : Thread σ} (ht' : t'.InOrder e u.world) : ∀ t ∈ r.threads ++ [t'], t.InOrder e u.world :=
    fun t ht => (List.mem_append.1 ht).elim (hold t) fun ht => List.mem_singleton.1 ht ▸ ht'
  cases h with
  | enter actor args ds => exact hadded ⟨Nat.lt_succ_self _, trivial⟩
  | wake htasks => exact hadded ⟨(hr.task htasks).known, trivial⟩
  | @start before later i due d row others hthreads =>
    exact hreplaced hthreads ⟨Nat.lt_of_lt_of_le (hr.thread hthreads).known hle, tame_execute e i d⟩
  | effect hthreads =>
    have hi := hr.thread hthreads
    exact hreplaced hthreads ⟨Nat.lt_of_lt_of_le hi.known hle, hi.tame.2 r.world⟩
  | finish hthreads => exact hothers hthreads
  | panic hthreads => exact hothers hthreads
  | aside hm ha => exact hold

private theorem tasks_inOrder (h : Step e r x u) (hr : r.Orderly e) : ∀ t ∈ u.world.tasks, t.InOrder u.world := by
  have hle := h.invocations_le hr
  have hold : ∀ t ∈ r.world.tasks, t.InOrder u.world := fun t ht => (hr.tasks t ht).mono hle
  cases h with
  | enter | start | panic => exact hold
  | @wake before later due i ds htasks =>
    intro t ht
    rcases List.mem_append.1 ht with ht | ht
    · exact hold t (by rw [htasks]; simp [ht])
    · exact hold t (by rw [htasks]; simp [ht])
  | effect hthreads =>
    have hi := hr.thread hthreads
    obtain ⟨calls, htasks, hcalls⟩ := (hi.tame.1 r.world).tasks
    intro t ht
    rw [htasks] at ht
    rcases List.mem_append.1 ht with ht | ht
    · exact hold t ht
    · obtain ⟨hinv, call, hcall⟩ := hcalls t ht
      exact ⟨by rw [hinv]; exact Nat.lt_of_lt_of_le hi.known hle, fun ds hds => by rw [hcall] at hds; cases hds⟩
  | @finish before later i others hthreads =>
    have hi := (hr.thread hthreads).known
    have htasks := congrArg World.tasks (after_postponeTail i others r.world)
    intro t ht
    rcases List.mem_append.1 (htasks ▸ ht) with ht | ht
    · exact hold t ht
    · exact tailTask_inOrder (Nat.lt_of_lt_of_le hi hle) others t ht
  | aside hm ha => exact (hm.orderly hr.world).tasks

theorem orderly (h : Step e r x u) (hr : r.Orderly e) : u.Orderly e := by
  refine ⟨h.tasks_inOrder hr, h.threads_inOrder hr, fun inv => ?_⟩
  obtain ⟨s, hs⟩ := hr.stage inv
  by_cases hx : x.invocation? = some inv
  · rcases h.known hr hx with rfl | hid
    · cases h
      exact ⟨_, hr.isAt_enter _ _ _⟩
    · obtain ⟨s', -, hs'⟩ := h.stage hr hid hs
      exact ⟨s', hs'⟩
  · obtain ⟨hthreads, htails⟩ := h.elsewhere hr hx
    refine ⟨s, ?_⟩
    cases s <;> simpa [Runtime.IsAt, hthreads, htails] using hs

end Step

/-! ### Following an invocation -/

theorem Runtime.orderly_start (e : Engine σ) (host : σ) (store : Store) :
    Runtime.Orderly e { world := { host, store } } :=
  ⟨by simp, by simp, fun _ => ⟨.finished, rfl, rfl⟩⟩

/-- What holds of an invocation where it stands, and is kept by what a step does to its stage, holds behind all steps. -/
theorem Steps.follow {P : List (Moment σ) → World σ → Stage σ → Prop} {r : Runtime σ} (hr : r.Orderly e)
    {inv : Invocation} (hid : inv.id < r.world.invocations) {s : Stage σ} (hs : r.IsAt inv s) (hstart : P [] r.world s)
    (hstep : ∀ {log u w x s s'}, u.Orderly e → u.IsAt inv s → P log u.world s →
      Stage.Step e inv u.world w.world s x s' → P (log ++ [⟨u, x, w⟩]) w.world s')
    {log : List (Moment σ)} {u : Runtime σ} (h : Steps e r log u) :
    u.Orderly e ∧ inv.id < u.world.invocations ∧ ∃ s, u.IsAt inv s ∧ P log u.world s := by
  induction h with
  | nil => exact ⟨hr, hid, s, hs, hstart⟩
  | @snoc log u w x h hx ih =>
    obtain ⟨hu, hid, s, hs, hP⟩ := ih
    obtain ⟨s', hmove, hs'⟩ := hx.stage hu hid hs
    exact ⟨hx.orderly hu, Nat.lt_of_lt_of_le hid (hx.invocations_le hu), s', hs', hstep hu hs hP hmove⟩

theorem Steps.orderly {r u : Runtime σ} {log : List (Moment σ)} (h : Steps e r log u) (hr : r.Orderly e) : u.Orderly e := by
  induction h with
  | nil => exact hr
  | snoc _ hs ih => exact hs.orderly ih

theorem Reachable.orderly {r : Runtime σ} (h : Reachable e r) : r.Orderly e := by
  obtain ⟨host, store, log, hlog⟩ := h
  exact hlog.orderly (Runtime.orderly_start e host store)

end DirectiveEngine
