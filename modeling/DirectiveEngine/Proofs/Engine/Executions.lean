import DirectiveEngine.Proofs.Engine.Interleaving

/-!
# Executions

What an interleaving does of one invocation, read off the log: which directives it has begun, what each of them did in
the worlds that it found, and what a panic of the host lost.  The directives that have begun, those lost and those yet to
begin are the plan of the invocation, and no directive begins before the one in front of it is through (`Steps.traced`).
-/

namespace DirectiveEngine

variable {σ α : Type} {e : Engine σ} {inv : Invocation} {r u w : Runtime σ} {log : List (Moment σ)}

/-! ### Walks through effects -/

/-- A walk goes through effects, each of which acts on the world that it finds.  It is the list of these worlds, each with
the one that the effect makes of it. -/
inductive Effects.Walk : Effects σ α → List (World σ × World σ) → Effects σ α → Prop where
  | nil (m : Effects σ α) : Walk m [] m
  | cons {act : World σ → World σ} {next : World σ → Effects σ α} {m : Effects σ α} {w : World σ}
      {l : List (World σ × World σ)} (h : Walk (next w) l m) : Walk (.effect act next) ((w, act w) :: l) m

theorem Effects.Walk.concat {m : Effects σ α} {act : World σ → World σ} {next : World σ → Effects σ α}
    {l : List (World σ × World σ)} (h : m.Walk l (.effect act next)) (w : World σ) :
    m.Walk (l ++ [(w, act w)]) (next w) := by
  generalize hm : Effects.effect act next = m' at h
  induction h with
  | nil =>
    subst hm
    exact .cons (.nil _)
  | cons _ ih => exact .cons (ih hm)

/-! ### What a log holds of an invocation -/

/-- A directive that has begun. -/
structure Execution (σ : Type) where
  due : Nat
  directive : Directive
  /-- When it began. -/
  time : Nat
  /-- What it did, in the worlds that it found. -/
  effects : List (World σ × World σ)

/-- A directive with the time when it was due. -/
def Execution.entry (y : Execution σ) : Nat × Directive :=
  (y.due, y.directive)

/-- The directive has yet to do what `m` says. -/
def Execution.Reaches (e : Engine σ) (inv : Invocation) (y : Execution σ) (m : Effects σ Unit) : Prop :=
  (e.execute inv y.directive).effects.Walk y.effects m

/-- What the last execution is when one effect more has happened. -/
def withEffect (x : World σ × World σ) : List (Execution σ) → List (Execution σ)
  | [] => []
  | y :: ys => { y with effects := y.effects ++ [x] } :: ys

/-- What the executions of an invocation are behind a moment. -/
def Moment.execute (inv : Invocation) (x : Moment σ) (ys : List (Execution σ)) : List (Execution σ) :=
  match x.deed with
  | .start i due d => if i = inv then ⟨due, d, x.before.world.now, []⟩ :: ys else ys
  | .effect i => if i = inv then withEffect (x.before.world, x.behind.world) ys else ys
  | _ => ys

/-- The directives of an invocation that have begun, the last one first. -/
def executionsOf (inv : Invocation) (log : List (Moment σ)) : List (Execution σ) :=
  log.foldl (fun ys x => x.execute inv ys) []

/-- The directives of an invocation that have begun, in the order in which they did. -/
def begunOf (inv : Invocation) (log : List (Moment σ)) : List (Nat × Directive) :=
  ((executionsOf inv log).map Execution.entry).reverse

/-- The directives that a panic takes from an invocation. -/
def Deed.lost (inv : Invocation) : Deed → List (Nat × Directive)
  | panic i ds => if i = inv then ds else []
  | _ => []

def lostOf (inv : Invocation) (log : List (Moment σ)) : List (Nat × Directive) :=
  log.flatMap fun x => x.deed.lost inv

/-- The host has panicked in a directive of the invocation. -/
def Panicked (inv : Invocation) (log : List (Moment σ)) : Prop :=
  ∃ x ∈ log, ∃ ds, x.deed = .panic inv ds

theorem executionsOf_snoc (inv : Invocation) (log : List (Moment σ)) (x : Moment σ) :
    executionsOf inv (log ++ [x]) = x.execute inv (executionsOf inv log) := by
  simp [executionsOf]

theorem executionsOf_start (inv : Invocation) (log : List (Moment σ)) (u w : Runtime σ) (due : Nat) (d : Directive) :
    executionsOf inv (log ++ [⟨u, .start inv due d, w⟩]) = ⟨due, d, u.world.now, []⟩ :: executionsOf inv log :=
  (executionsOf_snoc inv log _).trans (if_pos rfl)

theorem executionsOf_effect (inv : Invocation) (log : List (Moment σ)) (u w : Runtime σ) :
    executionsOf inv (log ++ [⟨u, .effect inv, w⟩]) = withEffect (u.world, w.world) (executionsOf inv log) :=
  (executionsOf_snoc inv log _).trans (if_pos rfl)

theorem lostOf_snoc (inv : Invocation) (log : List (Moment σ)) (x : Moment σ) :
    lostOf inv (log ++ [x]) = lostOf inv log ++ x.deed.lost inv := by
  simp [lostOf]

theorem panicked_snoc {x : Moment σ} :
    Panicked inv (log ++ [x]) ↔ Panicked inv log ∨ ∃ ds, x.deed = .panic inv ds := by
  simp [Panicked, or_and_right, exists_or]

theorem lostOf_eq_nil (h : ¬ Panicked inv log) : lostOf inv log = [] := by
  refine List.flatMap_eq_nil_iff.2 fun x hx => ?_
  cases hdeed : x.deed with
  | panic i ds => exact if_neg fun hi => h ⟨x, hx, ds, by rw [hdeed, hi]⟩
  | _ => rfl

theorem map_entry_withEffect (x : World σ × World σ) (ys : List (Execution σ)) :
    (withEffect x ys).map Execution.entry = ys.map Execution.entry := by
  cases ys <;> rfl

/-- A moment of another invocation adds nothing. -/
theorem Moment.execute_elsewhere {x : Moment σ} (hx : x.deed.invocation? ≠ some inv) (ys : List (Execution σ)) :
    x.execute inv ys = ys ∧ x.deed.lost inv = [] ∧ ∀ ds, x.deed ≠ .panic inv ds := by
  unfold execute
  cases hdeed : x.deed with
  | start i due d | effect i =>
    have hi : i ≠ inv := fun h => hx (by rw [hdeed, h]; rfl)
    simp [hi, Deed.lost]
  | panic i ds =>
    have hi : i ≠ inv := fun h => hx (by rw [hdeed, h]; rfl)
    simp [hi, Deed.lost]
  | _ => simp [Deed.lost]

/-- What holds of each execution is to be shown of a directive that begins and of an effect that it has. -/
theorem Moment.forall_execute {P : Execution σ → Prop} {x : Moment σ} {ys : List (Execution σ)} (h : ∀ y ∈ ys, P y)
    (hstart : ∀ due d, x.deed = .start inv due d → P ⟨due, d, x.before.world.now, []⟩)
    (heffect : x.deed = .effect inv → ∀ y ∈ ys.head?,
      P { y with effects := y.effects ++ [(x.before.world, x.behind.world)] }) :
    ∀ y ∈ x.execute inv ys, P y := by
  unfold execute
  cases hdeed : x.deed with
  | start i due d =>
    by_cases hi : i = inv
    · subst hi
      simpa using ⟨hstart due d hdeed, h⟩
    · simpa [hi] using h
  | effect i =>
    by_cases hi : i = inv
    · subst hi
      cases ys with
      | nil => simp [withEffect]
      | cons y ys =>
        have hrest : ∀ y ∈ ys, P y := fun z hz => h z (List.mem_cons_of_mem _ hz)
        simpa [withEffect] using ⟨heffect hdeed y rfl, hrest⟩
    · simpa [hi] using h
  | _ => exact h

/-! ### The plan -/

/-- How far the last execution has come at a stage. -/
def Stage.Finds (e : Engine σ) (inv : Invocation) (panicked : Prop) (y : Execution σ) : Stage σ → Prop
  | running current _ _ => y.Reaches e inv current
  | waiting _ => y.Reaches e inv (.done ())
  | finished => y.Reaches e inv (.done ()) ∨ panicked ∧ ∃ rest, y.Reaches e inv (.panic rest)

/-- What has happened to an invocation with a plan. -/
structure Traced (e : Engine σ) (inv : Invocation) (plan : List (Nat × Directive)) (log : List (Moment σ))
    (s : Stage σ) : Prop where
  /-- What has begun, what was lost and what has yet to begin is the plan. -/
  plan : begunOf inv log ++ lostOf inv log ++ s.left = plan
  /-- All executions but the last are through. -/
  through : ∀ y ∈ (executionsOf inv log).tail, y.Reaches e inv (.done ())
  last : ∀ y ∈ (executionsOf inv log).head?, s.Finds e inv (Panicked inv log) y
  /-- A panic ends the invocation. -/
  ended : Panicked inv log → s = .finished

namespace Traced

variable {plan row others : List (Nat × Directive)} {s s' : Stage σ} {d : Directive} {due : Nat}

/-- There was no panic before an invocation is finished. -/
theorem intact (h : Traced e inv plan log s) (hs : s ≠ .finished) : ¬ Panicked inv log :=
  fun hp => hs (h.ended hp)

/-- Where the last execution is through, all are. -/
theorem all (h : Traced e inv plan log s)
    (hlast : ∀ y, s.Finds e inv (Panicked inv log) y → y.Reaches e inv (.done ())) :
    ∀ y ∈ executionsOf inv log, y.Reaches e inv (.done ()) := by
  intro y hy
  cases hys : executionsOf inv log with
  | nil => simp [hys] at hy
  | cons z ys =>
    rw [hys] at hy
    rcases List.mem_cons.1 hy with rfl | hy
    · exact hlast y (h.last y (by rw [hys]; rfl))
    · exact h.through y (by rwa [hys])

/-- A moment in which no directive begins or has an effect, and the host does not panic. -/
private theorem calm (h : Traced e inv plan log s) {x : Moment σ}
    (hx : x.execute inv (executionsOf inv log) = executionsOf inv log) (hlost : x.deed.lost inv = [])
    (hpanic : ∀ ds, x.deed ≠ .panic inv ds) (hleft : s'.left = s.left)
    (hfinds : ∀ y, s.Finds e inv (Panicked inv log) y → s'.Finds e inv (Panicked inv log) y)
    (hended : Panicked inv log → s' = .finished) : Traced e inv plan (log ++ [x]) s' := by
  have hsame : executionsOf inv (log ++ [x]) = executionsOf inv log := (executionsOf_snoc inv log x).trans hx
  have hpanicked : Panicked inv (log ++ [x]) ↔ Panicked inv log :=
    panicked_snoc.trans (or_iff_left fun ⟨ds, hds⟩ => hpanic ds hds)
  refine ⟨?_, by rw [hsame]; exact h.through, ?_, fun hp => hended (hpanicked.1 hp)⟩
  · rw [begunOf, hsame, lostOf_snoc, hlost, List.append_nil, hleft]
    exact h.plan
  · rw [hsame, hpanicked]
    exact fun y hy => hfinds y (h.last y hy)

private theorem start (h : Traced e inv plan log (.running (.done ()) ((due, d) :: row) others)) :
    Traced e inv plan (log ++ [⟨u, .start inv due d, w⟩]) (.running (e.execute inv d).effects row others) := by
  have hadded := executionsOf_start inv log u w due d
  have hintact := h.intact (by simp)
  refine ⟨?_, ?_, ?_, ?_⟩
  · rw [begunOf, hadded, lostOf_snoc, ← h.plan, lostOf_eq_nil hintact]
    simp [Deed.lost, Stage.left, begunOf, Execution.entry]
  · -- the execution that was the last is through, as the thread has nothing of it left
    rw [hadded, List.tail_cons]
    exact h.all fun _ => id
  · rw [hadded]
    intro y hy
    obtain rfl : _ = y := Option.some.inj hy
    exact .nil _
  · simpa [panicked_snoc] using hintact

private theorem effect {act : World σ → World σ} {next : World σ → Effects σ Unit}
    (h : Traced e inv plan log (.running (.effect act next) row others)) (hact : w.world = act u.world) :
    Traced e inv plan (log ++ [⟨u, .effect inv, w⟩]) (.running (next u.world) row others) := by
  have hadded := executionsOf_effect inv log u w
  have hthrough := h.through
  have hlast := h.last
  refine ⟨?_, ?_, ?_, ?_⟩
  · rw [begunOf, hadded, lostOf_snoc, ← h.plan, map_entry_withEffect]
    simp [Deed.lost, Stage.left, begunOf]
  · rw [hadded]
    cases hys : executionsOf inv log with
    | nil => simp [withEffect]
    | cons z ys => rwa [hys] at hthrough
  · rw [hadded]
    cases hys : executionsOf inv log with
    | nil => simp [withEffect]
    | cons z ys =>
      intro y hy
      obtain rfl : _ = y := Option.some.inj hy
      have hz : z.Reaches e inv (.effect act next) := hlast z (by rw [hys]; rfl)
      exact hact ▸ Effects.Walk.concat hz u.world
  · simpa [panicked_snoc] using h.intact (by simp)

private theorem panic {rest : Effects σ Unit} (h : Traced e inv plan log (.running (.panic rest) row others)) :
    Traced e inv plan (log ++ [⟨u, .panic inv (row ++ others), w⟩]) .finished := by
  have hsame : executionsOf inv (log ++ [⟨u, .panic inv (row ++ others), w⟩]) = executionsOf inv log :=
    executionsOf_snoc inv log _
  refine ⟨?_, by rw [hsame]; exact h.through, ?_, fun _ => rfl⟩
  · rw [begunOf, hsame, lostOf_snoc, ← h.plan, lostOf_eq_nil (h.intact (by simp))]
    simp [Deed.lost, Stage.left, begunOf]
  · rw [hsame]
    exact fun y hy => .inr ⟨panicked_snoc.2 (.inr ⟨_, rfl⟩), rest, h.last y hy⟩

theorem step {x : Deed} (h : Traced e inv plan log s) (hs : Stage.Step e inv u.world w.world s x s') :
    Traced e inv plan (log ++ [⟨u, x, w⟩]) s' := by
  cases hs with
  | wake hdue hnow =>
    exact h.calm rfl rfl nofun List.takeWhile_append_dropWhile (fun _ => id) fun hp => absurd hp (h.intact (by simp))
  | start hnow => exact h.start
  | effect hact hnow => exact h.effect hact
  | @finish others hnow =>
    refine h.calm rfl rfl nofun ?_ (fun y hy => ?_) fun hp => absurd hp (h.intact (by simp))
    · cases others <;> rfl
    · cases others with
      | nil => exact .inl hy
      | cons d ds => exact hy
  | panic hnow => exact h.panic
  | elsewhere hx hnow hstill =>
    obtain ⟨hsame, hlost, hpanic⟩ := Moment.execute_elsewhere (x := ⟨u, x, w⟩) hx (executionsOf inv log)
    exact h.calm hsame hlost hpanic rfl (fun _ => id) h.ended

/-- Each execution has come somewhere. -/
theorem walks (h : Traced e inv plan log s) : ∀ y ∈ executionsOf inv log, ∃ m, y.Reaches e inv m := by
  intro y hy
  cases hys : executionsOf inv log with
  | nil => simp [hys] at hy
  | cons z ys =>
    rw [hys] at hy
    rcases List.mem_cons.1 hy with rfl | hy
    · have hlast := h.last y (by rw [hys]; rfl)
      cases s with
      | running current row others => exact ⟨_, hlast⟩
      | waiting ds => exact ⟨_, hlast⟩
      | finished => exact hlast.elim (fun hdone => ⟨_, hdone⟩) fun ⟨_, rest, hrest⟩ => ⟨_, hrest⟩
    · exact ⟨_, h.through y (by rwa [hys])⟩

end Traced

/-! ### Where a plan ends -/

/-- The directives of a plan have run, in order, and nothing else of the invocation has. -/
structure Completed (e : Engine σ) (inv : Invocation) (plan : List (Nat × Directive)) (log : List (Moment σ)) :
    Prop where
  begun : begunOf inv log = plan
  through : ∀ y ∈ executionsOf inv log, y.Reaches e inv (.done ())

/-- Between two directives of a plan, those in front of what is left have run. -/
theorem Traced.completed {plan row others : List (Nat × Directive)}
    (h : Traced e inv plan log (.running (.done ()) row others)) :
    ∃ front, plan = front ++ (row ++ others) ∧ Completed e inv front log := by
  refine ⟨begunOf inv log, ?_, rfl, h.all fun _ => id⟩
  rw [← h.plan, lostOf_eq_nil (h.intact nofun), List.append_nil]
  rfl

/-- Where an invocation is finished, all of its plan has run, unless the host has panicked. -/
theorem Traced.finished {plan : List (Nat × Directive)} (h : Traced e inv plan log .finished) :
    Panicked inv log ∨ Completed e inv plan log := by
  refine or_iff_not_imp_left.2 fun hpanic => ⟨?_, h.all fun y hy => hy.resolve_right fun hp => hpanic hp.1⟩
  have hplan := h.plan
  rwa [lostOf_eq_nil hpanic, List.append_nil, Stage.left, List.append_nil] at hplan

theorem Steps.mayPanic (h : Steps e r log u) (hr : r.Orderly e) (hpanicked : Panicked inv log) : e.host.MayPanic := by
  obtain ⟨x, hx, lost, hdeed⟩ := hpanicked
  obtain ⟨before, later, rfl⟩ := List.append_of_mem hx
  obtain ⟨hbefore, hstep, -⟩ := h.cut
  rw [hdeed] at hstep
  exact hstep.mayPanic (hbefore.orderly hr)

/-- However the steps of an invocation are interleaved with others, it goes through its plan in order. -/
theorem Steps.traced (hr : r.Orderly e) (hid : inv.id < r.world.invocations) {s : Stage σ} (hs : r.IsAt inv s)
    (h : Steps e r log u) : ∃ s, u.IsAt inv s ∧ Traced e inv (r.left inv) log s := by
  have hstart : Traced e inv (r.left inv) [] s := by
    refine ⟨?_, by simp [executionsOf], by simp [executionsOf], fun hp => ?_⟩
    · rw [hs.left]
      simp [begunOf, executionsOf, lostOf]
    · obtain ⟨x, hx, -⟩ := hp
      simp at hx
  obtain ⟨-, -, s', hs', htraced⟩ := h.follow (P := fun log _ s => Traced e inv (r.left inv) log s) hr hid hs hstart
    fun _ _ htraced hstep => htraced.step hstep
  exact ⟨s', hs', htraced⟩

end DirectiveEngine
