import DirectiveEngine.Proofs.Engine.Executions

/-!
# Time

No directive begins before it is due (`Steps.notEarly`), but each may begin late and have its effects later still, as
effects take time and the clock may pass whatever is due.  In a run where time passes only while nothing is under way,
and stops where the next directive is due, everything happens on time (`Steps.punctual`).
-/

namespace DirectiveEngine

variable {σ : Type} {e : Engine σ} {inv : Invocation} {r u w : Runtime σ} {log log' : List (Moment σ)}

/-! ### Nothing is early -/

/-- Nothing is under way before it is due. -/
def Stage.NotEarly (now : Nat) : Stage σ → Prop
  | running _ row _ => ∀ d ∈ row, d.1 ≤ now
  | waiting _ => True
  | finished => True

theorem Stage.NotEarly.step {u w : World σ} {s s' : Stage σ} {x : Deed} (h : s.NotEarly u.now)
    (hs : Stage.Step e inv u w s x s') : s'.NotEarly w.now := by
  cases hs with
  | wake hdue hnow => exact fun d hd => hnow ▸ le_of_mem_takeWhile hd
  | start hnow => exact fun d hd => hnow ▸ h d (List.mem_cons_of_mem _ hd)
  | effect hact hnow => exact fun d hd => hnow ▸ h d hd
  | @finish others hnow => cases others <;> trivial
  | panic hnow => trivial
  | @elsewhere s _ hx hnow hstill =>
    cases s with
    | running current row others => exact fun d hd => Nat.le_trans (h d hd) hnow
    | waiting ds => trivial
    | finished => trivial

/-- No directive begins before it is due. -/
theorem Steps.notEarly (hr : r.Orderly e) (hid : inv.id < r.world.invocations) {s : Stage σ} (hs : r.IsAt inv s)
    (hstart : s.NotEarly r.world.now) (h : Steps e r log u) : ∀ y ∈ executionsOf inv log, y.due ≤ y.time := by
  obtain ⟨-, -, _, -, -, hall⟩ := h.follow
    (P := fun log w s => s.NotEarly w.now ∧ ∀ y ∈ executionsOf inv log, y.due ≤ y.time) hr hid hs
    ⟨hstart, by simp [executionsOf]⟩ fun {log u w x s s'} _ _ ⟨hearly, hall⟩ hstep => by
      refine ⟨hearly.step hstep, ?_⟩
      rw [executionsOf_snoc]
      refine Moment.forall_execute hall (fun due d hdeed => ?_) fun _ y hy => hall y (List.mem_of_mem_head? hy)
      obtain rfl : x = .start inv due d := hdeed
      cases hstep with
      | start hnow => exact hearly _ List.mem_cons_self
      | elsewhere hx => exact absurd rfl hx
  exact hall

/-! ### Runs on time -/

/-- Time passes only when no directive is under way, and to no later time than when the next one is due. -/
def Prompt (log : List (Moment σ)) : Prop :=
  ∀ x ∈ log, x.deed = .aside .clock →
    x.before.threads = [] ∧ ∀ t ∈ x.before.world.tasks, ∀ ds, t.work = .tail ds → x.behind.world.now ≤ t.due

theorem Prompt.nil : Prompt ([] : List (Moment σ)) :=
  fun _ hx => absurd hx List.not_mem_nil

theorem Prompt.append (h : Prompt log) (h' : Prompt log') : Prompt (log ++ log') :=
  fun x hx => (List.mem_append.1 hx).elim (h x) (h' x)

theorem Prompt.single {x : Moment σ} (hx : x.deed ≠ .aside .clock) : Prompt [x] :=
  fun _ hy hdeed => absurd (List.mem_singleton.1 hy ▸ hdeed) hx

/-- All that an invocation did was done when it was due, and what it has yet to begin is not overdue. -/
structure Punctual (inv : Invocation) (log : List (Moment σ)) (now : Nat) (s : Stage σ) : Prop where
  executions : ∀ y ∈ executionsOf inv log, y.time = y.due ∧ ∀ z ∈ y.effects, z.1.now = y.due
  /-- What a directive has yet to do is due now. -/
  current : ∀ act next row others, s = .running (.effect act next) row others →
    ∀ y ∈ (executionsOf inv log).head?, y.due = now
  row : ∀ current row others, s = .running current row others → ∀ d ∈ row, d.1 = now
  left : ∀ d ∈ s.left, now ≤ d.1
  sorted : s.left.Pairwise fun d d' => d.1 ≤ d'.1

namespace Punctual

variable {now : Nat} {row others ds : List (Nat × Directive)} {s s' : Stage σ} {due : Nat} {d : Directive}

/-- Where nothing of the invocation happens and no time passes, all stays as it is. -/
private theorem still (h : Punctual inv log now s) {x : Moment σ}
    (hx : x.execute inv (executionsOf inv log) = executionsOf inv log) : Punctual inv (log ++ [x]) now s := by
  have hsame : executionsOf inv (log ++ [x]) = executionsOf inv log := (executionsOf_snoc inv log x).trans hx
  exact ⟨hsame ▸ h.executions, hsame ▸ h.current, h.row, h.left, h.sorted⟩

/-- A stage that has nothing in front of what is left. -/
private theorem moved (h : Punctual inv log now s) (hleft : s'.left.Sublist s.left)
    (hcurrent : ∀ act next row others, s' ≠ .running (.effect act next) row others)
    (hrow : ∀ current row others, s' = .running current row others → ∀ d ∈ row, d.1 = now) :
    Punctual inv log now s' :=
  ⟨h.executions, fun act next row others hs => absurd hs (hcurrent act next row others), hrow,
    fun d hd => h.left d (hleft.subset hd), h.sorted.sublist hleft⟩

private theorem wake (h : Punctual inv log now (.waiting ds)) :
    Punctual inv log now
      (.running (.done ()) (ds.takeWhile fun d => d.1 ≤ now) (ds.dropWhile fun d => d.1 ≤ now)) := by
  refine h.moved (by simp [Stage.left]) nofun ?_
  rintro _ _ _ ⟨⟩ d hd
  exact Nat.le_antisymm (le_of_mem_takeWhile hd) (h.left d ((List.takeWhile_prefix _).subset hd))

private theorem start (h : Punctual inv log u.world.now (.running (.done ()) ((due, d) :: row) others)) :
    Punctual inv (log ++ [⟨u, .start inv due d, w⟩]) u.world.now (.running (e.execute inv d).effects row others) := by
  have hdue : due = u.world.now := h.row _ _ _ rfl _ List.mem_cons_self
  have hadded := executionsOf_start inv log u w due d
  refine ⟨?_, ?_, ?_, fun d hd => h.left d (List.mem_cons_of_mem _ hd), h.sorted.of_cons⟩
  · rw [hadded, List.forall_mem_cons]
    exact ⟨⟨hdue.symm, by simp⟩, h.executions⟩
  · rw [hadded]
    rintro _ _ _ _ - y hy
    obtain rfl : _ = y := Option.some.inj hy
    exact hdue
  · rintro _ _ _ ⟨⟩ d hd
    exact h.row _ _ _ rfl d (List.mem_cons_of_mem _ hd)

private theorem effect {act : World σ → World σ} {next : World σ → Effects σ Unit}
    (h : Punctual inv log u.world.now (.running (.effect act next) row others)) :
    Punctual inv (log ++ [⟨u, .effect inv, w⟩]) u.world.now (.running (next u.world) row others) := by
  have hadded := executionsOf_effect inv log u w
  have hlast : ∀ y ∈ (executionsOf inv log).head?, y.due = u.world.now := h.current _ _ _ _ rfl
  have hall := h.executions
  refine ⟨?_, ?_, ?_, h.left, h.sorted⟩
  · rw [hadded]
    cases hys : executionsOf inv log with
    | nil => simp [withEffect]
    | cons y ys =>
      rw [hys] at hall hlast
      obtain ⟨⟨htime, heffects⟩, hrest⟩ := List.forall_mem_cons.1 hall
      refine List.forall_mem_cons.2 ⟨⟨htime, fun z hz => ?_⟩, hrest⟩
      rcases List.mem_append.1 hz with hz | hz
      · exact heffects z hz
      · rw [List.mem_singleton.1 hz]
        exact (hlast y rfl).symm
  · rw [hadded]
    rintro _ _ _ _ - y hy
    cases hys : executionsOf inv log with
    | nil => simp [hys, withEffect] at hy
    | cons z ys =>
      rw [hys] at hy hlast
      obtain rfl : _ = y := Option.some.inj hy
      exact hlast z rfl
  · rintro _ _ _ ⟨⟩ d hd
    exact h.row _ _ _ rfl d hd

private theorem behind (h : Punctual inv log now (.running (.done ()) [] others)) :
    Punctual inv log now (.behind others) := by
  cases others with
  | nil => exact h.moved (List.Sublist.refl _) nofun nofun
  | cons d ds => exact h.moved (List.Sublist.refl _) nofun nofun

private theorem finished (h : Punctual inv log now s) : Punctual inv log now .finished :=
  h.moved (List.nil_sublist _) nofun nofun

/-- Time passes up to where the first of the directives is due that are put off, and no further. -/
private theorem clock (h : Punctual inv log now s) (hu : u.Orderly e) (hs : u.IsAt inv s) (hnone : u.threads = [])
    {later : Nat} (hlater : ∀ t ∈ u.world.tasks, ∀ ds, t.work = .tail ds → later ≤ t.due) :
    Punctual inv log later s := by
  cases s with
  | running current row others =>
    have hone := hs.1
    rw [hnone] at hone
    simp [threadsOf] at hone
  | finished => exact ⟨h.executions, by rintro _ _ _ _ ⟨⟩, by rintro _ _ _ ⟨⟩, by simp [Stage.left], List.Pairwise.nil⟩
  | waiting ds =>
    refine ⟨h.executions, by rintro _ _ _ _ ⟨⟩, by rintro _ _ _ ⟨⟩, fun d hd => ?_, h.sorted⟩
    obtain ⟨t, ht, -, htail⟩ := mem_tailsOf_iff.1 (show ds ∈ tailsOf inv u.world.tasks by rw [hs.2]; simp)
    obtain ⟨d', ds', rfl⟩ := (hu.tasks t ht).tail ds htail
    refine Nat.le_trans (hlater t ht _ htail) ?_
    rcases List.mem_cons.1 hd with rfl | hd
    · exact Nat.le_refl _
    · exact List.rel_of_pairwise_cons h.sorted hd

theorem step {x : Deed} (h : Punctual inv log u.world.now s) (hu : u.Orderly e) (hs : u.IsAt inv s)
    (hprompt : Prompt [⟨u, x, w⟩]) (hstep : Stage.Step e inv u.world w.world s x s') :
    Punctual inv (log ++ [⟨u, x, w⟩]) w.world.now s' := by
  cases hstep with
  | wake hdue hnow => rw [hnow]; exact h.wake.still rfl
  | start hnow => rw [hnow]; exact h.start
  | effect hact hnow => rw [hnow]; exact h.effect
  | finish hnow => rw [hnow]; exact h.behind.still rfl
  | panic hnow => rw [hnow]; exact h.finished.still rfl
  | elsewhere hx hnow hstill =>
    have hsame := (Moment.execute_elsewhere (x := ⟨u, x, w⟩) hx (executionsOf inv log)).1
    refine .still ?_ hsame
    by_cases hclock : x = .aside .clock
    · obtain ⟨hnone, hlater⟩ := hprompt _ (List.mem_singleton_self _) hclock
      exact h.clock hu hs hnone hlater
    · rw [hstill hclock]; exact h

end Punctual

/-- In a prompt run each directive begins when it is due, and all its effects are of that time. -/
theorem Steps.punctual (hr : r.Orderly e) (hid : inv.id < r.world.invocations) {s : Stage σ} (hs : r.IsAt inv s)
    (hstart : Punctual inv [] r.world.now s) (h : Steps e r log u) (hprompt : Prompt log) :
    ∀ y ∈ executionsOf inv log, y.time = y.due ∧ ∀ z ∈ y.effects, z.1.now = y.due := by
  obtain ⟨-, -, _, -, hall⟩ := h.follow (P := fun log w s => Prompt log → Punctual inv log w.now s) hr hid hs
    (fun _ => hstart) fun hu hs hpunctual hstep hprompt =>
      (hpunctual fun x hx => hprompt x (List.mem_append_left _ hx)).step hu hs
        (fun x hx => hprompt x (List.mem_append_right _ hx)) hstep
  exact (hall hprompt).executions

end DirectiveEngine
