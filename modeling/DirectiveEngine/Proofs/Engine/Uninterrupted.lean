import DirectiveEngine.Proofs.Engine.Punctual
import DirectiveEngine.Proofs.Engine.Waiting

/-!
# Runs without interruption

The engine itself is one way to interleave: what `Engine.invoke` does is to let the thread of an invocation go on until it
ends (`begin_promptly`), and to wait is to go on with what is due first, as long as something of the invocation is left
(`wait_promptly`).  Time passes only when nothing is due, so these are prompt runs.
-/

namespace DirectiveEngine

variable {σ : Type} {e : Engine σ} {r u v : Runtime σ}

open Run (after)

/-- Steps that lead from one runtime to another, in which no directive is late. -/
def LeadsPromptly (e : Engine σ) (r u : Runtime σ) : Prop :=
  ∃ log, Steps e r log u ∧ Prompt log

namespace LeadsPromptly

theorem refl (r : Runtime σ) : LeadsPromptly e r r :=
  ⟨[], .nil, .nil⟩

theorem trans (h : LeadsPromptly e r u) (h' : LeadsPromptly e u v) : LeadsPromptly e r v := by
  obtain ⟨log, hlog, hprompt⟩ := h
  obtain ⟨log', hlog', hprompt'⟩ := h'
  exact ⟨log ++ log', hlog.trans hlog', hprompt.append hprompt'⟩

theorem of_step {x : Deed} (h : Step e r x u) (hx : x ≠ .aside .clock) : LeadsPromptly e r u :=
  ⟨_, .single h, .single hx⟩

end LeadsPromptly

/-! ### Threads -/

/-- A thread has the effects of its directive, up to a panic of the host. -/
private theorem effects_promptly (inv : Invocation) (row others : List (Nat × Directive)) (before later : List (Thread σ))
    (m : Effects σ Unit) (w : World σ) :
    ((m.attempt.run w).1 = some () → LeadsPromptly e ⟨w, before ++ ⟨inv, m, row, others⟩ :: later⟩
      ⟨(m.attempt.run w).2, before ++ ⟨inv, .done (), row, others⟩ :: later⟩) ∧
    ((m.attempt.run w).1 = none → LeadsPromptly e ⟨w, before ++ ⟨inv, m, row, others⟩ :: later⟩
      ⟨(m.attempt.run w).2, before ++ later⟩) := by
  induction m generalizing w with
  | done a => exact ⟨fun _ => .refl _, nofun⟩
  | effect act next ih =>
    have hfirst : LeadsPromptly e ⟨w, before ++ ⟨inv, .effect act next, row, others⟩ :: later⟩
        ⟨act w, before ++ ⟨inv, next w, row, others⟩ :: later⟩ := .of_step (.effect rfl) nofun
    exact ⟨fun hsome => hfirst.trans ((ih w (act w)).1 hsome), fun hnone => hfirst.trans ((ih w (act w)).2 hnone)⟩
  | panic rest ih => exact ⟨nofun, fun _ => .of_step (.panic rfl) nofun⟩

/-- A thread runs its directives in a row, and puts the others off. -/
theorem row_promptly (e : Engine σ) (inv : Invocation) (row others : List (Nat × Directive))
    (before later : List (Thread σ)) (w : World σ) :
    LeadsPromptly e ⟨w, before ++ ⟨inv, .done (), row, others⟩ :: later⟩
      ⟨after (e.executeRow inv (row.map Prod.snd) others) w, before ++ later⟩ := by
  induction row generalizing w with
  | nil => exact .of_step (.finish rfl) nofun
  | cons d row ih =>
    obtain ⟨due, d⟩ := d
    have hstart : LeadsPromptly e ⟨w, before ++ ⟨inv, .done (), (due, d) :: row, others⟩ :: later⟩
        ⟨w, before ++ ⟨inv, (e.execute inv d).effects, row, others⟩ :: later⟩ := .of_step (.start rfl) nofun
    obtain ⟨hthrough, hpanic⟩ := effects_promptly (e := e) inv row others before later (e.execute inv d).effects w
    rw [List.map_cons, after_executeRow_cons]
    split
    · exact hstart.trans (hpanic ‹_›)
    · obtain ⟨hvalue, hafter⟩ := Run.attempt_of_not_panics ‹_›
      rw [← hafter]
      exact hstart.trans ((hthrough hvalue).trans (ih _))

/-- A thread may go on until it ends. -/
theorem thread_promptly (e : Engine σ) (t : Thread σ) (before later : List (Thread σ)) (w : World σ) :
    ∃ v, LeadsPromptly e ⟨w, before ++ t :: later⟩ ⟨v, before ++ later⟩ := by
  obtain ⟨inv, current, row, others⟩ := t
  obtain ⟨hthrough, hpanic⟩ := effects_promptly (e := e) inv row others before later current w
  cases hvalue : (current.attempt.run w).1 with
  | none => exact ⟨_, hpanic hvalue⟩
  | some _ => exact ⟨_, (hthrough hvalue).trans (row_promptly e inv row others before later _)⟩

/-- What an engine does up to the return of an invocation is to let its thread go on. -/
theorem begin_promptly (e : Engine σ) (actor : Actor) (args : List Text) (ds : List Directive) (r : Runtime σ) :
    LeadsPromptly e (r.enter e actor args ds) ⟨after (e.begin actor args ds) r.world, r.threads⟩ := by
  have hrow := row_promptly e ⟨r.world.invocations, actor, args⟩
    ((Engine.undelayed ds).map fun d => (r.world.now, d)) (e.delayed r.world.now ds) r.threads []
    { r.world with invocations := r.world.invocations + 1 }
  have hids : ((Engine.undelayed ds).map fun d => (r.world.now, d)).map Prod.snd = Engine.undelayed ds := by
    rw [List.map_map]
    exact List.map_id _
  rw [hids, List.append_nil] at hrow
  exact hrow

/-! ### Tasks -/

/-- The engine takes up the task that is due first, when it is due. -/
private theorem runTask_promptly {w : World σ} (h : Orderly w) {before later : List Task} {t : Task}
    (hw : w.tasks = before ++ t :: later) (hmin : ∀ u ∈ w.tasks, t.due ≤ u.due) :
    LeadsPromptly e ⟨w, []⟩ ⟨after (e.runTask t) { w with tasks := before ++ later }, []⟩ := by
  have hin := h.tasks t (by rw [hw]; simp)
  let v : World σ := { w with now := max w.now t.due }
  have hdue : t.due ≤ v.now := Nat.le_max_right _ _
  have hclock : LeadsPromptly e ⟨w, []⟩ ⟨v, []⟩ := by
    by_cases hlate : t.due ≤ w.now
    · have hv : v = w := by simp only [v, Nat.max_eq_left hlate]
      rw [hv]
      exact .refl _
    · have hv : v.now = t.due := Nat.max_eq_right (by omega)
      refine ⟨_, .single (.aside (.clock (Nat.le_max_left _ _)) rfl), fun x hx _ => ?_⟩
      rw [List.mem_singleton.1 hx]
      exact ⟨rfl, fun u hu _ _ => Nat.le_trans (Nat.le_of_eq hv) (hmin u hu)⟩
  rw [← after_runTask_early]
  show LeadsPromptly e ⟨w, []⟩ ⟨after (e.runTask t) { v with tasks := before ++ later }, []⟩
  refine hclock.trans ?_
  obtain ⟨due, inv, work⟩ := t
  cases work with
  | call call => exact .of_step (.aside (.call hw hdue) rfl) nofun
  | response call result => exact .of_step (.aside (.response hw hdue) rfl) nofun
  | tail ds =>
    rw [after_runTask_tail e due (w := { v with tasks := before ++ later }) hdue]
    exact (LeadsPromptly.of_step (.wake hw hdue) nofun).trans (row_promptly e inv _ _ [] [] _)

/-- To wait for an invocation while no directive is under way is to take up what is due. -/
theorem wait_promptly (e : Engine σ) (id : Nat) {w : World σ} (h : Orderly w) :
    LeadsPromptly e ⟨w, []⟩ ⟨after (e.wait id) w, []⟩ := by
  rw [after_wait e id h]
  exact (after_runTasks_induction (P := fun v => LeadsPromptly e ⟨w, []⟩ ⟨v, []⟩) h (.refl _)
    fun hv hleads htasks hmin => hleads.trans (runTask_promptly hv htasks hmin)).2

/-- When an invocation has been waited for, it is finished. -/
theorem isAt_finished_after_wait (e : Engine σ) (inv : Invocation) {w : World σ} (h : Orderly w) :
    Runtime.IsAt ⟨after (e.wait inv.id) w, []⟩ inv .finished := by
  refine ⟨rfl, List.eq_nil_iff_forall_not_mem.2 fun ds hds => ?_⟩
  obtain ⟨t, ht, hinv, -⟩ := mem_tailsOf_iff.1 hds
  exact tasks_after_wait e inv.id h t ht (congrArg Invocation.id hinv)

end DirectiveEngine
