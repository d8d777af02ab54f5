import DirectiveEngine.Host.Scripted
import DirectiveEngine.Proofs.Directive.Selection
import DirectiveEngine.Proofs.Engine.Dispatch
import DirectiveEngine.Proofs.Engine.Trail

/-!
# Lines for the console

A line of a player's invocation is dispatched by the console just if the action that it comes from is a command with a
console mark (`console_by_text`).  Which actions of a list these are is written in their texts: arguments, variables,
files, outputs and responses make the line, and never its runner.
-/

namespace DirectiveEngine

variable {σ : Type} {e : Engine σ} {u v w : World σ}

open Run (after)

/-! ### The lines that a directive dispatches -/

/-- Of a line nothing is dispatched but itself, and it is if it may be. -/
theorem Engine.Outcome.dispatch_mem_iff {inv : Invocation} {actor : Actor} {silent : Bool} {line : Text}
    {evs : List Event} (h : e.Outcome inv actor silent line evs) {a : Actor} {l : Text} {s : Bool} :
    .dispatch a l s ∈ evs ↔ a = actor ∧ s = silent ∧ e.Dispatchable line.trim ∧ l = line.trim := by
  cases h with
  | blank h =>
    have hno : ¬ e.Dispatchable line.trim := fun hline => hline.ne_nil (Text.trim_eq_nil_iff.2 h)
    simp [hno]
  | blacklisted h =>
    have hno : ¬ e.Dispatchable line.trim := fun hline => hline.allowed (by rwa [Text.firstWord_trim])
    simp [hno]
  | dispatched h =>
    simp only [List.mem_singleton, Event.dispatch.injEq, h, true_and]
    tauto

theorem dispatch_mem_flatten_iff {inv : Invocation} {actor : Actor} {silent : Bool} {lines : List Text}
    {evss : List (List Event)} (h : List.Forall₂ (e.Outcome inv actor silent) lines evss) {a : Actor} {l : Text}
    {s : Bool} :
    .dispatch a l s ∈ evss.flatten ↔
      a = actor ∧ s = silent ∧ ∃ line ∈ lines, e.Dispatchable line.trim ∧ l = line.trim := by
  induction h with
  | nil => simp
  | cons hline _ ih =>
    rw [List.flatten_cons, List.mem_append, hline.dispatch_mem_iff, ih]
    simp only [List.mem_cons, exists_eq_or_imp]
    tauto

theorem output_of_append {new : List (Nat × Event)} (h : w.history = new ++ u.history) :
    w.output = u.output ++ ((new.map Prod.snd).filter Event.isOutput).reverse := by
  unfold World.output
  rw [h, List.map_append, List.filter_append, List.reverse_append]

theorem lines_of_ne {inv : Invocation} {d : Directive} (hcommand : d.kind ≠ .command)
    (hloop : ∀ loop, d.kind ≠ .loop loop) : e.lines inv d w = [] := by
  unfold Engine.lines
  split
  · split
    · exact absurd ‹_› hcommand
    · exact absurd ‹_› (hloop _)
    · rfl
  · rfl

/-- A directive dispatches those of its lines that may be dispatched, by the one who runs it. -/
theorem dispatch_mem_execute_iff (e : Engine σ) (inv : Invocation) (d : Directive) {new : List (Nat × Event)}
    (hnew : (after (e.execute inv d) w).history = new ++ w.history) {actor : Actor} {line : Text} {silent : Bool} :
    (∃ t, (t, .dispatch actor line silent) ∈ new) ↔ actor = d.runner inv ∧ silent = d.isSilent ∧
      ∃ l ∈ e.lines inv d (after (Run.note (.directive inv.id d)) w), e.Dispatchable l.trim ∧ line = l.trim := by
  by_cases hd : d.kind = .command ∨ ∃ loop, d.kind = .loop loop
  · obtain ⟨evss, hlines, hout⟩ := execute_outcomes e inv hd w
    rw [output_of_append hnew] at hout
    -- the new events that are output are those of the lines
    have hmem : (∃ t, (t, .dispatch actor line silent) ∈ new) ↔ .dispatch actor line silent ∈ evss.flatten := by
      rw [← List.append_cancel_left hout, List.mem_reverse, List.mem_filter]
      simp [Event.isOutput]
    rw [hmem, dispatch_mem_flatten_iff hlines]
  · have hcommand : d.kind ≠ .command := fun h => hd (.inl h)
    have hloop (loop) : d.kind ≠ .loop loop := fun h => hd (.inr ⟨loop, h⟩)
    obtain ⟨new', hnew', hnotes⟩ := notesOnly_execute_of_ne e inv hcommand hloop w
    obtain rfl : new = new' := List.append_cancel_right (hnew.symm.trans hnew')
    rw [lines_of_ne hcommand hloop]
    refine ⟨fun ⟨t, ht⟩ => ?_, by simp⟩
    cases hnotes _ ht

/-! ### Entries that dispatch -/

def Entry.DispatchesAs (x : Entry σ) (actor : Actor) : Prop :=
  ∃ t line silent, (t, .dispatch actor line silent) ∈ x.events

/-- In the name of a player nothing dispatches by the console but a directive that goes through. -/
theorem Engine.Noted.directive_of_console {now : Nat} {a : Act} {evs : List (Nat × Event)} (h : e.Noted now a evs)
    {t : Nat} {line : Text} {silent : Bool} (hmem : (t, .dispatch .console line silent) ∈ evs) {inv : Invocation}
    (ha : a.invocation? = some inv) (hplayer : inv.actor ≠ .console) : ∃ d, a.directiveOf? inv = some d := by
  cases h with
  | directive _ d =>
    cases ha
    exact ⟨d, by simp [Act.directiveOf?, Act.ran?, Option.filter]⟩
  | panicked hnotes d =>
    cases ha
    -- before it panics, a directive dispatches by its actor only
    have hactor {actor : Actor} (hev : e.NotesBefore inv (.dispatch actor line silent)) : actor = inv.actor := by
      cases hev with
      | notes hnotes => cases hnotes
      | dispatch => rfl
    exact absurd (hactor (hnotes _ hmem)).symm hplayer
  | answered call _ hconcludes =>
    simp only [List.mem_cons, Prod.mk.injEq, reduceCtorEq, and_false, false_or] at hmem
    cases hconcludes _ hmem
  | response call result hconcludes =>
    simp only [List.mem_cons, Prod.mk.injEq, reduceCtorEq, and_false, false_or] at hmem
    cases hconcludes _ hmem
  | enter | begun | denied | outside | clock => simp at hmem

theorem Move.dispatchesAs_iff {a : Act} (h : Move e u a w) {inv : Invocation} {d : Directive}
    (ha : a.directiveOf? inv = some d) :
    ∃ tasks, ∀ actor, (⟨u, a, w⟩ : Entry σ).DispatchesAs actor ↔ actor = d.runner inv ∧
      ∃ l ∈ e.lines inv d (after (Run.note (.directive inv.id d)) { u with tasks }), e.Dispatchable l.trim := by
  obtain ⟨evs, hevs, -⟩ := h.noted
  obtain ⟨tasks, ds, rfl, rfl⟩ := h.directive_eq ha
  -- putting off the rest of the tail notes nothing
  rw [after_advance] at hevs
  have hmem {actor : Actor} {line : Text} {silent : Bool} : (∃ t, (t, .dispatch actor line silent) ∈ evs.reverse) ↔ _ :=
    dispatch_mem_execute_iff e inv d hevs
  refine ⟨tasks, fun actor => ?_⟩
  unfold Entry.DispatchesAs
  rw [Entry.events_eq (by rw [after_advance]; exact hevs)]
  constructor
  · rintro ⟨t, line, silent, ht⟩
    obtain ⟨hactor, -, l, hl, hline, -⟩ := hmem.1 ⟨t, List.mem_reverse.2 ht⟩
    exact ⟨hactor, l, hl, hline⟩
  · rintro ⟨hactor, l, hl, hline⟩
    obtain ⟨t, ht⟩ := hmem.2 ⟨hactor, rfl, l, hl, hline, rfl⟩
    exact ⟨t, _, _, List.mem_reverse.1 ht⟩

/-! ### Runs of a player -/

/-- The action at a position of a list is a command with a console mark. -/
def isConsoleAction (actions : List Text) (position : Nat) : Bool :=
  match (actions.map Directive.parse)[position]? with
  | some d => d.kind == .command && d.asConsole
  | none => false

/-- A player invokes a list of actions in the middle of a session, and whatever happens behind that. -/
structure PlayerRun (draw : Nat) (actions : List Text) where
  State : Type
  engine : Engine State
  start : World State
  session : Session engine start
  player : ActorId
  args : List Text
  log : List (Entry State)
  finish : World State
  trail : Trail engine
    (after (engine.enter (.player player) args (collapseRandom draw (actions.map Directive.parse))) start) log finish

namespace PlayerRun

variable {draw : Nat} {actions : List Text} (r : PlayerRun draw actions)

def invocation : Invocation :=
  ⟨r.start.invocations, .player r.player, r.args⟩

/-- The action at a position of the list runs in an entry. -/
def RunsAt (position : Nat) (x : Entry r.State) : Prop :=
  ∃ i : Nat, (runsOf r.invocation r.log)[i]?.map Prod.snd = some x ∧
    (keptAt draw (actions.map Directive.parse))[i]?.map Prod.snd = some position

variable {r}

private theorem kept_of_runsOf {i : Nat} {d : Directive} {x : Entry r.State}
    (h : (runsOf r.invocation r.log)[i]? = some (d, x)) :
    ∃ position, (keptAt draw (actions.map Directive.parse))[i]? = some (d, position) := by
  have hran : ((runsOf r.invocation r.log).map Prod.fst)[i]? = some d := by rw [List.getElem?_map, h]; rfl
  obtain ⟨hi, hd⟩ := List.getElem?_eq_some_iff.1 hran
  have hprefix : (runsOf r.invocation r.log).map Prod.fst <+:
      (keptAt draw (actions.map Directive.parse)).map Prod.fst := by
    rw [map_fst_keptAt]
    exact runsOf_prefix r.session.trail.1 r.trail
  have hkept := List.prefix_iff_getElem?.1 hprefix i hi
  rw [List.getElem?_map, hd] at hkept
  obtain ⟨⟨_, position⟩, hx, rfl⟩ := Option.map_eq_some_iff.1 hkept
  exact ⟨position, hx⟩

/-- What runs at a position is what the text there says. -/
theorem directive_of_runsAt {position : Nat} {x : Entry r.State} (h : r.RunsAt position x) :
    ∃ d, (actions.map Directive.parse)[position]? = some d ∧ x ∈ r.log ∧ x.act.directiveOf? r.invocation = some d := by
  obtain ⟨i, hx, hposition⟩ := h
  obtain ⟨⟨d, x⟩, hran, rfl⟩ := Option.map_eq_some_iff.1 hx
  obtain ⟨position', hkept⟩ := kept_of_runsOf hran
  rw [hkept] at hposition
  obtain rfl : position' = position := Option.some.inj hposition
  exact ⟨d, getElem?_of_mem_keptAt (List.mem_of_getElem? hkept), mem_runsOf.1 (List.mem_of_getElem? hran)⟩

theorem exists_runsAt {x : Entry r.State} (hx : x ∈ r.log) {d : Directive}
    (hd : x.act.directiveOf? r.invocation = some d) : ∃ position, r.RunsAt position x := by
  obtain ⟨i, hi⟩ := List.getElem?_of_mem (mem_runsOf.2 ⟨hx, hd⟩)
  obtain ⟨position, hkept⟩ := kept_of_runsOf hi
  exact ⟨position, i, by rw [hi]; rfl, by rw [hkept]; rfl⟩

/-- Who runs the lines of the action at a position is written in its text. -/
theorem runner_eq {position : Nat} {d : Directive} (h : (actions.map Directive.parse)[position]? = some d) :
    d.runner r.invocation = if isConsoleAction actions position then .console else .player r.player := by
  unfold Directive.runner isConsoleAction
  rw [h]
  simp [invocation]

/-- The lines of an action are dispatched by the console if its text says so and else by the player, whatever they
are. -/
theorem dispatchesAs_of_runsAt {position : Nat} {x : Entry r.State} (h : r.RunsAt position x) :
    ∃ d tasks, (actions.map Directive.parse)[position]? = some d ∧ ∀ actor, x.DispatchesAs actor ↔
      (actor = if isConsoleAction actions position then .console else .player r.player) ∧
        ∃ l ∈ r.engine.lines r.invocation d
          (after (Run.note (.directive r.invocation.id d)) { x.before with tasks }), r.engine.Dispatchable l.trim := by
  obtain ⟨d, hd, hx, hact⟩ := directive_of_runsAt h
  obtain ⟨_, -, hmove⟩ := r.trail.entry hx
  obtain ⟨tasks, hiff⟩ := hmove.dispatchesAs_iff hact
  rw [runner_eq hd] at hiff
  exact ⟨d, tasks, hd, hiff⟩

end PlayerRun

/-- In an invocation of a player every dispatch by the console comes from an action whose text parses to a command with
a console mark.  An action dispatches its lines by the console if that is so, and by the player if not.  So two runs of
a list with one draw agree on who runs the lines of each action, whatever else differs between them. -/
theorem console_by_text (draw : Nat) (actions : List Text) :
    (∀ (r : PlayerRun draw actions), ∀ x ∈ r.log, x.act.invocation? = some r.invocation → x.DispatchesAs .console →
      ∃ position, r.RunsAt position x ∧ isConsoleAction actions position) ∧
    (∀ (r : PlayerRun draw actions) position x, r.RunsAt position x →
      ∃ d tasks, (actions.map Directive.parse)[position]? = some d ∧ ∀ actor, x.DispatchesAs actor ↔
        (actor = if isConsoleAction actions position then .console else .player r.player) ∧
          ∃ l ∈ r.engine.lines r.invocation d
            (after (Run.note (.directive r.invocation.id d)) { x.before with tasks }), r.engine.Dispatchable l.trim) ∧
    ∀ (r r' : PlayerRun draw actions) position x x', r.RunsAt position x → r'.RunsAt position x' →
      ∀ actor actor', x.DispatchesAs actor → x'.DispatchesAs actor' → (actor = .console ↔ actor' = .console) := by
  -- an entry that dispatches runs a directive, and that has a place in the list
  refine ⟨fun r x hx hinv hdispatch => ?_, fun r position x h => PlayerRun.dispatchesAs_of_runsAt h, ?_⟩
  · obtain ⟨_, -, hmove⟩ := r.trail.entry hx
    obtain ⟨t, line, silent, hmem⟩ := hdispatch
    obtain ⟨d, hact⟩ := hmove.noted_events.directive_of_console hmem hinv (by simp [PlayerRun.invocation])
    obtain ⟨position, hposition⟩ := PlayerRun.exists_runsAt hx hact
    refine ⟨position, hposition, ?_⟩
    obtain ⟨_, _, -, hiff⟩ := PlayerRun.dispatchesAs_of_runsAt hposition
    have hrunner := ((hiff .console).1 ⟨t, line, silent, hmem⟩).1
    by_contra hno
    simp [hno] at hrunner
  · intro r r' position x x' h h' actor actor' hdispatch hdispatch'
    obtain ⟨_, _, -, hiff⟩ := PlayerRun.dispatchesAs_of_runsAt h
    obtain ⟨_, _, -, hiff'⟩ := PlayerRun.dispatchesAs_of_runsAt h'
    rw [((hiff actor).1 hdispatch).1, ((hiff' actor').1 hdispatch').1]
    by_cases hconsole : isConsoleAction actions position <;> simp [hconsole]

/-- A line for the console and one for the player. -/
theorem console_by_text_say :
    let actions : List Text := ["!say a", "say b"]
    ∃ (r : PlayerRun 0 actions) (x : Entry r.State), x.DispatchesAs .console ∧
      ∃ position, r.RunsAt position x ∧ isConsoleAction actions position := by
  intro actions
  let e : Engine Script := { host := Script.host, config := {} }
  let start : World Script := { host := { files := ⟨[], [], []⟩ } }
  let inv : Invocation := ⟨0, .player "p", []⟩
  let d := Directive.parse "!say a"
  let d' := Directive.parse "say b"
  have hlist : collapseRandom 0 (actions.map Directive.parse) = [d, d'] := by decide +kernel
  let u := after (e.enter (.player "p") [] [d, d']) start
  have htasks : u.tasks = [] ++ ⟨0, inv, .tail [(0, d), (0, d')]⟩ :: [] := rfl
  have hmove := Move.directive (e := e) htasks (Nat.le_refl 0) (by decide +kernel)
  let r : PlayerRun 0 actions :=
    { State := Script, engine := e, start, session := .start _ _, player := "p", args := [], log := _, finish := _,
      trail := by rw [hlist]; exact hmove.trail }
  have hdispatch : (⟨u, .directive inv d none, after (e.advance inv d [(0, d')]) { u with tasks := [] }⟩ :
      Entry Script).DispatchesAs .console := ⟨0, "say a", false, by decide +kernel⟩
  exact ⟨r, _, hdispatch, (console_by_text 0 actions).1 r _ List.mem_cons_self rfl hdispatch⟩

end DirectiveEngine
