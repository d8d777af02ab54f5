import DirectiveEngine.Host.Scripted
import DirectiveEngine.Proofs.Engine.Session
import Mathlib.Data.List.Forall2

/-!
# Dispatched lines

Every line that the host is handed in a session is one that may be dispatched, and of the lines that a command or a
loop resolves none is lost: each is dispatched, or it is blank and the actor is told so, or it is on the blacklist
(`dispatch_safe`).  The order of these outcomes is the order of the lines.
-/

namespace DirectiveEngine

variable {σ : Type} {e : Engine σ} {u v w : World σ}

open Run (Keeps after value)

/-! ### Output -/

def Event.isOutput : Event → Bool
  | .dispatch .. | .text .. => true
  | _ => false

/-- The lines that were dispatched and the texts that were shown, the first of them first. -/
def World.output (w : World σ) : List Event :=
  ((w.history.map Prod.snd).filter Event.isOutput).reverse

theorem output_after_note (ev : Event) (w : World σ) :
    (after (Run.note ev) w).output = w.output ++ if ev.isOutput then [ev] else [] := by
  show (((ev :: w.history.map Prod.snd).filter Event.isOutput).reverse) = _
  unfold World.output
  rw [List.filter_cons]
  split
  · exact List.reverse_cons
  · exact (List.append_nil _).symm

theorem output_after_send (e : Engine σ) (actor : Actor) (t : StyledText) (w : World σ) :
    (after (e.send actor t) w).output = w.output ++ [.text actor t] :=
  output_after_note _ w

theorem output_after_dispatchLine (e : Engine σ) (actor : Actor) (line : Text) (silent : Bool) (w : World σ) :
    (after (e.dispatchLine actor line silent) w).output = w.output ++ [.dispatch actor line silent] :=
  output_after_note _ w

/-- Templates do not put anything out. -/
theorem lookups_output (e : Engine σ) : Lookups e fun u w => w.output = u.output where
  refl _ := rfl
  trans h h' := h'.trans h
  read path key w := (output_after_note (.read path key) w).trans (List.append_nil _)
  write file w := (output_after_note (.write file.path file.key file.value) w).trans (List.append_nil _)
  run _ command w := (output_after_note (.process command) w).trans (List.append_nil _)

theorem output_after_resolveFor (e : Engine σ) (inv : Invocation) (t : Text) (w : World σ) :
    (after (e.resolveFor inv t) w).output = w.output :=
  ((lookups_output e).resolveFor inv t).after w

theorem output_after_dispatch (e : Engine σ) (inv : Invocation) (actor : Actor) {line : Text}
    (hne : line.trim ≠ []) (silent : Bool) (w : World σ) :
    (after (e.dispatch inv actor line silent) w).output =
      w.output ++ if line.firstWord.lower ∈ e.config.blacklist then [] else [.dispatch actor line.trim silent] := by
  unfold Engine.dispatch
  rw [if_neg (by simpa using hne)]
  split
  · exact (List.append_nil _).symm
  · exact output_after_dispatchLine _ _ _ _ w

/-! ### Outcomes of lines -/

/-- What becomes of a line that `actor` is to run: the events that follow. -/
inductive Engine.Outcome (e : Engine σ) (inv : Invocation) (actor : Actor) (silent : Bool) (line : Text) :
    List Event → Prop where
  | blank (h : line.isBlankText = true) :
      Outcome e inv actor silent line [.text inv.actor (.colored Engine.emptyCommand .red)]
  | blacklisted (h : line.firstWord.lower ∈ e.config.blacklist) : Outcome e inv actor silent line []
  | dispatched (h : e.Dispatchable line.trim) : Outcome e inv actor silent line [.dispatch actor line.trim silent]

theorem dispatch_outcome (e : Engine σ) (inv : Invocation) (actor : Actor) (line : Text) (silent : Bool)
    (w : World σ) :
    ∃ evs, e.Outcome inv actor silent line evs ∧
      (after (e.dispatch inv actor line silent) w).output = w.output ++ evs := by
  by_cases hblank : line.trim = []
  · refine ⟨_, .blank (Text.trim_eq_nil_iff.1 hblank), ?_⟩
    rw [Engine.dispatch, if_pos (List.isEmpty_iff.2 hblank)]
    exact output_after_send _ _ _ w
  · rw [output_after_dispatch e inv actor hblank]
    split
    · exact ⟨_, .blacklisted ‹_›, rfl⟩
    · exact ⟨_, .dispatched (Engine.dispatchable_trim hblank ‹_›), rfl⟩

/-- The lines of a loop over items, each resolved in the world that the lines before it leave. -/
def Engine.loopLines (e : Engine σ) (inv : Invocation) (body : Text) (loop : LoopSpec) :
    List Text → World σ → List Text
  | [], _ => []
  | item :: items, w =>
    let resolved := e.resolveFor inv (itemBody loop body item)
    let line := value resolved w
    line :: loopLines e inv body loop items (after (e.dispatch inv inv.actor line false) (after resolved w))

/-- The lines that a command or a loop resolves in a world, if its gate is passed. -/
def Engine.lines (e : Engine σ) (inv : Invocation) (d : Directive) (w : World σ) : List Text :=
  if e.passes w inv.actor d.gate then
    match d.kind with
    | .command => [value (e.resolveFor inv d.body) w]
    | .loop (some loop) =>
      let list := e.resolveFor inv loop.source
      e.loopLines inv d.body loop (splitItems loop.source (value list w)) (after list w)
    | _ => []
  else []

theorem after_forIn {α : Type} (f : α → Run σ Unit) (l : List α) (w : World σ) :
    after (do for a in l do f a) w = l.foldl (fun w a => after (f a) w) w := by
  have hsteps (w : World σ) :
      after (ForIn.forIn l PUnit.unit fun a _ => do f a; pure (ForInStep.yield PUnit.unit) : Run σ PUnit) w =
        l.foldl (fun w a => after (f a) w) w := by
    induction l generalizing w with
    | nil => rfl
    | cons a l ih =>
      rw [List.forIn_cons]
      exact ih (after (f a) w)
  exact hsteps w

/-- A loop goes on over its items in the world that each line leaves. -/
theorem loop_outcomes (e : Engine σ) (inv : Invocation) (body : Text) (loop : LoopSpec) (items : List Text)
    (w : World σ) :
    ∃ evss, List.Forall₂ (e.Outcome inv inv.actor false) (e.loopLines inv body loop items w) evss ∧
      (items.foldl (fun w item => after (do
        let line ← e.resolveFor inv (Engine.itemBody loop body item)
        e.dispatch inv inv.actor line false) w) w).output = w.output ++ evss.flatten := by
  induction items generalizing w with
  | nil => exact ⟨[], .nil, by simp⟩
  | cons item items ih =>
    let resolved := e.resolveFor inv (Engine.itemBody loop body item)
    obtain ⟨evs, hline, hout⟩ := dispatch_outcome e inv inv.actor (value resolved w) false (after resolved w)
    obtain ⟨evss, hlines, houts⟩ := ih (after (e.dispatch inv inv.actor (value resolved w) false) (after resolved w))
    refine ⟨evs :: evss, .cons hline hlines, houts.trans ?_⟩
    rw [hout, output_after_resolveFor, List.flatten_cons, List.append_assoc]

/-- Who runs the lines of a directive. -/
def Directive.runner (d : Directive) (inv : Invocation) : Actor :=
  if d.kind = .command ∧ d.asConsole then .console else inv.actor

/-- Only a command can be silent. -/
def Directive.isSilent (d : Directive) : Bool :=
  d.kind = .command && d.quiet

/-- What a command or a loop puts out are the outcomes of its lines, in their order. -/
theorem execute_outcomes (e : Engine σ) (inv : Invocation) {d : Directive}
    (hd : d.kind = .command ∨ ∃ loop, d.kind = .loop loop) (w : World σ) :
    ∃ evss, List.Forall₂ (e.Outcome inv (d.runner inv) d.isSilent)
        (e.lines inv d (after (Run.note (.directive inv.id d)) w)) evss ∧
      (after (e.execute inv d) w).output = w.output ++ evss.flatten := by
  let v := after (Run.note (.directive inv.id d)) w
  have hv : v.output = w.output := (output_after_note (.directive inv.id d) w).trans (List.append_nil _)
  rw [e.after_execute, ← hv]
  show ∃ evss, List.Forall₂ _ (e.lines inv d v) evss ∧ _
  unfold Engine.lines
  split
  · unfold Engine.perform
    rcases hd with hd | ⟨loop, hd⟩
    · simp only [hd]
      have hrunner : d.runner inv = if d.asConsole then .console else inv.actor := by simp [Directive.runner, hd]
      have hsilent : d.isSilent = d.quiet := by simp [Directive.isSilent, hd]
      obtain ⟨evs, hline, hout⟩ := dispatch_outcome e inv (d.runner inv) (value (e.resolveFor inv d.body) v) d.isSilent
        (after (e.resolveFor inv d.body) v)
      rw [output_after_resolveFor] at hout
      refine ⟨[evs], .cons hline .nil, ?_⟩
      rw [List.flatten_singleton, ← hout, hrunner, hsilent]
      rfl
    · have hrunner : d.runner inv = inv.actor := by simp [Directive.runner, hd]
      have hsilent : d.isSilent = false := by simp [Directive.isSilent, hd]
      simp only [hd, hrunner, hsilent]
      cases loop with
      | none => exact ⟨[], .nil, (List.append_nil _).symm⟩
      | some loop =>
        let list := e.resolveFor inv loop.source
        obtain ⟨evss, hlines, hout⟩ :=
          loop_outcomes e inv d.body loop (Engine.splitItems loop.source (value list v)) (after list v)
        rw [output_after_resolveFor, ← after_forIn] at hout
        exact ⟨evss, hlines, hout⟩
  · exact ⟨[], .nil, (List.append_nil _).symm⟩

/-! ### Sessions -/

/-- Every line that was dispatched is one that may be. -/
theorem Session.respected (h : Session e w) :
    ∀ t actor line silent, (t, .dispatch actor line silent) ∈ w.history → e.Dispatchable line := by
  intro t actor line silent hmem
  cases h.happens _ hmem with
  | performs h =>
    cases h with
    | notes h => cases h
    | dispatch _ hline _ => exact hline

/-- Every line that the host is handed in a session may be dispatched; and whenever a command or a loop runs, each of
the lines that it resolves is dispatched, or is blank and the actor is told so once, or is on the blacklist and nothing
is put out for it. -/
theorem dispatch_safe (e : Engine σ) :
    (∀ {w}, Session e w → ∀ {t actor line silent}, (t, .dispatch actor line silent) ∈ w.history →
      e.Dispatchable line) ∧
    ∀ (inv : Invocation) {d : Directive}, (d.kind = .command ∨ ∃ loop, d.kind = .loop loop) → ∀ w : World σ,
      ∃ evss, List.Forall₂ (e.Outcome inv (d.runner inv) d.isSilent)
          (e.lines inv d (after (Run.note (.directive inv.id d)) w)) evss ∧
        (after (e.execute inv d) w).output = w.output ++ evss.flatten :=
  ⟨fun h _ _ _ _ hmem => h.respected _ _ _ _ hmem, fun inv _ hd w => execute_outcomes e inv hd w⟩

/-- A line that is dispatched beside one that is on the blacklist. -/
theorem dispatch_safe_beside :
    let e : Engine Script := { host := Script.host, config := { blacklistedCommands := ["op"] } }
    let w : World Script := { host := { files := ⟨[], [], []⟩ } }
    let inv : Invocation := ⟨0, .console, []⟩
    let d := Directive.parse "op x"
    e.Dispatchable "say a" ∧
      ∃ evss, List.Forall₂ (e.Outcome inv .console false) (e.lines inv d (after (Run.note (.directive 0 d)) w)) evss ∧
        (after (e.execute inv d) w).output = w.output ++ evss.flatten := by
  intro e w inv d
  let u := after (e.invoke 0 .console [] ["op x", " say a"]) w
  have hsession : Session e u := .invoke (.start _ _) 0 .console [] ["op x", " say a"]
  have hdispatch : (0, Event.dispatch .console "say a" false) ∈ u.history := by decide +kernel
  have hkind : d.kind = .command := by decide +kernel
  have hrunner : d.runner inv = .console := by decide +kernel
  have hsilent : d.isSilent = false := by decide +kernel
  refine ⟨(dispatch_safe e).1 hsession hdispatch, ?_⟩
  have h := (dispatch_safe e).2 inv (.inl hkind) w
  rwa [hrunner, hsilent] at h

end DirectiveEngine
