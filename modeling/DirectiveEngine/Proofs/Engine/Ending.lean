import DirectiveEngine.Proofs.Engine.Dispatch
import DirectiveEngine.Proofs.Engine.Webhooks

/-!
# How calls end

A host call, an assignment and a webhook's call end alike (`Run.Ends`): the variable that is to be kept is set, and then
the actor is shown some texts, or none if that is to be quiet.
-/

namespace DirectiveEngine

variable {σ : Type} {e : Engine σ} {actor : Actor} {quiet : Bool} {kept : Option (Text × Text)} {m m' : Run σ Unit}

open Run (after)

/-! ### Texts and variables -/

namespace Run

/-- Sets the variable that is kept, if there is one. -/
def keep (actor : Actor) : Option (Text × Text) → Run σ Unit
  | some (name, value) => Run.assign actor name value
  | none => pure ()

/-- A run that shows some texts to an actor, and does nothing else. -/
def Tells (e : Engine σ) (actor : Actor) (m : Run σ Unit) : Prop :=
  ∀ w, ∃ texts : List StyledText, after m w = texts.foldl (fun u t => after (e.send actor t) u) w

/-- A run that sets the variable that is kept, and then shows some texts to an actor unless it is quiet. -/
def Ends (e : Engine σ) (actor : Actor) (quiet : Bool) (kept : Option (Text × Text)) (m : Run σ Unit) : Prop :=
  ∀ w, ∃ texts : List StyledText, (quiet = true → texts = []) ∧
    after m w = texts.foldl (fun u t => after (e.send actor t) u) (after (keep actor kept) w)

namespace Tells

theorem tell (e : Engine σ) (actor : Actor) (t : Text) (color : Color) : Tells e actor (e.tell actor t color) :=
  fun _ => ⟨[.colored t color], rfl⟩

theorem bind (hm : Tells e actor m) (hm' : Tells e actor m') : Tells e actor (do m; m') := by
  intro w
  obtain ⟨texts, htexts⟩ := hm w
  obtain ⟨texts', htexts'⟩ := hm' (after m w)
  refine ⟨texts ++ texts', ?_⟩
  rw [List.foldl_append, ← htexts]
  exact htexts'

theorem guarded (hm : Tells e actor m) (c : Prop) [Decidable c] : Tells e actor (if c then m else pure ()) := by
  split
  · exact hm
  · exact fun _ => ⟨[], rfl⟩

theorem all (e : Engine σ) (actor : Actor) (lines : List Text) (color : Color) :
    Tells e actor (do for line in lines do e.tell actor line color) := by
  intro w
  rw [after_forIn]
  refine ⟨lines.map fun line => .colored line color, ?_⟩
  rw [List.foldl_map]
  rfl

theorem ends (hm : Tells e actor m) {c : Prop} [Decidable c] (hc : quiet = true → ¬ c) :
    Ends e actor quiet none (if c then m else pure ()) := by
  intro w
  split
  · obtain ⟨texts, htexts⟩ := hm w
    exact ⟨texts, fun hquiet => absurd ‹c› (hc hquiet), htexts⟩
  · exact ⟨[], fun _ => rfl, rfl⟩

theorem ends_assign (hm : Tells e actor m) (key value : Text) {c : Prop} [Decidable c] (hc : quiet = true → ¬ c) :
    Ends e actor quiet (some (key, value)) (do Run.assign actor key value; if c then m else pure ()) :=
  fun w => hm.ends hc (after (Run.assign actor key value) w)

end Tells

namespace Ends

/-- Texts leave the variables alone. -/
theorem store (hm : Ends e actor quiet kept m) (w : World σ) :
    (after m w).store = (after (keep actor kept) w).store := by
  obtain ⟨texts, -, htexts⟩ := hm w
  rw [htexts]
  clear htexts
  generalize after (keep actor kept) w = u
  induction texts generalizing u with
  | nil => rfl
  | cons t texts ih => exact ih (after (e.send actor t) u)

/-- A quiet run ends with its variable. -/
theorem after_eq (hm : Ends e actor true kept m) (w : World σ) : after m w = after (keep actor kept) w := by
  obtain ⟨texts, hnone, htexts⟩ := hm w
  rw [htexts, hnone rfl]
  rfl

end Ends
end Run

/-! ### Host calls -/

/-- The variable for the output of a process, if there is one, and what becomes of the process. -/
abbrev HostOutcome := Option Text × Except HostError ProcessOutput

namespace HostOutcome

/-- The process ran and exited with zero. -/
def isGood (x : HostOutcome) : Bool :=
  match x.2 with
  | .ok o => o.isSuccess
  | .error _ => false

/-- The variable that a process sets, with its value. -/
def kept? (x : HostOutcome) : Option (Text × Text) :=
  match x.2 with
  | .ok o => if o.isSuccess then x.1.map fun name => (name, o.output.trim) else none
  | .error _ => none

/-- The variables behind a process of an actor. -/
def keepIn (x : HostOutcome) (actor : Actor) (s : Store) : Store :=
  match x with
  | (some name, .ok o) => if o.isSuccess then s.set actor name o.output.trim else s
  | _ => s

theorem keepIn_of_not_isGood {x : HostOutcome} (h : x.isGood = false) (actor : Actor) (s : Store) :
    x.keepIn actor s = s := by
  obtain ⟨name, r⟩ := x
  cases r with
  | error fault => cases name <;> rfl
  | ok o =>
    have ho : o.isSuccess = false := h
    cases name <;> simp [keepIn, ho]

theorem store_after_keep (x : HostOutcome) (actor : Actor) (w : World σ) :
    (after (Run.keep actor x.kept?) w).store = x.keepIn actor w.store := by
  obtain ⟨name, r⟩ := x
  unfold kept? keepIn
  cases r with
  | error fault => cases name <;> rfl
  | ok o => cases ho : o.isSuccess <;> cases name <;> simp only [ho, if_true, Bool.false_eq_true, if_false] <;> rfl

end HostOutcome

theorem ends_finishHostCall (e : Engine σ) (inv : Invocation) (quiet : Bool) (x : HostOutcome) :
    Run.Ends e inv.actor quiet x.kept? (e.finishHostCall inv quiet x.1 x.2) := by
  have htell := Run.Tells.tell e inv.actor
  have hquiet : quiet = true → ¬ (!quiet) = true := by simp
  obtain ⟨name, r⟩ := x
  unfold Engine.finishHostCall HostOutcome.kept?
  cases r with
  | error fault => exact (htell _ _).ends hquiet
  | ok o =>
    cases ho : o.isSuccess with
    | false =>
      simp only [ho, Bool.not_false, if_true]
      exact ((htell _ _).bind ((htell _ _).guarded _)).ends hquiet
    | true =>
      simp only [ho, Bool.not_true, Bool.false_eq_true, if_false, if_true]
      cases name with
      | some name => exact (htell _ _).ends_assign name o.output.trim hquiet
      | none =>
        refine Run.Tells.ends ?_ hquiet
        split
        · exact htell _ _
        · exact .all e inv.actor _ _

/-! ### Webhooks -/

/-- The run behind the completion of a call. -/
theorem after_finishCall (e : Engine σ) (inv : Invocation) (quiet : Bool) (call : Call)
    (hquiet : quiet = true → call.silent = true ∧ call.announce = false) (r : Except HostError WebhookResponse) :
    ∃ m : Run σ Unit, Run.Ends e inv.actor quiet (call.kept? r) m ∧
      ∀ w, after (e.finishCall inv call r) w = after m (after (Run.note (.completion inv.id call)) w) := by
  have htell := Run.Tells.tell e inv.actor
  have hsilent : quiet = true → ¬ (!call.silent) = true := fun h => by simp [(hquiet h).1]
  refine ⟨_, ?_, fun w => rfl⟩
  unfold Call.kept?
  cases r with
  | error fault => exact (htell _ _).ends hsilent
  | ok r =>
    cases hr : r.isSuccess with
    | false =>
      simp only [hr, Bool.not_false, if_true]
      exact (htell _ _).ends hsilent
    | true =>
      simp only [hr, Bool.not_true, Bool.false_eq_true, if_false, if_true]
      cases call.capture.filter fun name => !name.isEmpty with
      | some name => exact (htell _ _).ends_assign name r.body fun h => by simp [(hquiet h).2]
      | none => exact (htell _ _).ends fun h => by simp [(hquiet h).1]

end DirectiveEngine
