import DirectiveEngine.Proofs.Sequence
import DirectiveEngine.Proofs.Store

/-!
# The last write counts

A store that started empty is its history: the entry under a name is the one that was written last in that scope under
the name in any letter case, unless the scope was cleared since (`Store.slot?_ofHistory`).  What is read, and whether a
variable is there at all, follows from that entry alone (`Store.reads_last_write`).
-/

namespace DirectiveEngine.Store

/-! ### Changes -/

/-- What can be done to a store. -/
inductive Change where
  | setShared (key value : Text)
  | setPlayer (id : ActorId) (key value : Text)
  | setFor (actor : Actor) (key value : Text)
  | clearPlayer (id : ActorId)
  | clear
  deriving DecidableEq

namespace Change

def apply (s : Store) : Change → Store
  | setShared key value => s.set .console key value
  | setPlayer id key value => s.set (.player id) key value
  | setFor actor key value => s.set actor key value
  | clearPlayer id => s.clearPlayer id
  | clear => s.clear

/-- The scope in which a change sets a variable, with its name and its value. -/
def written? : Change → Option (Actor × Text × Text)
  | setShared key value => some (.console, key, value)
  | setPlayer id key value => some (.player id, key, value)
  | setFor actor key value => some (actor, key, value)
  | clearPlayer _ => none
  | clear => none

/-- A change writes a value in a scope under a key, in any letter case. -/
def Writes (c : Change) (scope : Actor) (key value : Text) : Prop :=
  ∃ name, c.written? = some (scope, name, value) ∧ name.lower = key.lower

/-- A change leaves nothing in a scope. -/
def Clears (c : Change) (scope : Actor) : Prop :=
  c = clear ∨ ∃ id, c = clearPlayer id ∧ scope = .player id

end Change

/-- The store after a sequence of changes to an empty one. -/
def ofHistory (changes : List Change) : Store :=
  changes.foldl Change.apply {}

/-- A value was written in a scope under a key, and after that the scope was not cleared nor the key written again. -/
def IsLastWrite (changes : List Change) (scope : Actor) (key value : Text) : Prop :=
  ∃ before c after, changes = before ++ c :: after ∧ c.Writes scope key value ∧
    ∀ c' ∈ after, ¬ c'.Clears scope ∧ ∀ value', ¬ c'.Writes scope key value'

variable {changes : List Change} {c : Change} {scope : Actor} {key value : Text}

/-! ### One change -/

/-- What a scope holds under a key. -/
def slot? (s : Store) (scope : Actor) (key : Text) : Option Text :=
  (s.scope scope).get? key.lower

theorem slot?_empty (scope : Actor) (key : Text) : ({} : Store).slot? scope key = none := by
  cases scope <;> rfl

theorem slot?_set (s : Store) (actor : Actor) (name value : Text) (scope : Actor) (key : Text) :
    (s.set actor name value).slot? scope key =
      if scope = actor ∧ name.lower = key.lower then some value else s.slot? scope key := by
  unfold slot?
  rw [scope_set]
  by_cases hscope : scope = actor
  · subst hscope
    simp [Dictionary.get?_insert, eq_comm]
  · simp [hscope]

theorem slot?_clearPlayer (s : Store) (id : ActorId) (scope : Actor) (key : Text) :
    (s.clearPlayer id).slot? scope key = if scope = .player id then none else s.slot? scope key := by
  cases scope with
  | console => simp [slot?, Store.scope, clearPlayer]
  | player id' =>
    unfold slot? Store.scope clearPlayer
    simp only [Dictionary.get?_erase, Actor.player.injEq]
    by_cases hid : id' = id
    · simp [hid, Dictionary.get?]
    · simp [hid]

theorem Change.apply_of_written? {name : Text} (h : c.written? = some (scope, name, value)) (s : Store) :
    c.apply s = s.set scope name value := by
  cases c <;> cases h <;> rfl

/-- A scope holds what a change writes there, and otherwise what it held before, if it is not cleared. -/
theorem slot?_apply (s : Store) (c : Change) : (c.apply s).slot? scope key = some value ↔
    c.Writes scope key value ∨
      (¬ c.Clears scope ∧ ∀ value', ¬ c.Writes scope key value') ∧ s.slot? scope key = some value := by
  cases hc : c.written? with
  | some w =>
    obtain ⟨actor, name, written⟩ := w
    have hclears : ¬ c.Clears scope := by
      rintro (rfl | ⟨id, rfl, -⟩) <;> cases hc
    have hwrites (value' : Text) :
        c.Writes scope key value' ↔ (actor = scope ∧ name.lower = key.lower) ∧ written = value' := by
      constructor
      · rintro ⟨name', hname, hkey⟩
        cases hc.symm.trans hname
        exact ⟨⟨rfl, hkey⟩, rfl⟩
      · rintro ⟨⟨rfl, hkey⟩, rfl⟩
        exact ⟨name, hc, hkey⟩
    rw [Change.apply_of_written? hc, slot?_set]
    by_cases hhere : actor = scope ∧ name.lower = key.lower
    · simp [hwrites, hhere]
    · simp [hwrites, hhere, eq_comm (a := scope), hclears]
  | none =>
    have hwrites (value' : Text) : ¬ c.Writes scope key value' := by
      rintro ⟨name, hname, -⟩
      cases hc.symm.trans hname
    cases c with
    | setShared _ _ | setPlayer _ _ _ | setFor _ _ _ => cases hc
    | clearPlayer id => simp [Change.apply, slot?_clearPlayer, hwrites, Change.Clears]
    | clear => simp [Change.apply, Store.clear, slot?_empty, hwrites, Change.Clears]

/-! ### Histories -/

theorem isLastWrite_concat : IsLastWrite (changes ++ [c]) scope key value ↔
    c.Writes scope key value ∨
      (¬ c.Clears scope ∧ ∀ value', ¬ c.Writes scope key value') ∧ IsLastWrite changes scope key value :=
  since_concat (p := fun _ (c : Change) => c.Writes scope key value)
    (q := fun c => ¬ c.Clears scope ∧ ∀ value', ¬ c.Writes scope key value')

/-- A scope holds under a key what was written there last. -/
theorem slot?_ofHistory : (ofHistory changes).slot? scope key = some value ↔ IsLastWrite changes scope key value := by
  induction changes using List.reverseRecOn with
  | nil => simp [ofHistory, slot?_empty, IsLastWrite]
  | append_singleton changes c ih =>
    have hstep : ofHistory (changes ++ [c]) = c.apply (ofHistory changes) := by simp [ofHistory]
    rw [hstep, slot?_apply, isLastWrite_concat, ih]

/-- A store remembers of its history the last write under each key of each scope: that is what is read there, and a
variable is there if there is such a write, even of an empty value.  An actor sees its own value, or the shared one where
its own is empty or missing. -/
theorem reads_last_write (changes : List Change) (key : Text) :
    (∀ scope, ∃ last : Option Text,
      (∀ value, last = some value ↔ IsLastWrite changes scope key value) ∧
        (ofHistory changes).get scope key = last.getD [] ∧ (ofHistory changes).has scope key = last.isSome) ∧
      ∀ actor, (ofHistory changes).resolve actor key =
        if (ofHistory changes).get actor key ≠ [] then (ofHistory changes).get actor key
        else (ofHistory changes).get .console key := by
  refine ⟨fun scope => ⟨(ofHistory changes).slot? scope key, fun value => slot?_ofHistory, rfl, rfl⟩, fun actor => ?_⟩
  unfold resolve
  by_cases hempty : (ofHistory changes).get actor key = [] <;> simp [hempty]

/-- An empty value of a player hides nothing, and clearing the variables of a player leaves the shared ones. -/
example :
    let s := ofHistory
      [.setShared "Mode" "pvp", .setFor (.player "a") "MODE" "", .setFor .console "mode" "pve", .clearPlayer "b"]
    s.resolve (.player "a") "mode" = "pve" ∧ s.has (.player "a") "Mode" = true := by
  decide +kernel

end DirectiveEngine.Store
