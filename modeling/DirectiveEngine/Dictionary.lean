import DirectiveEngine.Text.Basic

/-!
# Dictionaries

Association lists in code point order of their keys, each key once.  A later insertion under a key replaces
the earlier value.
-/

namespace DirectiveEngine

abbrev Dictionary (α : Type) := List (Text × α)

namespace Dictionary

variable {α : Type}

def insert (key : Text) (value : α) : Dictionary α → Dictionary α
  | [] => [(key, value)]
  | (k, v) :: d =>
    if key = k then (key, value) :: d
    else if Text.le key k then (key, value) :: (k, v) :: d
    else (k, v) :: insert key value d

/-- Of several entries under one key the last one counts. -/
def ofList (entries : List (Text × α)) : Dictionary α :=
  entries.foldl (fun d e => insert e.1 e.2 d) []

def get? (key : Text) (d : Dictionary α) : Option α :=
  List.lookup key d

theorem get?_cons (k key : Text) (value : α) (d : Dictionary α) :
    get? k ((key, value) :: d) = if k = key then some value else get? k d := by
  unfold get?
  rw [List.lookup_cons]
  by_cases h : k = key
  · simp [h]
  · simp [h, beq_false_of_ne h]

theorem get?_insert (key k : Text) (value : α) (d : Dictionary α) :
    get? k (insert key value d) = if k = key then some value else get? k d := by
  induction d with
  | nil => simp [insert, get?_cons]
  | cons e d ih =>
    obtain ⟨k', v'⟩ := e
    unfold insert
    split
    · subst_vars
      simp only [get?_cons]
      split <;> rfl
    · rename_i hne
      split
      · simp only [get?_cons]
      · simp only [get?_cons, ih]
        grind

def erase (key : Text) (d : Dictionary α) : Dictionary α :=
  d.filter fun e => e.1 != key

theorem get?_erase (key k : Text) (d : Dictionary α) :
    get? k (erase key d) = if k = key then none else get? k d := by
  induction d with
  | nil => simp [erase, get?]
  | cons e d ih =>
    obtain ⟨k', v'⟩ := e
    simp only [erase, List.filter_cons] at ih ⊢
    split <;> simp_all only [get?_cons, bne_iff_ne, ne_eq] <;> grind

end Dictionary

/-- Texts in code point order, each once. -/
def sortedSet (ts : List Text) : List Text :=
  (Dictionary.ofList (ts.map fun t => (t, ()))).map Prod.fst

end DirectiveEngine
