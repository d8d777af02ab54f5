import DirectiveEngine.Yaml.Value

/-!
# Dotted keys

A dotted key is a path of strings through nested mappings.  Setting one creates the mappings on its way and
replaces whatever else stands there; other keys keep their place.
-/

namespace DirectiveEngine.Yaml

def isString (t : Text) : Yaml → Bool
  | string s => s == t
  | _ => false

/-- The value of the entry under a string. -/
def entry? (key : Text) (entries : List (Yaml × Yaml)) : Option Yaml :=
  (entries.find? fun e => isString key e.1).map Prod.snd

/-- The member of a mapping under a string.  A tag on the mapping is passed over. -/
def member? (key : Text) (v : Yaml) : Option Yaml :=
  match v.untag with
  | mapping entries => entry? key entries
  | _ => none

/-- The value under a path. -/
def get? : List Text → Yaml → Option Yaml
  | [], v => some v
  | key :: path, v => (member? key v).bind (get? path)

/-- Applies `f` to the value under a string, or to nothing, and puts the result in its place or at the end. -/
def updateEntry (key : Text) (f : Option Yaml → Option Yaml) :
    List (Yaml × Yaml) → Option (List (Yaml × Yaml))
  | [] => (f none).map fun v => [(string key, v)]
  | (k, v) :: entries =>
    if isString key k then (f (some v)).map fun v => (k, v) :: entries
    else (updateEntry key f entries).map fun entries => (k, v) :: entries

/-- The entries of a value that is to hold a member: none if it is no mapping.  A mapping with a tag on it has
none that could be changed. -/
def entriesForUpdate? : Yaml → Option (List (Yaml × Yaml))
  | mapping entries => some entries
  | v => if v.isMapping then none else some []

/-- Sets the value under a path of a document; `none` if a mapping with a tag is in the way. -/
def set? : List Text → Yaml → Yaml → Option Yaml
  | [], _, v => some v
  | key :: path, document, v => do
    let entries ← entriesForUpdate? document
    let entries ← updateEntry key (fun old => set? path (old.getD (mapping [])) v) entries
    return mapping entries

/-- The path that a key written with points stands for. -/
def pathOf (key : Text) : List Text :=
  key.splitOn '.'

end DirectiveEngine.Yaml
