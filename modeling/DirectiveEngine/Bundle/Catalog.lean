import DirectiveEngine.Bundle.Basic
import DirectiveEngine.Text.Blank
import DirectiveEngine.Yaml.Read

/-!
# Catalogues

All bundles of a server, read from a YAML document.  Of several names that differ in letter case only, the
last in code point order is kept.
-/

namespace DirectiveEngine

abbrev Catalog := Dictionary Bundle

namespace Catalog

open Yaml (Node)

/-- The value under a name that must not be given twice, read by `f`. -/
def field? {α : Type} (name : Text) (default : α) (f : Node → Option α) (fields : List (Text × Node)) :
    Option α :=
  match fields.filter fun e => e.1 == name with
  | [] => some default
  | [(_, node)] => f node
  | _ => none

/-- The lists of actions in a mapping, by their names as written. -/
def lists? (n : Node) : Option (Dictionary (List Text)) := do
  let fields ← n.fields?
  let lists ← fields.mapM fun e => do return (e.1, ← e.2.texts?)
  return Dictionary.ofList lists

def bundle? (name : Text) (n : Node) : Option Bundle := do
  let fields ← n.fields?
  let actions ← field? "actions" [] Node.texts? fields
  let permission ← field? "permission" none (Node.optional? Node.text?) fields
  let subcommands ← field? "subcommands" [] lists? fields
  let bundle := (Bundle.new name actions).withPermission (permission.getD [])
  return subcommands.foldl (fun b e => b.withSubcommand e.1 e.2) bundle

def commands? (n : Node) : Option Catalog := do
  let fields ← n.fields?
  let bundles ← fields.mapM fun e => do return (e.1, ← bundle? e.1 e.2)
  return Dictionary.ofList ((Dictionary.ofList bundles).map fun e => (e.2.name, e.2))

/-- The catalogue of a document; a blank one is empty. -/
def ofYaml? (t : Text) : Option Catalog :=
  if t.trim.isEmpty then some []
  else do
    let root ← Yaml.root? t
    field? "commands" [] commands? (← root.fields?)

def find? (c : Catalog) (name : Text) : Option Bundle :=
  Dictionary.get? name.lower c

def names (c : Catalog) : List Text :=
  c.map Prod.fst

end Catalog
end DirectiveEngine
