import DirectiveEngine.Dictionary
import DirectiveEngine.Text.LetterCase

/-!
# Bundles

A bundle is a named list of actions, with other lists for its subcommands.  Names count in any letter case.
-/

namespace DirectiveEngine

structure Bundle where
  /-- In lowercase. -/
  name : Text
  actions : List Text
  permission? : Option Text := none
  /-- By their names in lowercase. -/
  subcommands : Dictionary (List Text) := []
  deriving DecidableEq

namespace Bundle

def new (name : Text) (actions : List Text) : Bundle :=
  { name := name.lower, actions }

/-- An empty permission is none. -/
def withPermission (b : Bundle) (permission : Text) : Bundle :=
  { b with permission? := if permission.isEmpty then none else some permission }

def withSubcommand (b : Bundle) (name : Text) (actions : List Text) : Bundle :=
  { b with subcommands := b.subcommands.insert name.lower actions }

/-- The actions of the subcommand that the first argument names, or else those of the bundle itself. -/
def selectActions (b : Bundle) (args : List Text) : List Text :=
  (args.head?.bind fun name => b.subcommands.get? name.lower).getD b.actions

end Bundle
end DirectiveEngine
