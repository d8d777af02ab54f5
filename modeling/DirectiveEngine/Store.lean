import DirectiveEngine.Actor
import DirectiveEngine.Json.Path

/-!
# Variables

Two kinds of scope that do not see each other: one for everybody, and one for each player.  A name is the same
variable in any letter case, and a variable that was never set reads as empty.
-/

namespace DirectiveEngine

abbrev Scope := Dictionary Text

structure Store where
  shared : Scope := []
  players : Dictionary Scope := []
  deriving DecidableEq

namespace Store

def scope (s : Store) : Actor → Scope
  | .console => s.shared
  | .player id => (s.players.get? id).getD []

/-- Sets a variable in the scope of an actor; the scope of the console is the shared one. -/
def set (s : Store) (actor : Actor) (key value : Text) : Store :=
  let scope := Dictionary.insert key.lower value (s.scope actor)
  match actor with
  | .console => { s with shared := scope }
  | .player id => { s with players := s.players.insert id scope }

/-- The value in the scope of an actor alone. -/
def get (s : Store) (actor : Actor) (key : Text) : Text :=
  ((s.scope actor).get? key.lower).getD []

def has (s : Store) (actor : Actor) (key : Text) : Bool :=
  ((s.scope actor).get? key.lower).isSome

def clearPlayer (s : Store) (id : ActorId) : Store :=
  { s with players := s.players.erase id }

def clear (_ : Store) : Store :=
  {}

/-- The value that an actor sees: its own, or the shared one where its own is empty. -/
def resolve (s : Store) (actor : Actor) (key : Text) : Text :=
  if (s.get actor key).isEmpty then s.get .console key else s.get actor key

/-- The value under a reference `name` or `name.path`, where the path looks into a value in JSON. -/
def lookup (s : Store) (actor : Actor) (reference : Text) : Text :=
  match Text.splitFirst? "." reference with
  | some (name, path) =>
    let json := s.resolve actor name
    if json.isEmpty then [] else JsonPath.extract json path
  | none => s.resolve actor reference

end Store
end DirectiveEngine
