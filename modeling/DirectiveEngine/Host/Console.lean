import DirectiveEngine.Host.Basic

/-!
# The console host

A server without a game behind it: players are names that were registered, and commands and messages become
lines of text.  A name is registered once, up to the case of ASCII letters.
-/

namespace DirectiveEngine

/-- The identifier of the `n`-th player. -/
def Console.idOf (n : Nat) : ActorId :=
  let digits := natText n
  "00000000-0000-4000-8000-" ++ List.replicate (12 - digits.length) '0' ++ digits

structure Console where
  /-- The identifiers that players get, one after the other. -/
  ids : Nat → ActorId := Console.idOf
  /-- In the order of their registration. -/
  players : List Snapshot := []
  permissions : List (ActorId × Text) := []
  teams : List Team := []
  /-- All that was written. -/
  output : Text := []

namespace Console

/-! ### Players -/

def find? (c : Console) (name : Text) : Option Actor :=
  (c.players.find? fun p => p.name.sameAscii name).map fun p => .player p.id

/-- The actor with a name, who is registered if that is new. -/
def addPlayer (c : Console) (name : Text) : Actor × Console :=
  match c.find? name with
  | some actor => (actor, c)
  | none =>
    let id := c.ids c.players.length
    (.player id, { c with players := c.players ++ [{ name, id }] })

def snapshot? (c : Console) (actor : Actor) : Option Snapshot :=
  actor.id?.bind fun id => c.players.find? fun p => p.id == id

/-- All players in code point order of their names. -/
def online (c : Console) : List Snapshot :=
  c.players.mergeSort fun p q => Text.le p.name q.name

def displayName (c : Console) (actor : Actor) : Text :=
  ((c.snapshot? actor).map Snapshot.name).getD "CONSOLE"

/-! ### Permissions and teams -/

def setOp (c : Console) (actor : Actor) (isOp : Bool) : Console :=
  { c with players := c.players.map fun p => if some p.id = actor.id? then { p with isOp } else p }

def grant (c : Console) (actor : Actor) (node : Text) : Console :=
  match actor.id? with
  | some id => { c with permissions := (id, node) :: c.permissions }
  | none => c

/-- An operator has every permission, and so has who was granted the star. -/
def hasPermission (c : Console) (actor : Actor) (node : Text) : Bool :=
  match actor.id? with
  | none => true
  | some id =>
    ((c.snapshot? actor).map Snapshot.isOp).getD false || c.permissions.contains (id, node) ||
      c.permissions.contains (id, ['*'])

def addTeam (c : Console) (name : Text) (members : List Text) : Console :=
  { c with teams := c.teams ++ [⟨name, members⟩] }

/-! ### Output -/

def writeLine (c : Console) (line : Text) : Console :=
  { c with output := c.output ++ line ++ ['\n'] }

def dispatch (c : Console) (actor : Actor) (line : Text) (silent : Bool) : Console :=
  c.writeLine ('[' :: c.displayName actor ++ "] /" ++ line ++ (if silent then " (silent)" else ""))

/-- The names of the color and the decorations. -/
def styleText (t : StyledText) : Text :=
  Text.join "," (t.color.toList.map Color.name ++ t.decorations.map Decoration.name)

def send (c : Console) (actor : Actor) (t : StyledText) : Console :=
  let names := styleText t
  let style : Text := if names.isEmpty then "" else " <" ++ names ++ ">"
  c.writeLine ("-> " ++ c.displayName actor ++ style ++ ": " ++ t.text)

def server (c : Console) : ServerFacts where
  online := c.online
  teams := c.teams
  find? := c.find?

end Console
end DirectiveEngine
