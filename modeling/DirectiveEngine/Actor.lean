import DirectiveEngine.Dictionary
import DirectiveEngine.Number.Notation
import DirectiveEngine.Text.LetterCase

/-!
# Actors

Who runs a bundle: the console, or a player known by an identifier.  A snapshot is what the server says about
an online player at one moment.
-/

namespace DirectiveEngine

abbrev ActorId := Text

inductive Actor where
  | console
  | player (id : ActorId)
  deriving DecidableEq

def Actor.id? : Actor → Option ActorId
  | .console => none
  | .player id => some id

structure Snapshot where
  name : Text
  id : ActorId
  world : Text := "world"
  x : Float := 0.0
  y : Float := 64.0
  z : Float := 0.0
  health : Float := 20.0
  level : Int := 0
  gamemode : Text := "SURVIVAL"
  isFlying : Bool := false
  isSneaking : Bool := false
  isOp : Bool := false
  /-- How many of each item the player carries. -/
  inventory : Dictionary Nat := []

namespace Snapshot

/-- The number of items with a name, up to the case of ASCII letters. -/
def itemCount (s : Snapshot) (item : Text) : Nat :=
  (s.inventory.filter fun e => Text.sameAscii e.1 item).foldl (fun n e => n + e.2) 0

/-- The coordinate of the block that a position lies in. -/
def block (coordinate : Float) : Int :=
  Binary64.toInt64 coordinate.floor

end Snapshot

structure Team where
  name : Text
  members : List Text
  deriving DecidableEq

end DirectiveEngine
