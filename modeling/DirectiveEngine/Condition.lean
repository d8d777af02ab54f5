import DirectiveEngine.Number.Literal
import DirectiveEngine.Store
import DirectiveEngine.Text.Blank

/-!
# Conditions

A condition is written `kind:value` or `kind:value:parameter`.  An empty condition holds, and one that is
malformed or of an unknown kind does not.
-/

namespace DirectiveEngine

/-- What a condition may ask about the actor that runs the directive. -/
structure ActorFacts where
  actor : Actor
  snapshot? : Option Snapshot
  hasPermission : Text → Bool

namespace Condition

def parseBool (t : Text) : Bool :=
  Text.sameAscii t.trim "true"

/-- What is no number counts as zero. -/
def parseNumber (t : Text) : Float :=
  (Decimal.read? t.trim).getD 0.0

/-- Compares with a number behind a sign of comparison; equality allows a small difference. -/
def compareNumeric (x : Float) (t : Text) : Bool :=
  match t.trim with
  | '>' :: '=' :: r => x ≥ parseNumber r
  | '<' :: '=' :: r => x ≤ parseNumber r
  | '>' :: r => x > parseNumber r
  | '<' :: r => x < parseNumber r
  | '=' :: '=' :: r => (x - parseNumber r).abs < 0.01
  | '=' :: r => (x - parseNumber r).abs < 0.01
  | r => (x - parseNumber r).abs < 0.01

def consoleName : Text := "CONSOLE"

/-- Replaces the placeholders of the actor.  A player who is not online has no name. -/
def substituteActor (facts : ActorFacts) (t : Text) : Text :=
  let name := match facts.actor with
    | .console => consoleName
    | .player _ => (facts.snapshot?.map Snapshot.name).getD []
  let id := facts.actor.id?.getD []
  Text.replaceAll "%player%" name (Text.replaceAll "%uuid%" id (Text.replaceAll "%player_uuid%" id t))

/-- The value that a condition compares.  A path is followed even where the variable is unset. -/
def variableValue (store : Store) (actor : Actor) (reference : Text) : Text :=
  match Text.splitFirst? "." reference with
  | some (name, path) => JsonPath.extract (store.resolve actor name) path
  | none => store.resolve actor reference

/-- Compares the value of a variable; without an expected value it must not be empty. -/
def holdsVariable (store : Store) (actor : Actor) (reference : Text) (expected : Option Text) : Bool :=
  let actual := variableValue store actor reference
  match expected with
  | none => !actual.isEmpty
  | some ['!', '='] => !actual.isEmpty
  | some ('!' :: '=' :: other) => actual != other
  | some expected => actual == expected

def maxCount : Nat := 0xFFFFFFFF

/-- Conditions about an online player, by their kind in lowercase. -/
def holdsSnapshot (s : Snapshot) (kind value : Text) (parameter : Option Text) : Bool :=
  if kind = "item" then
    let required := (parameter.bind fun p => natural? maxCount p.trim).getD 1
    required ≤ s.itemCount value
  else if kind = "world" then s.world.sameAscii value
  else if kind = "gamemode" ∨ kind = "gm" then s.gamemode.sameAscii value
  else if kind = "health" then compareNumeric s.health value
  else if kind = "level" ∨ kind = "xp" then
    compareNumeric (Binary64.ofRatio (s.level < 0) s.level.natAbs 1) value
  else if kind = "flying" then s.isFlying == parseBool value
  else if kind = "sneaking" then s.isSneaking == parseBool value
  else if kind = "player" then s.name.sameAscii value
  else false

def holds (facts : ActorFacts) (store : Store) (condition : Text) : Bool :=
  if condition.isEmpty then true
  else
    match Text.splitUpTo ":" 2 (substituteActor facts condition) with
    | kind :: value :: rest =>
      let kind := kind.lower
      if kind = "permission" ∨ kind = "perm" then facts.hasPermission value
      else if kind = "op" then
        let isOp := match facts.actor with
          | .console => true
          | .player _ => (facts.snapshot?.map Snapshot.isOp).getD false
        isOp == parseBool value
      else if kind = "var" then holdsVariable store facts.actor value rest.head?
      else
        match facts.snapshot? with
        | some s => holdsSnapshot s kind value rest.head?
        | none => false
    | _ => false

end Condition
end DirectiveEngine
