import DirectiveEngine.Store
import DirectiveEngine.Template.Delimited

/-!
# Actor and variable placeholders

The facts of the player who runs a directive, variables by an explicit reference, and at last any name between
percent signs that is a variable.
-/

namespace DirectiveEngine

/-- The placeholders of a player with their values, in the order in which they are replaced. -/
def actorTokens (s : Snapshot) : List (Text × Text) :=
  [("%player%", s.name),
   ("%uuid%", s.id),
   ("%player_uuid%", s.id),
   ("%world%", s.world),
   ("%x%", intText (Snapshot.block s.x)),
   ("%y%", intText (Snapshot.block s.y)),
   ("%z%", intText (Snapshot.block s.z)),
   ("%health%", Decimal.withFraction s.health),
   ("%level%", intText s.level),
   ("%gamemode%", s.gamemode)]

def replaceActorTokens (s : Snapshot) (t : Text) : Text :=
  (actorTokens s).foldl (fun t token => Text.replaceAll token.1 token.2 t) t

/-- A reference to an unset variable becomes nothing. -/
def replaceVariableTokens (store : Store) (actor : Actor) (t : Text) : Text :=
  replaceDelimited "%var:" "%" (fun reference => some (store.lookup actor reference)) t

/-- A name that starts like a placeholder of another kind is never taken for a variable. -/
def reservedStarts : List Text :=
  ["player", "uuid", "players", "players_uuid", "playercount", "teams", "teamplayers", "teamplayers_uuid",
    "arg", "var", "count"]

/-- Whether a name between percent signs may be that of a variable. -/
def isImplicitVariable (name : Text) : Bool :=
  !(name.any fun c => c == ':' || c == '(') && name.getLast? != some '-' &&
    !(reservedStarts.any fun start => Text.startsWith start name.lower)

/-- The value of a name between percent signs, empty if it stays as it is. -/
def implicitValue (store : Store) (actor : Actor) (name : Text) : Text :=
  if isImplicitVariable name then store.resolve actor name else []

/-- Replaces each name between percent signs that is a variable with a value.  Where it is none, the closing
sign may open the next name. -/
def replaceImplicitVariables (store : Store) (actor : Actor) (t : Text) : Text :=
  match _h : Text.splitFirst? "%" t with
  | none => t
  | some (before, after) =>
    match _h' : Text.splitFirst? "%" after with
    | none => t
    | some (name, rest) =>
      let value := implicitValue store actor name
      if value.isEmpty then before ++ '%' :: name ++ replaceImplicitVariables store actor ('%' :: rest)
      else before ++ value ++ replaceImplicitVariables store actor rest
termination_by t.length
decreasing_by
  all_goals
    have h₁ := Text.length_of_splitFirst? ‹Text.splitFirst? _ t = _›
    have h₂ := Text.length_of_splitFirst? ‹Text.splitFirst? _ after = _›
    simp_all
    try omega

end DirectiveEngine
