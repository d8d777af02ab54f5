import DirectiveEngine.Template.Delimited

/-!
# Tokens with effects

A text as a list of pieces: what stands as it is, and the insides of the tokens that a host has to act on.
Cutting the whole text before anything is done means that what a token yields is never taken for a token.
-/

namespace DirectiveEngine

inductive Piece where
  | plain (t : Text)
  | token (inner : Text)
  deriving DecidableEq

/-- File tokens start with a doubled mark and run up to a character that ends a token. -/
def markedPieces (mark : Char) (t : Text) : List Piece :=
  match _h : Text.splitFirst? [mark, mark] t with
  | none => [.plain t]
  | some (before, after) =>
    .plain before :: .token (splitToken after).1 :: markedPieces mark (splitToken after).2
termination_by t.length
decreasing_by
  have h₁ := Text.length_of_splitFirst? ‹Text.splitFirst? _ t = _›
  have h₂ := congrArg List.length (splitToken_append after)
  simp_all
  omega

def groupOpening : Text := "&("

/-- Command groups run up to the parenthesis that closes them.  From a group that is not closed on, all is
plain. -/
def groupPieces (t : Text) : List Piece :=
  match _h : Text.splitFirst? groupOpening t with
  | none => [.plain t]
  | some (before, after) =>
    match _h' : splitGroup? 0 after with
    | none => [.plain t]
    | some (inner, rest) => .plain before :: .token inner :: groupPieces rest
termination_by t.length
decreasing_by
  have h₁ := Text.length_of_splitFirst? ‹Text.splitFirst? _ t = _›
  have h₂ := congrArg List.length (eq_of_splitGroup? ‹splitGroup? 0 after = _›)
  simp_all
  omega

/-- Puts the pieces together again, with what `f` makes of each token, from left to right. -/
def renderPieces {m : Type → Type} [Monad m] (f : Text → m Text) : List Piece → m Text
  | [] => pure []
  | .plain t :: ps => do return t ++ (← renderPieces f ps)
  | .token inner :: ps => do
    let value ← f inner
    return value ++ (← renderPieces f ps)

/-- The path of a file token and its key, if it has one. -/
def splitReadToken (inner : Text) : Text × Option Text :=
  match Text.splitFirst? "::" inner with
  | some (path, key) => (path, some key)
  | none => (inner, none)

/-- What a write token asks for. -/
structure FileWrite where
  path : Text
  key : Option Text
  value : Text
  deriving DecidableEq

/-- A write token without a value asks for nothing. -/
def FileWrite.ofToken? (inner : Text) : Option FileWrite :=
  match Text.splitUpTo "::" 2 inner with
  | [path, value] => some ⟨path, none, value⟩
  | [path, key, value] => some ⟨path, some key, value⟩
  | _ => none

end DirectiveEngine
