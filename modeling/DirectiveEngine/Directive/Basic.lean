import DirectiveEngine.Dictionary

/-!
# Directives

One action of a bundle, taken apart: when it runs, who runs it, how loud it is, and what it does.
-/

namespace DirectiveEngine

/-- When a directive runs, as written in front of it. -/
inductive Gate where
  | always
  | whenever (condition : Text)
  | elseWhen (condition : Text)
  | otherwise
  deriving DecidableEq

namespace Gate

/-- The condition that is tested before the directive runs. -/
def condition? : Gate → Option Text
  | whenever c => some c
  | elseWhen c => some c
  | always => none
  | otherwise => none

end Gate

/-- An HTTP call: where it goes, what it carries and what becomes of the response. -/
structure WebhookSpec where
  url : Text
  headers : Dictionary Text
  body : Text
  /-- The variable that receives the body of a response. -/
  capture : Option Text
  silent : Bool
  /-- Whether the name of the variable holds a placeholder itself. -/
  dynamicCapture : Bool
  deriving DecidableEq

structure MessageSpec where
  style : Option Text
  text : Option Text
  /-- The player who gets the message instead of the one who runs the directive. -/
  target : Option Text
  deriving DecidableEq

structure LoopSpec where
  source : Text
  item : Text
  deriving DecidableEq

structure AssignmentSpec where
  name : Text
  value : Text
  quiet : Bool
  deriving DecidableEq

/-- What a directive does.  A loop, an assignment or a webhook that is written wrongly has no content. -/
inductive DirectiveKind where
  | command
  | message (spec : MessageSpec)
  | hostCall (capture : Option Text)
  | webhook (spec : Option WebhookSpec)
  | loop (spec : Option LoopSpec)
  | assignment (spec : Option AssignmentSpec)
  deriving DecidableEq

structure Directive where
  /-- The action as written, trimmed. -/
  raw : Text
  /-- In delay units, after the directive before it. -/
  delay : Nat
  gate : Gate
  /-- Its command is dispatched by the console, whoever runs it. -/
  asConsole : Bool
  /-- Its output is suppressed. -/
  quiet : Bool
  /-- The weight of a member of the random group. -/
  weight? : Option Nat
  kind : DirectiveKind
  body : Text
  deriving DecidableEq

namespace Directive

def defaultWeight : Nat := 100

def isRandom (d : Directive) : Bool :=
  d.weight?.isSome

def weight (d : Directive) : Nat :=
  d.weight?.getD defaultWeight

def hasCondition (d : Directive) : Bool :=
  match d.gate with
  | .whenever _ => true
  | _ => false

def isPlainCommand (d : Directive) : Bool :=
  d.kind == .command

end Directive
end DirectiveEngine
