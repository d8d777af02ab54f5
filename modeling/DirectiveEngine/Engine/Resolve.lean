import DirectiveEngine.Engine.World
import DirectiveEngine.Template.Argument
import DirectiveEngine.Template.Escape
import DirectiveEngine.Template.Math
import DirectiveEngine.Template.Variable

/-!
# Resolving templates

A template is resolved in passes, each of which sees what the earlier ones made of it: escapes are hidden, then
arguments, facts about the actor, variables, facts about the server, file reads, file writes, commands, names
of variables and arithmetic are replaced, and at last the escapes get their meaning.
-/

namespace DirectiveEngine.Engine

variable {σ : Type} (e : Engine σ)

/-- The passes before those that act on the host. -/
def expand (w : World σ) (actor : Actor) (args : List Text) (t : Text) : Text :=
  let t := replaceArguments args (protect t)
  let t := match e.host.snapshot? w.host actor with
    | some s => replaceActorTokens s t
    | none => t
  let t := replaceVariableTokens w.store actor t
  let inner (name : Text) : Text :=
    if (w.store.resolve actor name).isEmpty then name else w.store.resolve actor name
  replaceServerTokens (e.host.server w.host) inner t

/-- The passes after those that act on the host. -/
def settle (store : Store) (actor : Actor) (t : Text) : Text :=
  restore (replaceMath (replaceImplicitVariables store actor t))

def readMark : Char := ','

def writeMark : Char := ';'

/-- What a file holds, nothing if it cannot be read.  Without a path there is no token. -/
def readToken (inner : Text) : Run σ Text :=
  if inner.isEmpty then return [readMark, readMark]
  else do
    let (path, key) := splitReadToken inner
    match ← e.read path key with
    | .ok t => return t
    | .error _ => return []

/-- Writes a file.  Nothing is left of the token, whether or not that succeeds. -/
def writeToken (inner : Text) : Run σ Text := do
  match FileWrite.ofToken? inner with
  | some w => let _ ← e.write w
  | none => pure ()
  return []

/-- The output of a command as one line, nothing if it cannot be run. -/
def commandToken (command : Text) : Run σ Text := do
  match ← e.run command with
  | .ok o => return Text.trim (Text.join " " o.output.lines)
  | .error _ => return []

def resolve (actor : Actor) (args : List Text) (t : Text) : Run σ Text := do
  let t := e.expand (← get) actor args t
  let t ← renderPieces e.readToken (markedPieces readMark t)
  let t ← renderPieces e.writeToken (markedPieces writeMark t)
  let t ← if e.config.hostCommandsEnabled then renderPieces e.commandToken (groupPieces t) else pure t
  return settle (← get).store actor t

end DirectiveEngine.Engine
