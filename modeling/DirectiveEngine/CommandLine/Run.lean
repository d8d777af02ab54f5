import DirectiveEngine.Bundle.Catalog
import DirectiveEngine.CommandLine.Options
import DirectiveEngine.Config.Read
import DirectiveEngine.Directive.Record
import DirectiveEngine.Engine.Schedule
import DirectiveEngine.Host.Terminal

/-!
# Carrying out orders

What a command line does on a machine: its output, its complaint if it fails, and the files that it leaves.
-/

namespace DirectiveEngine.CommandLine

/-- Why an order fails. -/
inductive Failure where
  | unreadable (path : Text) (fault : FileFault)
  | malformed (format : ConfigFormat)
  | unknownBundle (name : Text)
  | invalidTeam (definition : Text)
  deriving DecidableEq

def Failure.message : Failure → Text
  | unreadable path fault => "Config error: Failed to open config file " ++ path ++ ": " ++ fault.message
  | malformed .yaml => "Config error: Failed to parse YAML config: malformed document"
  | malformed .json => "Config error: Failed to parse JSON config: malformed document"
  | unknownBundle name => "Internal error: Unknown bundle: " ++ name
  | invalidTeam definition => "Internal error: Invalid team definition: " ++ definition

structure Outcome where
  status : Nat
  output : Text := []
  errors : Text := []
  tree : FileTree

/-! ### Documents -/

/-- The settings in a file; without a file, the defaults. -/
def loadConfig (m : Machine) (path : Text) : Except Failure Config :=
  match m.tree.locateText m.working path with
  | .error _ => .ok {}
  | .ok place =>
    let format := ConfigFormat.ofPath path
    match (m.tree.readText place).toOption.bind format.read? with
    | some c => .ok c
    | none => .error (.malformed format)

def loadCatalog (m : Machine) (path : Text) : Except Failure Catalog :=
  match (m.tree.locateText m.working path).bind m.tree.readText with
  | .error fault => .error (.unreadable path fault)
  | .ok content =>
    match Catalog.ofYaml? content with
    | some c => .ok c
    | none => .error (.malformed .yaml)

/-! ### Sessions -/

/-- The settings as the options change them. -/
def SessionOptions.apply (o : SessionOptions) (c : Config) : Config :=
  { c with
    delayUnit := o.delayUnit.getD c.delayUnit
    hostCommandsEnabled := c.hostCommandsEnabled || o.enableHostCommands
    webhooksEnabled := c.webhooksEnabled || o.enableWebhooks }

/-- A team is written `name=member,member`. -/
def addTeam (c : Console) (definition : Text) : Except Failure Console :=
  match Text.splitFirst? "=" definition with
  | none => .error (.invalidTeam definition)
  | some (name, members) =>
    .ok (c.addTeam name.trim (((members.splitOn ',').map Text.trim).filter fun m => !m.isEmpty))

/-- Registers players and teams, and tells who runs the directives. -/
def SessionOptions.populate (o : SessionOptions) : Except Failure (Actor × Console) := do
  let names := (o.online.map Text.trim).filter fun n => !n.isEmpty
  let c := names.foldl (fun (c : Console) name => (c.addPlayer name).2) {}
  let c ← o.teams.foldlM addTeam c
  match o.player with
  | none => return (.console, c)
  | some player =>
    let (actor, c) := c.addPlayer player
    let c := o.grants.foldl (fun c node => c.grant actor node) c
    return (actor, if o.op then c.setOp actor true else c)

/-- Runs what `start` begins for the actor of a session, and waits for it. -/
def runSession (m : Machine) (config : Config) (o : SessionOptions)
    (start : Engine Terminal → Actor → Run Terminal (Option (Invocation × Bool))) :
    Except Failure Outcome := do
  let config := o.apply config
  let (actor, console) ← o.populate
  let engine : Engine Terminal := { host := Terminal.host m config, config }
  let run : Run Terminal Unit := do
    match ← start engine actor with
    | some (inv, _) => engine.wait inv.id
    | none => pure ()
  let (_, w) := run.run { host := { console, tree := m.tree } }
  return { status := 0, output := w.host.console.output, tree := w.host.tree }

/-! ### Requests -/

/-- An expression is evaluated, and a text with embedded expressions has them replaced. -/
def mathText (t : Text) : Text :=
  if Text.contains mathOpening t then replaceMath t else Arithmetic.evaluate Arithmetic.binary64 t

def carryOut (m : Machine) (draw : Nat) (o : Order) : Except Failure Outcome := do
  let print (t : Text) : Outcome := { status := 0, output := t, tree := m.tree }
  match o.request with
  | .parse directive => return print ((Directive.parse directive).record.pretty ++ ['\n'])
  | .math expression => return print (mathText expression ++ ['\n'])
  | .list => return print ((← loadCatalog m o.bundles).names.flatMap fun name => name ++ ['\n'])
  | .exec directives args session =>
    let config ← loadConfig m o.config
    runSession m config session fun e actor => return some (← e.invoke draw actor args directives)
  | .run bundle args session =>
    let config ← loadConfig m o.config
    let catalog ← loadCatalog m o.bundles
    match catalog.find? bundle with
    | none => do
      let _ ← session.populate
      throw (.unknownBundle bundle)
    | some b => runSession m config session fun e actor => e.invokeBundle draw b actor args

def programVersion : Text := "cmdbundle-cli 0.1.0\n"

def programUsage : Text := "Usage: cmdbundle [OPTIONS] <COMMAND>\n"

/-- Carries out a command line, with a draw for random directives. -/
def run (m : Machine) (draw : Nat) (args : List Text) : Outcome :=
  match order (m.environment.get? bundlesVariable) args with
  | .error .usage => { status := 2, errors := programUsage, tree := m.tree }
  | .error .help => { status := 0, output := programUsage, tree := m.tree }
  | .error .version => { status := 0, output := programVersion, tree := m.tree }
  | .ok o =>
    match carryOut m draw o with
    | .ok r => r
    | .error f => { status := 1, errors := "Error: " ++ f.message ++ "\n", tree := m.tree }

end DirectiveEngine.CommandLine
