import DirectiveEngine.Engine.Resolve

/-!
# Executing directives

What one directive does.  A failure is told to the actor and concerns that directive alone.  A webhook is not
called at once but put off until the engine waits.
-/

namespace DirectiveEngine.Engine

variable {σ : Type} (e : Engine σ)

def emptyCommand : Text :=
  "Command execution failed - no output from command substitution"

/-! ### Commands -/

/-- Hands a line to the host, unless it is blank or its first word is on the blacklist. -/
def dispatch (inv : Invocation) (actor : Actor) (line : Text) (silent : Bool) : Run σ Unit :=
  if line.trim.isEmpty then e.tell inv.actor emptyCommand .red
  else if line.firstWord.lower ∈ e.config.blacklist then pure ()
  else e.dispatchLine actor line.trim silent

def resolveFor (inv : Invocation) (t : Text) : Run σ Text :=
  e.resolve inv.actor inv.args t

def executeCommand (inv : Invocation) (d : Directive) : Run σ Unit := do
  let line ← e.resolveFor inv d.body
  e.dispatch inv (if d.asConsole then .console else inv.actor) line d.quiet

/-- A list is cut at commas, and at line breaks where a command yields it. -/
def splitItems (source list : Text) : List Text :=
  let byLine := Text.startsWith "&(" source || Text.startsWith "@(" source
  let items := list.splitOnP fun c => c == ',' || (byLine && c == '\n')
  (items.map Text.trim).filter fun item => !item.isEmpty

/-- The body for one item of a list, before it is resolved. -/
def itemBody (loop : LoopSpec) (body item : Text) : Text :=
  Text.replaceAll ('%' :: loop.item ++ ['%']) item body

def executeItem (inv : Invocation) (body : Text) (loop : LoopSpec) (item : Text) : Run σ Unit := do
  let line ← e.resolveFor inv (itemBody loop body item)
  e.dispatch inv inv.actor line false

def executeLoop (inv : Invocation) (body : Text) (loop : LoopSpec) : Run σ Unit := do
  let list ← e.resolveFor inv loop.source
  for item in splitItems loop.source list do e.executeItem inv body loop item

/-! ### Messages and assignments -/

/-- Who gets a message, if that player is online. -/
def recipient (inv : Invocation) (target : Option Text) : Run σ (Option Actor) :=
  match target.filter fun t => !t.isEmpty with
  | none => return some inv.actor
  | some target => do
    let name ← e.resolveFor inv target
    match (e.host.server (← get).host).find? name with
    | some actor => return some actor
    | none => do
      e.tell inv.actor ("Player not found: " ++ name) .red
      return none

def executeMessage (inv : Invocation) (spec : MessageSpec) : Run σ Unit :=
  match spec.text with
  | none => pure ()
  | some t => do
    let t ← e.resolveFor inv t
    match ← e.recipient inv spec.target with
    | some actor => e.send actor (.ofStyle spec.style t)
    | none => pure ()

def executeAssignment (inv : Invocation) (spec : AssignmentSpec) : Run σ Unit := do
  let name ← e.resolveFor inv spec.name
  let value ← e.resolveFor inv spec.value
  Run.assign inv.actor name value
  if !spec.quiet then e.tell inv.actor ("Variable set: " ++ name ++ " = " ++ value) .green

/-! ### Host calls -/

/-- Tells the outcome of a host call, and keeps its output in the variable that asks for it. -/
def finishHostCall (inv : Invocation) (quiet : Bool) (capture : Option Text) :
    Except HostError ProcessOutput → Run σ Unit
  | .error fault => do
    if !quiet then e.tell inv.actor ("Failed to execute host command: " ++ fault.message) .red
  | .ok o => do
    let result := o.output.trim
    if !o.isSuccess then
      if !quiet then
        e.tell inv.actor ("Host command failed (exit code: " ++ intText o.exitCode ++ ")") .red
        if !result.isEmpty then e.tell inv.actor result .darkRed
    else
      match capture with
      | some name => do
        Run.assign inv.actor name result
        if !quiet then e.tell inv.actor ("Host output stored in variable: " ++ name) .green
      | none =>
        if !quiet then
          if result.isEmpty then e.tell inv.actor "Host command executed successfully (no output)." .green
          else
            for line in result.lines do e.tell inv.actor line .gray

/-- The name of the variable for an output, if one is asked for. -/
def resolveCapture (inv : Invocation) (capture : Option Text) : Run σ (Option Text) :=
  match capture.filter fun name => !name.isEmpty with
  | some name => return some (← e.resolveFor inv name)
  | none => return none

def executeHostCall (inv : Invocation) (d : Directive) (capture : Option Text) : Run σ Unit := do
  let command ← e.resolveFor inv d.body
  if e.config.hostCommandsEnabled then
    let capture ← e.resolveCapture inv capture
    e.finishHostCall inv d.quiet capture (← e.run command)

/-! ### Webhooks -/

/-- Resolves the values of headers, in code point order of the names. -/
def resolveHeaders (inv : Invocation) : Dictionary Text → Run σ (Dictionary Text)
  | [] => return []
  | (name, value) :: headers => do
    let value ← e.resolveFor inv value
    return (name, value) :: (← resolveHeaders inv headers)

def executeWebhook (inv : Invocation) (spec : WebhookSpec) : Run σ Unit := do
  let url ← e.resolveFor inv spec.url
  if e.config.webhooksEnabled then
    let body ← e.resolveFor inv spec.body
    let headers ← e.resolveHeaders inv spec.headers
    let capture ← e.resolveCapture inv spec.capture
    let call : Call :=
      { request := { url, headers, body }, capture, silent := spec.silent,
        announce := !spec.silent && !spec.dynamicCapture }
    Run.postpone { due := (← get).now, invocation := inv, work := .call call }

/-- Tells the outcome of a webhook call, and keeps the body of a good response in the variable that asks for
it. -/
def finishCall (inv : Invocation) (call : Call) (result : Except HostError WebhookResponse) : Run σ Unit := do
  Run.note (.completion inv.id call)
  match result with
  | .error fault => do
    if !call.silent then e.tell inv.actor ("Webhook error: " ++ fault.message) .red
  | .ok r =>
    if !r.isSuccess then
      if !call.silent then
        e.tell inv.actor ("Webhook failed (" ++ natText r.status ++ "): " ++ r.body) .red
    else
      match call.capture.filter fun name => !name.isEmpty with
      | some name => do
        Run.assign inv.actor name r.body
        if call.announce then e.tell inv.actor ("Webhook response stored in variable: " ++ name) .green
      | none =>
        if !call.silent && !r.body.isEmpty then e.tell inv.actor ("Webhook response: " ++ r.body) .green

/-! ### Directives -/

/-- What a directive does once its gate is passed. -/
def perform (inv : Invocation) (d : Directive) : Run σ Unit :=
  match d.kind with
  | .command => e.executeCommand inv d
  | .message spec => e.executeMessage inv spec
  | .hostCall capture => e.executeHostCall inv d capture
  | .webhook (some spec) => e.executeWebhook inv spec
  | .webhook none => pure ()
  | .loop (some spec) => e.executeLoop inv d.body spec
  | .loop none => pure ()
  | .assignment (some spec) => e.executeAssignment inv spec
  | .assignment none => pure ()

/-- Whether a gate lets an actor pass.  An `else` without a condition always does. -/
def passes (w : World σ) (actor : Actor) (gate : Gate) : Bool :=
  match gate.condition? with
  | some c => e.holds w actor c
  | none => true

def execute (inv : Invocation) (d : Directive) : Run σ Unit := do
  Run.note (.directive inv.id d)
  if e.passes (← get) inv.actor d.gate then e.perform inv d

end DirectiveEngine.Engine
