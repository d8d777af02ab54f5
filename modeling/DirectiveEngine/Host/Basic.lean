import DirectiveEngine.File.Access
import DirectiveEngine.Styled
import DirectiveEngine.Template.Server
import DirectiveEngine.Webhook.Headers

/-!
# Hosts

What the engine asks of the server that it runs on: facts about players, commands to dispatch, texts to show,
processes, files and webhooks.  A host is a state with these operations on it.
-/

namespace DirectiveEngine

/-! ### Failures -/

/-- A time in milliseconds, as it is told to players: in seconds from one second on. -/
def durationText (ms : Nat) : Text :=
  if ms = 0 then "0ns"
  else if ms < 1000 then natText ms ++ "ms"
  else
    let digits := natText (1000 + ms % 1000)
    let fraction := (digits.tail.reverse.dropWhile (· == '0')).reverse
    natText (ms / 1000) ++ (if fraction.isEmpty then [] else '.' :: fraction) ++ "s"

/-- Why a process cannot be started. -/
inductive SpawnFault where
  | notFound
  | permissionDenied
  | nulByte
  deriving DecidableEq

def SpawnFault.message : SpawnFault → Text
  | notFound => "No such file or directory (os error 2)"
  | permissionDenied => "Permission denied (os error 13)"
  | nulByte => "nul byte found in provided data"

/-- Why a host did not do what it was asked for. -/
inductive HostError where
  | spawn (fault : SpawnFault)
  | timeout (ms : Nat)
  | http (reason : Text)
  | invalidHeader (name : Text) (fault : HeaderFault)
  | file (error : FileError)
  | invalidOperation (reason : Text)
  deriving DecidableEq

def HostError.message : HostError → Text
  | spawn fault => "Failed to start process: " ++ fault.message
  | timeout ms => "Process timed out after " ++ durationText ms
  | http reason => "HTTP error: " ++ reason
  | invalidHeader name fault => "Invalid header " ++ name ++ ": " ++ fault.message
  | file (.fault path fault) => "File error at " ++ path ++ ": " ++ fault.message
  | file .malformed => "YAML error: malformed document"
  | file .tagged => "internal error: entered unreachable code: value was just replaced by a mapping"
  | invalidOperation reason => "Invalid file operation: " ++ reason

/-! ### Results -/

structure ProcessOutput where
  /-- Zero for success, and -1 for a process that was killed. -/
  exitCode : Int
  /-- What went to the standard output, then what went to the standard error. -/
  output : Text
  deriving DecidableEq

def ProcessOutput.isSuccess (o : ProcessOutput) : Bool :=
  o.exitCode == 0

structure WebhookRequest where
  url : Text
  headers : Dictionary Text
  body : Text
  deriving DecidableEq

structure WebhookResponse where
  status : Nat
  body : Text
  deriving DecidableEq

def WebhookResponse.isSuccess (r : WebhookResponse) : Bool :=
  200 ≤ r.status && r.status < 300

/-- What becomes of a webhook call, and after how many milliseconds. -/
structure WebhookOutcome where
  result : Except HostError WebhookResponse
  latency : Nat

/-! ### The operations -/

structure Host (σ : Type) where
  hasPermission : σ → Actor → Text → Bool
  /-- What is known of a player who is online. -/
  snapshot? : σ → Actor → Option Snapshot
  server : σ → ServerFacts
  /-- Runs a command as an actor; a silent one shows no output. -/
  dispatch : Actor → Text → Bool → σ → σ
  send : Actor → StyledText → σ → σ
  run : Text → σ → Except HostError ProcessOutput × σ
  read : Text → Option Text → σ → Except HostError Text × σ
  write : Text → Option Text → Text → σ → Except HostError Unit × σ
  call : WebhookRequest → σ → WebhookOutcome × σ

end DirectiveEngine
