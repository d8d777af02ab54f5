import DirectiveEngine.Host.Basic

/-!
# Scripted hosts

A host whose players, processes and webhooks are given in advance, with files of its own.  A process or a
webhook that is not in the script answers that there is no such thing.
-/

namespace DirectiveEngine

structure Script where
  players : List Snapshot := []
  teams : List Team := []
  permissions : List (ActorId × Text) := []
  /-- What becomes of a command line; the first entry counts. -/
  processes : List (Text × Except HostError ProcessOutput) := []
  /-- What becomes of a call, by its address; the first entry counts. -/
  webhooks : List (Text × WebhookOutcome) := []
  files : FileAccess

namespace Script

def find? (s : Script) (name : Text) : Option Actor :=
  (s.players.find? fun p => p.name.sameAscii name).map fun p => .player p.id

def process (s : Script) (command : Text) : Except HostError ProcessOutput :=
  (List.lookup command s.processes).getD (.ok ⟨127, "not found: " ++ command ++ "\n"⟩)

def webhook (s : Script) (url : Text) : WebhookOutcome :=
  (List.lookup url s.webhooks).getD ⟨.ok ⟨404, "no such hook"⟩, 0⟩

/-- Adds a player, in the place of one with the same identifier. -/
def addPlayer (s : Script) (p : Snapshot) : Script :=
  if s.players.any fun q => q.id == p.id then
    { s with players := s.players.map fun q => if q.id = p.id then p else q }
  else { s with players := s.players ++ [p] }

def removePlayer (s : Script) (id : ActorId) : Script :=
  { s with players := s.players.filter fun p => p.id != id }

def grant (s : Script) (id : ActorId) (node : Text) : Script :=
  { s with permissions := (id, node) :: s.permissions }

def host : Host Script where
  hasPermission s actor node :=
    match actor with
    | .console => true
    | .player id => (id, node) ∈ s.permissions
  snapshot? s actor := actor.id?.bind fun id => s.players.find? fun p => p.id == id
  server s := { online := s.players, teams := s.teams, find? := s.find? }
  dispatch _ _ _ s := s
  send _ _ s := s
  run command s := (s.process command, s)
  read path key s := ((s.files.read path key).mapError HostError.file, s)
  write path key value s :=
    let (files, result) := s.files.write path key value
    (result.mapError HostError.file, { s with files })
  call request s := (s.webhook request.url, s)

end Script
end DirectiveEngine
