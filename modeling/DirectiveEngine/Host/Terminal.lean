import DirectiveEngine.Config.Basic
import DirectiveEngine.Host.Console
import DirectiveEngine.Shell.Run

/-!
# The host of a terminal

The console host together with the machine that it runs on: its files and its shell.  There is no network, so a
webhook with fit headers ends in a failed request.
-/

namespace DirectiveEngine

/-- A machine as a program finds it. -/
structure Machine where
  tree : FileTree
  /-- The working directory. -/
  working : FilePath
  environment : Dictionary Text := []

structure Terminal where
  console : Console := {}
  tree : FileTree

namespace Terminal

def files (m : Machine) (c : Config) (t : Terminal) : FileAccess :=
  { tree := t.tree, working := m.working, dataDir := c.dataDir }

/-- What becomes of a call where nothing can be reached. -/
def unreachable (request : WebhookRequest) : HostError :=
  match buildHeaders request.headers with
  | .error (name, fault) => .invalidHeader name fault
  | .ok _ =>
    if Text.startsWith "http://" request.url || Text.startsWith "https://" request.url then
      .http ("error sending request for url (" ++ request.url ++ ")")
    else .http "builder error"

def host (m : Machine) (c : Config) : Host Terminal where
  hasPermission t := t.console.hasPermission
  snapshot? t := t.console.snapshot?
  server t := t.console.server
  dispatch actor line silent t := { t with console := t.console.dispatch actor line silent }
  send actor text t := { t with console := t.console.send actor text }
  run command t :=
    let (r, tree) := Shell.execute c.shell m.environment t.tree m.working c.hostCommandTimeout command
    (r, { t with tree })
  read path key t := (((files m c t).read path key).mapError HostError.file, t)
  write path key value t :=
    let (files, r) := (files m c t).write path key value
    (r.mapError HostError.file, { t with tree := files.tree })
  call request t := (⟨.error (unreachable request), 0⟩, t)

end Terminal
end DirectiveEngine
