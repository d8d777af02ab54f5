import DirectiveEngine.Dictionary
import DirectiveEngine.Text.Blank
import DirectiveEngine.Text.LetterCase

/-!
# Settings

What the owner of a server decides once for all bundles: which commands may not be dispatched, which
capabilities are on, and how long things take at most.  Times are in milliseconds.
-/

namespace DirectiveEngine

structure Config where
  blacklistedCommands : List Text := []
  hostCommandsEnabled : Bool := false
  webhooksEnabled : Bool := false
  /-- The length of one unit of a delay. -/
  delayUnit : Nat := 1000
  hostCommandTimeout : Nat := 30000
  webhookTimeout : Nat := 5000
  /-- Where relative paths of file tokens lead. -/
  dataDir : Text := "."
  shell : Text := "sh"
  deriving DecidableEq

namespace Config

/-- A blacklist entry as it is compared with the first word of a command. -/
def blacklistWord (entry : Text) : Text :=
  Text.lower (entry.trim.dropWhile (· == '/'))

def blacklist (c : Config) : List Text :=
  sortedSet ((c.blacklistedCommands.map blacklistWord).filter fun word => !word.isEmpty)

end Config
end DirectiveEngine
