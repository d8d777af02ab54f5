import DirectiveEngine.Text.Blank
import DirectiveEngine.Directive.Basic

/-!
# Written webhooks

A webhook is written `url>>name::headers::body`.  The capture segment `>>name` is cut out first, up to the
next `::`, so that an address never takes in a part behind it; all but the address may be missing.
-/

namespace DirectiveEngine.WebhookSpec

/-- What the capture segment asks for. -/
structure Capture where
  name : Option Text
  silent : Bool
  dynamic : Bool
  deriving DecidableEq

/-- Reads a capture segment.  A mark before the name makes the call silent. -/
def Capture.parse (segment : Text) : Capture :=
  let segment := segment.trim
  let silent := segment.head? == some '!'
  let name := if silent then Text.trim segment.tail else segment
  if name.isEmpty then ⟨none, silent, false⟩ else ⟨some name, silent, decide ('%' ∈ name)⟩

/-- The text up to the next `::`, and the text from there on. -/
def uptoSeparator (t : Text) : Text × Text :=
  match Text.splitFirst? "::" t with
  | some (a, b) => (a, "::" ++ b)
  | none => (t, [])

/-- Cuts the capture segment out. -/
def takeCapture (raw : Text) : Capture × Text :=
  match Text.splitFirst? ">>" raw with
  | none => (⟨none, false, false⟩, raw)
  | some (before, after) =>
    let cut := uptoSeparator after
    (Capture.parse cut.1, before.trim ++ cut.2)

/-- Headers are written `name:value` and separated by commas; an entry without a colon is passed over. -/
def parseHeaders (t : Text) : Dictionary Text :=
  Dictionary.ofList <| (Text.splitAll "," t.trim).filterMap fun entry =>
    (Text.splitFirst? ":" entry).map fun e => (e.1.trim, e.2.trim)

/-- A webhook without an address is none. -/
def parse? (raw : Text) : Option WebhookSpec :=
  let (capture, rest) := takeCapture raw
  let parts := Text.splitUpTo "::" 2 rest
  let url := (parts.headD []).trim
  if url.isEmpty then none
  else some {
    url
    headers := (parts[1]?.map parseHeaders).getD []
    body := parts[2]?.getD []
    capture := capture.name
    silent := capture.silent
    dynamicCapture := capture.dynamic }

end DirectiveEngine.WebhookSpec
