import DirectiveEngine.Number.Literal
import DirectiveEngine.Directive.Webhook

/-!
# Written directives

An action is any number of markers in brackets, then marks of one character, then its body.  Reading never
fails: a marker that is not closed stays in the text.  The markers are taken out in a fixed order, each at its
first occurrence, wherever it stands.
-/

namespace DirectiveEngine

/-! ### Markers -/

/-- The inside of the first section that starts with `opening` and runs to a closing bracket, and the text
without that section. -/
def takeMarker? (opening t : Text) : Option (Text × Text) := do
  let (before, after) ← Text.splitFirst? opening t
  let (inner, rest) ← Text.splitFirst? "]" after
  return (inner, before ++ rest)

namespace Directive

/-- A loop is written `source:item`, cut at the last colon; the source must not be empty. -/
def parseLoop? (inside : Text) : Option LoopSpec :=
  match Text.splitLast? ':' inside with
  | some (c :: source, item) => some ⟨Text.trim (c :: source), item.trim⟩
  | _ => none

def takeLoop (t : Text) : Option (Option LoopSpec) × Text :=
  match takeMarker? "[foreach:" t with
  | some (inner, rest) => (some (parseLoop? inner), rest)
  | none => (none, t)

def maxDelay : Nat := 0xFFFFFFFFFFFFFFFF

/-- A delay that is no number is none. -/
def takeDelay (t : Text) : Nat × Text :=
  match takeMarker? "[delay:" t with
  | some (inner, rest) => ((natural? maxDelay inner.trim).getD 0, rest)
  | none => (0, t)

def takeGate (t : Text) : Gate × Text :=
  match takeMarker? "[else if:" t with
  | some (condition, rest) => (.elseWhen condition, rest)
  | none =>
    if Text.contains "[else]" t then (.otherwise, Text.replaceAll "[else]" "" t)
    else
      match takeMarker? "[if:" t with
      | some (condition, rest) => (.whenever condition, rest)
      | none => (.always, t)

def maxWeight : Nat := 0xFFFFFFFF

/-- The weight behind the colon of a random marker, if it is a positive number. -/
def parseWeight (inner : Text) : Nat :=
  match inner with
  | ':' :: w => ((natural? maxWeight (Text.trim w)).filter (0 < ·)).getD defaultWeight
  | _ => defaultWeight

def takeWeight (t : Text) : Option Nat × Text :=
  match takeMarker? "[random" t with
  | some (inner, rest) => (some (parseWeight inner), rest)
  | none => (none, t)

/-! ### Bodies -/

/-- The text behind a character, if it starts with that. -/
def takeMark (mark : Char) : Text → Bool × Text
  | [] => (false, [])
  | c :: t => if c = mark then (true, t) else (false, c :: t)

/-- Both sides of the first colon, trimmed, if something stands before it. -/
def splitAtColon? (t : Text) : Option (Text × Text) :=
  match Text.splitFirst? ":" t with
  | some (c :: a, b) => some (Text.trim (c :: a), b.trim)
  | _ => none

/-- The target of a message, written after an at sign and up to a colon, and the rest. -/
def takeTarget (t : Text) : Option Text × Text :=
  match t with
  | '@' :: after =>
    match Text.splitFirst? ":" after with
    | some (c :: target, rest) => (some (Text.trim (c :: target)), rest)
    | _ => (none, t)
  | ':' :: rest => (none, rest)
  | _ => (none, t)

/-- What follows `#message`: a target, a style and a text.  Without a style the whole rest is the text. -/
def parseMessage (t : Text) : MessageSpec :=
  let (target, rest) := takeTarget t
  match splitAtColon? rest with
  | some (style, text) => ⟨some style, some text, target⟩
  | none => ⟨none, if rest.trim.isEmpty then none else some rest.trim, target⟩

/-- An assignment is written `name:value`; a tilde at the end of the name makes it quiet. -/
def parseAssignment? (t : Text) : Option AssignmentSpec :=
  (splitAtColon? t).map fun (name, value) =>
    match Text.stripLast? '~' name with
    | some name => ⟨name, value, true⟩
    | none => ⟨name, value, false⟩

/-- Cuts a request `>>name` out of a host command.  The name ends at the next space. -/
def splitCapture (t : Text) : Text × Option Text :=
  match Text.splitFirst? ">>" t with
  | none => (t, none)
  | some (before, after) =>
    let name : Text := after.takeWhile (· != ' ')
    (before ++ after.drop name.length, if name.trim.isEmpty then none else some name.trim)

/-- What a host call, a webhook or a command does, and its body. -/
def parsePlain (t : Text) : DirectiveKind × Text :=
  match t with
  | '$' :: rest =>
    let (body, capture) := splitCapture rest
    (.hostCall capture, body.trim)
  | '%' :: rest => (.webhook (WebhookSpec.parse? rest), Text.trim rest)
  | _ => (.command, t.trim)

/-- The marks of one character and what follows them: console, quiet, kind, body. -/
def parseMarked (t : Text) : Bool × Bool × DirectiveKind × Text :=
  let (asConsole, t) := takeMark '!' t
  let (quiet, t) := takeMark '-' t
  match t with
  | '+' :: rest => (asConsole, quiet, .assignment (parseAssignment? rest), [])
  | _ =>
    let (again, t) := takeMark '-' t
    let (kind, body) := parsePlain t
    (asConsole, quiet || again, kind, body)

def parse (raw : Text) : Directive :=
  let raw := raw.trim
  let (loop, t) := takeLoop raw
  let (delay, t) := takeDelay t
  let (gate, t) := takeGate t
  let (weight?, t) := takeWeight t
  let t := (takeMark '/' t.trim).2
  match Text.stripPrefix? "#message" t with
  | some rest =>
    { raw, delay, gate, asConsole := false, quiet := false, weight?, kind := .message (parseMessage rest),
      body := [] }
  | none =>
    let (asConsole, quiet, kind, body) := parseMarked t
    let kind := match loop with | some spec => .loop spec | none => kind
    { raw, delay, gate, asConsole, quiet, weight?, kind, body }

end Directive
end DirectiveEngine
