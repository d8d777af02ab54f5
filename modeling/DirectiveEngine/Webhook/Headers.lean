import DirectiveEngine.Dictionary
import DirectiveEngine.Text.LetterCase

/-!
# Header fields

Header names are compared in lowercase, so the last of several that differ in case only is kept.  A body is
JSON unless a content type is given.
-/

namespace DirectiveEngine

/-- What makes a header unfit to be sent. -/
inductive HeaderFault where
  | name
  | value
  deriving DecidableEq

def HeaderFault.message : HeaderFault → Text
  | .name => "invalid HTTP header name"
  | .value => "failed to parse header value"

/-- The characters of a header name: ASCII letters, digits and some marks. -/
def isHeaderNameChar (c : Char) : Bool :=
  c.isAlphanum || c ∈ ("!#$%&'*+-.^_\x60|~" : Text)

def isHeaderName (t : Text) : Bool :=
  !t.isEmpty && t.length < 65536 && t.all isHeaderNameChar

/-- A header value has no control character but the tab. -/
def isHeaderValue (t : Text) : Bool :=
  t.all fun c => (32 ≤ c.toNat && c.toNat != 127) || c == '\t'

/-- What names and values of headers have to be like. -/
structure HeaderRules where
  isName : Text → Bool
  isValue : Text → Bool

namespace HeaderRules

/-- The rules of HTTP. -/
def http : HeaderRules :=
  ⟨isHeaderName, isHeaderValue⟩

def fault? (r : HeaderRules) (name value : Text) : Option HeaderFault :=
  if !r.isName name then some .name else if !r.isValue value then some .value else none

/-- The headers that are sent, or the first unfit one in code point order of the names. -/
def build (r : HeaderRules) (headers : Dictionary Text) : Except (Text × HeaderFault) (Dictionary Text) :=
  match headers.findSome? fun h => (r.fault? h.1 h.2).map fun f => (h.1, f) with
  | some fault => .error fault
  | none =>
    let sent := Dictionary.ofList (headers.map fun h => (h.1.lowerAscii, h.2))
    match sent.get? "content-type" with
    | some _ => .ok sent
    | none => .ok (sent.insert "content-type" "application/json")

end HeaderRules

def buildHeaders (headers : Dictionary Text) : Except (Text × HeaderFault) (Dictionary Text) :=
  HeaderRules.http.build headers

end DirectiveEngine
