import DirectiveEngine.Text.Blank
import DirectiveEngine.Yaml.Write

/-!
# Values as plain text

What a text denotes that is stored under a key, and the text that is shown for a value.  An integer is taken
before a float, a float before a truth value, and everything else is a string.
-/

namespace DirectiveEngine.Yaml

/-- A text that is an integer is stored as one between these bounds, and as a float beyond them. -/
def storedBounds : Int × Int :=
  (-0x80000000, 0x7FFFFFFF)

def ofText (t : Text) : Yaml :=
  match integer? storedBounds.1 storedBounds.2 t, Decimal.read? t with
  | some n, _ => int n
  | none, some x => float x
  | none, none =>
    if Text.sameAscii t "true" then bool true
    else if Text.sameAscii t "false" then bool false
    else string t

/-- A scalar is shown without quotes, null as nothing, and a collection as a document. -/
def plainText : Yaml → Text
  | null => []
  | bool b => if b then "true" else "false"
  | int n => intText n
  | float x => Decimal.inDocument x
  | string t => t
  | v => Text.trim (write v)

end DirectiveEngine.Yaml
