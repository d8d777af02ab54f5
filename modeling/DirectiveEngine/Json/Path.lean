import DirectiveEngine.Text.Blank

/-!
# Paths into JSON text

A path looks into JSON text without reading it as a whole: each key is searched for as it stands in quotes,
and the value behind the next colon is cut out.  What is missing or malformed reads as empty.
-/

namespace DirectiveEngine.JsonPath

/-- A value in brackets, up to the one that closes the first; all of it if none does. -/
def balanced (opening closing : Char) : Nat → Text → Text
  | _, [] => []
  | depth, c :: t =>
    if c = opening then c :: balanced opening closing (depth + 1) t
    else if c = closing then
      if depth ≤ 1 then [c] else c :: balanced opening closing (depth - 1) t
    else c :: balanced opening closing depth t

/-- The value that a text starts with. -/
def value? : Text → Option Text
  | [] => none
  | '"' :: t => (Text.splitFirst? "\"" t).map Prod.fst
  | '\x7b' :: t => some (balanced '\x7b' '\x7d' 0 ('\x7b' :: t))
  | '[' :: t => some (balanced '[' ']' 0 ('[' :: t))
  | t => some (Text.trim (t.takeWhile fun c => c != ',' && c != '\x7d' && c != ']'))

/-- The value behind the first occurrence of a key in quotes.  The colon is searched for from the key on. -/
def step? (json key : Text) : Option Text := do
  let quoted : Text := '"' :: key ++ ['"']
  let (_, after) ← Text.splitFirst? quoted json
  let (_, value) ← Text.splitFirst? ":" (quoted ++ after)
  value? value.trimStart

def follow? : List Text → Text → Option Text
  | [], json => some json
  | key :: keys, json => (step? json key).bind (follow? keys)

/-- The value under a path of keys joined by points, or nothing. -/
def extract (json path : Text) : Text :=
  (follow? (path.splitOn '.') json.trim).getD []

end DirectiveEngine.JsonPath
