import DirectiveEngine.Number.Notation

/-!
# JSON values

Values and their indented text.  The members of an object keep the order in which they stand.
-/

namespace DirectiveEngine

inductive JsonValue where
  | null
  | bool (b : Bool)
  | int (n : Int)
  /-- A number with a point or an exponent, as written. -/
  | real (literal : Text)
  | string (t : Text)
  | array (items : List JsonValue)
  | object (members : List (Text × JsonValue))

namespace JsonValue

def ofText? : Option Text → JsonValue
  | some t => string t
  | none => null

def hexDigit (n : Nat) : Char :=
  Char.ofNat (if n < 10 then 48 + n else 87 + n)

/-- A character inside quotes. -/
def escapeChar (c : Char) : Text :=
  if c = '"' then "\\\"" else
  if c = '\\' then "\\\\" else
  if c = '\n' then "\\n" else
  if c = '\r' then "\\r" else
  if c = '\t' then "\\t" else
  if c = '\x08' then "\\b" else
  if c = '\x0c' then "\\f" else
  if c.toNat < 0x20 then "\\u00" ++ [hexDigit (c.toNat / 16), hexDigit (c.toNat % 16)] else [c]

def quote (t : Text) : Text :=
  '"' :: t.flatMap escapeChar ++ ['"']

/-- A line break with the indentation of a level. -/
def lineBreak (level : Nat) : Text :=
  '\n' :: List.replicate (2 * level) ' '

mutual

/-- The text of a value that stands at a level of indentation. -/
def prettyAt (level : Nat) : JsonValue → Text
  | null => "null"
  | bool b => if b then "true" else "false"
  | int n => intText n
  | real literal => literal
  | string t => quote t
  | array [] => "[]"
  | array (v :: vs) =>
    '[' :: lineBreak (level + 1) ++ prettyAt (level + 1) v ++ prettyItems level vs ++ lineBreak level ++ [']']
  | object [] => "\x7b\x7d"
  | object ((k, v) :: ms) =>
    '\x7b' :: lineBreak (level + 1) ++ quote k ++ ": " ++ prettyAt (level + 1) v ++ prettyMembers level ms ++
      lineBreak level ++ ['\x7d']

def prettyItems (level : Nat) : List JsonValue → Text
  | [] => []
  | v :: vs => ',' :: lineBreak (level + 1) ++ prettyAt (level + 1) v ++ prettyItems level vs

def prettyMembers (level : Nat) : List (Text × JsonValue) → Text
  | [] => []
  | (k, v) :: ms =>
    ',' :: lineBreak (level + 1) ++ quote k ++ ": " ++ prettyAt (level + 1) v ++ prettyMembers level ms

end

def pretty (v : JsonValue) : Text :=
  prettyAt 0 v

end JsonValue
end DirectiveEngine
