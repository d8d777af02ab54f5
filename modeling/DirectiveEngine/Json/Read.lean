import DirectiveEngine.Json.Value
import DirectiveEngine.Number.Literal

/-!
# Reading JSON

A strict reader: nothing but white space may stand around a value, strings hold no control characters, and
collections are nested at most 127 deep.
-/

namespace DirectiveEngine.JsonValue

def isSpace (c : Char) : Bool :=
  c == ' ' || c == '\t' || c == '\n' || c == '\r'

def skipSpaces (t : Text) : Text :=
  t.dropWhile isSpace

/-- Four hexadecimal digits. -/
def unit? : Text → Option (Nat × Text)
  | a :: b :: c :: d :: t =>
    let digit (c : Char) : Option Nat :=
      if isDigit c then some (c.toNat - 48)
      else if 'a' ≤ c ∧ c ≤ 'f' then some (c.toNat - 87)
      else if 'A' ≤ c ∧ c ≤ 'F' then some (c.toNat - 55)
      else none
    do return (4096 * (← digit a) + 256 * (← digit b) + 16 * (← digit c) + (← digit d), t)
  | _ => none

/-- The character of an escape behind its backslash.  A character beyond the basic plane is two units. -/
def escape? : Text → Option (Char × Text)
  | 'n' :: t => some ('\n', t)
  | 't' :: t => some ('\t', t)
  | 'r' :: t => some ('\r', t)
  | 'b' :: t => some ('\x08', t)
  | 'f' :: t => some ('\x0c', t)
  | '"' :: t => some ('"', t)
  | '\\' :: t => some ('\\', t)
  | '/' :: t => some ('/', t)
  | 'u' :: t => do
    let (high, t) ← unit? t
    if 0xD800 ≤ high ∧ high < 0xDC00 then
      match t with
      | '\\' :: 'u' :: t => do
        let (low, t) ← unit? t
        if 0xDC00 ≤ low ∧ low < 0xE000 then
          return (Char.ofNat (0x10000 + 1024 * (high - 0xD800) + (low - 0xDC00)), t)
        else none
      | _ => none
    else if 0xDC00 ≤ high ∧ high < 0xE000 then none
    else return (Char.ofNat high, t)
  | _ => none

/-- The rest of a string behind its opening quote, and what follows its closing one. -/
def stringRest? : Nat → Text → Option (Text × Text)
  | 0, _ => none
  | _, [] => none
  | _, '"' :: t => some ([], t)
  | fuel + 1, '\\' :: t => do
    let (c, t) ← escape? t
    let (s, t) ← stringRest? fuel t
    return (c :: s, t)
  | fuel + 1, c :: t =>
    if c.toNat < 0x20 then none else (stringRest? fuel t).map fun r => (c :: r.1, r.2)

/-- A number at the start of a text. -/
def number? (t : Text) : Option (JsonValue × Text) :=
  let negative := t.head? == some '-'
  let body := if negative then t.tail else t
  let whole := body.takeWhile isDigit
  let rest := body.drop whole.length
  if whole.isEmpty || (1 < whole.length && whole.head? == some '0') then none
  else do
    let (fraction, rest) ← match rest with
      | '.' :: r =>
        let digits := r.takeWhile isDigit
        if digits.isEmpty then none else some ('.' :: digits, r.drop digits.length)
      | _ => some ([], rest)
    let (exponent, rest) ← match rest with
      | c :: r =>
        if c = 'e' ∨ c = 'E' then
          let sign := r.takeWhile fun c => c == '+' || c == '-'
          let digits := (r.drop sign.length).takeWhile isDigit
          if 1 < sign.length || digits.isEmpty then none
          else some (c :: sign ++ digits, r.drop (sign.length + digits.length))
        else some ([], rest)
      | [] => some ([], [])
    let n := digitsValue whole
    if fraction.isEmpty && exponent.isEmpty && !(negative && n == 0) then
      return (int (if negative then -(n : Int) else n), rest)
    else return (real ((if negative then ['-'] else []) ++ whole ++ fraction ++ exponent), rest)

def word? (word : Text) (v : JsonValue) (t : Text) : Option (JsonValue × Text) :=
  (Text.stripPrefix? word t).map fun r => (v, r)

mutual

/-- The value at the start of a text, in collections of which `depth` more may be nested. -/
def readAt? : Nat → Nat → Text → Option (JsonValue × Text)
  | 0, _, _ => none
  | fuel + 1, depth, t =>
    match skipSpaces t with
    | 'n' :: r => word? "ull" null r
    | 't' :: r => word? "rue" (bool true) r
    | 'f' :: r => word? "alse" (bool false) r
    | '"' :: r => (stringRest? (r.length + 1) r).map fun s => (string s.1, s.2)
    | '[' :: r =>
      match depth, skipSpaces r with
      | 0, _ => none
      | _, ']' :: r => some (array [], r)
      | depth + 1, r => (readItems? fuel depth r).map fun s => (array s.1, s.2)
    | '\x7b' :: r =>
      match depth, skipSpaces r with
      | 0, _ => none
      | _, '\x7d' :: r => some (object [], r)
      | depth + 1, r => (readMembers? fuel depth r).map fun s => (object s.1, s.2)
    | r => number? r

/-- The items of an array up to its closing bracket. -/
def readItems? : Nat → Nat → Text → Option (List JsonValue × Text)
  | 0, _, _ => none
  | fuel + 1, depth, t => do
    let (v, t) ← readAt? fuel depth t
    match skipSpaces t with
    | ',' :: t => (readItems? fuel depth t).map fun r => (v :: r.1, r.2)
    | ']' :: t => some ([v], t)
    | _ => none

/-- The members of an object up to its closing brace. -/
def readMembers? : Nat → Nat → Text → Option (List (Text × JsonValue) × Text)
  | 0, _, _ => none
  | fuel + 1, depth, t =>
    match skipSpaces t with
    | '"' :: t => do
      let (k, t) ← stringRest? (t.length + 1) t
      match skipSpaces t with
      | ':' :: t => do
        let (v, t) ← readAt? fuel depth t
        match skipSpaces t with
        | ',' :: t => (readMembers? fuel depth t).map fun r => ((k, v) :: r.1, r.2)
        | '\x7d' :: t => some ([(k, v)], t)
        | _ => none
      | _ => none
    | _ => none

end

def maxDepth : Nat := 127

/-- The value of a whole text. -/
def read? (t : Text) : Option JsonValue := do
  let (v, rest) ← readAt? (2 * t.length + 2) maxDepth t
  if (skipSpaces rest).isEmpty then return v else none

end DirectiveEngine.JsonValue
