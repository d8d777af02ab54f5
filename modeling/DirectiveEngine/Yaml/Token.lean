import DirectiveEngine.Yaml.Scalar

/-!
# Document tokens

A document is cut into tokens.  Indentation opens and closes block collections, and a node before a colon turns
out to be a key only when the colon is reached: the tokens that start a mapping and its key are then put in
before it, at the place remembered for it.
-/

namespace DirectiveEngine.Yaml

inductive Token where
  | version (major minor : Nat)
  | tagHandle (handle start : Text)
  | documentStart
  | documentEnd
  | blockSequenceStart
  | blockMappingStart
  | blockEnd
  | flowSequenceStart
  | flowSequenceEnd
  | flowMappingStart
  | flowMappingEnd
  | blockEntry
  | flowEntry
  | key
  | value
  | alias (name : Text)
  | anchor (name : Text)
  | tag (handle suffix : Text)
  /-- A scalar, which may denote something else than its text only if it is plain. -/
  | scalar (plain : Bool) (text : Text)
  deriving DecidableEq

/-- A node that may turn out to be a key: how many tokens stand before it, and where it is. -/
structure KeyMark where
  position : Nat
  line : Nat
  column : Nat
  index : Nat
  /-- Nothing but a key can stand there. -/
  required : Bool

structure Lexer where
  place : Place
  /-- The tokens so far, the last one first. -/
  tokens : List Token := []
  flow : Nat := 0
  indent : Int := -1
  indents : List Int := []
  keyAllowed : Bool := true
  key : Option KeyMark := none
  /-- The marks of the flow collections around. -/
  outerKeys : List (Option KeyMark) := []

namespace Lexer

def rest (s : Lexer) : Text :=
  s.place.rest

def emit (s : Lexer) (t : Token) : Lexer :=
  { s with tokens := t :: s.tokens }

/-- Puts a token behind the first `position` ones. -/
def emitAt (s : Lexer) (position : Nat) (t : Token) : Lexer :=
  let later := s.tokens.length - position
  { s with tokens := s.tokens.take later ++ t :: s.tokens.drop later }

/-- Gives a key mark up.  A required key must not be given up. -/
def dropKey? (s : Lexer) : Option Lexer :=
  match s.key with
  | some k => if k.required then none else some { s with key := none }
  | none => some s

/-- A key stands on one line and is not longer than 1024 characters. -/
def isStale (s : Lexer) (k : KeyMark) : Bool :=
  k.line < s.place.line || k.index + 1024 < s.place.index

/-- Gives up the key marks that are stale. -/
def dropStaleKeys? (s : Lexer) : Option Lexer :=
  let marks := s.key :: s.outerKeys
  if marks.any fun m => (m.map fun k => s.isStale k && k.required).getD false then none
  else
    let live (m : Option KeyMark) : Option KeyMark := m.filter fun k => !s.isStale k
    some { s with key := live s.key, outerKeys := s.outerKeys.map live }

/-- Remembers that the next node may be a key. -/
def saveKey? (s : Lexer) : Option Lexer :=
  if s.keyAllowed then do
    let p := s.place
    let s ← s.dropKey?
    let required := s.flow == 0 && s.indent == (p.column : Int)
    return { s with key := some ⟨s.tokens.length, p.line, p.column, p.index, required⟩ }
  else some s

/-- Opens a block collection in a column to the right of the current one. -/
def openBlock (s : Lexer) (column : Nat) (position : Nat) (t : Token) : Lexer :=
  if s.flow = 0 ∧ s.indent < column then
    { s.emitAt position t with indent := column, indents := s.indent :: s.indents }
  else s

/-- Closes the block collections to the right of a column. -/
def closeBlocksAux (column : Int) : List Int → Lexer → Lexer
  | [], s => s
  | outer :: more, s =>
    if s.indent > column then
      closeBlocksAux column more { s.emit .blockEnd with indent := outer, indents := more }
    else s

def closeBlocks (s : Lexer) (column : Int) : Lexer :=
  if s.flow = 0 then closeBlocksAux column s.indents s else s

/-- Skips blanks, comments and line breaks.  A tab must not stand where a key may start. -/
def skipGaps : Nat → Lexer → Lexer
  | 0, s => s
  | fuel + 1, s =>
    match s.rest with
    | [] => s
    | c :: _ =>
      if c = ' ' ∨ (c = '\t' ∧ (s.flow ≠ 0 ∨ !s.keyAllowed)) then
        skipGaps fuel { s with place := s.place.next }
      else if c = '#' then
        let comment := s.rest.takeWhile fun c => !isBreak c
        skipGaps fuel { s with place := s.place.skip comment.length }
      else if isBreak c then
        skipGaps fuel { s with place := s.place.nextLine, keyAllowed := s.keyAllowed || s.flow = 0 }
      else s

/-! ### Names and tags -/

def isNameChar (c : Char) : Bool :=
  c.isAlphanum || c == '_' || c == '-'

/-- Whether a name may end before this text. -/
def endsName : Text → Bool
  | [] => true
  | c :: _ => isGap c || c ∈ ['?', ':', ',', ']', '\x7d', '%', '@', '\x60']

def isTagChar (c : Char) : Bool :=
  isNameChar c || c ∈ [';', '/', '?', ':', '@', '&', '=', '+', '$', '.', '%', '!', '~', '*', '\'', '(', ')']

def isUriChar (c : Char) : Bool :=
  isTagChar c || c == ',' || c == '[' || c == ']'

/-- Resolves percent escapes of ASCII characters in a tag. -/
def unescapeTag? : Nat → Text → Option Text
  | 0, _ => none
  | _, [] => some []
  | fuel + 1, '%' :: t => do
    let n ← if (t.take 2).length = 2 then hexValue? (t.take 2) else none
    if n < 128 then return Char.ofNat n :: (← unescapeTag? fuel (t.drop 2)) else none
  | fuel + 1, c :: t => (unescapeTag? fuel t).map (c :: ·)

/-- A tag: its handle, its suffix and its length. -/
def readTag? (t : Text) : Option (Text × Text × Nat) :=
  match t with
  | '!' :: '<' :: r =>
    let uri := r.takeWhile isUriChar
    if uri.isEmpty ∨ (r.drop uri.length).head? ≠ some '>' then none
    else (unescapeTag? (uri.length + 1) uri).map fun u => ([], u, uri.length + 3)
  | '!' :: r =>
    let name := r.takeWhile isNameChar
    match r.drop name.length with
    | '!' :: r' =>
      let suffix := r'.takeWhile isTagChar
      if suffix.isEmpty then none
      else (unescapeTag? (suffix.length + 1) suffix).map fun u =>
        ('!' :: name ++ ['!'], u, name.length + suffix.length + 2)
    | _ =>
      let suffix := r.takeWhile isTagChar
      if suffix.isEmpty then some ([], ['!'], 1)
      else (unescapeTag? (suffix.length + 1) suffix).map fun u => (['!'], u, suffix.length + 1)
  | _ => none

/-! ### One token -/

def scanAnchor? (s : Lexer) (token : Text → Token) : Option Lexer := do
  let s ← s.saveKey?
  let name := s.rest.tail.takeWhile isNameChar
  let p := s.place.skip (name.length + 1)
  if name.isEmpty || !endsName p.rest then none
  else return { s.emit (token name) with place := p, keyAllowed := false }

def scanTag? (s : Lexer) : Option Lexer := do
  let s ← s.saveKey?
  let (handle, suffix, length) ← readTag? s.rest
  let p := s.place.skip length
  if atGap p.rest || (s.flow ≠ 0 && p.rest.head? == some ',') then
    return { s.emit (.tag handle suffix) with place := p, keyAllowed := false }
  else none

def scanBlock? (s : Lexer) (literal : Bool) : Option Lexer := do
  let s ← s.dropKey?
  let (text, p) ← readBlock? literal s.indent s.place.next
  return { s.emit (.scalar false text) with place := p, keyAllowed := true }

def scanQuoted? (s : Lexer) (single : Bool) : Option Lexer := do
  let s ← s.saveKey?
  let (text, p) ← readQuoted? single s.rest.length s.place.next
  return { s.emit (.scalar false text) with place := p, keyAllowed := false }

def scanPlain? (s : Lexer) : Option Lexer := do
  let s ← s.saveKey?
  let r ← readPlain? (s.flow ≠ 0) (s.indent + 1) s.rest.length [] { stop := s.place }
  return { s.emit (.scalar true r.value) with place := r.stop, keyAllowed := r.broken }

def openFlow? (s : Lexer) (t : Token) : Option Lexer := do
  let s ← s.saveKey?
  return { s.emit t with
    place := s.place.next, keyAllowed := true, flow := s.flow + 1, key := none,
    outerKeys := s.key :: s.outerKeys }

def closeFlow? (s : Lexer) (t : Token) : Option Lexer := do
  let s ← s.dropKey?
  return { s.emit t with
    place := s.place.next, keyAllowed := false, flow := s.flow - 1,
    key := s.outerKeys.head?.getD none, outerKeys := s.outerKeys.tail }

def scanFlowEntry? (s : Lexer) : Option Lexer := do
  let s ← s.dropKey?
  return { s.emit .flowEntry with place := s.place.next, keyAllowed := true }

def scanBlockEntry? (s : Lexer) : Option Lexer := do
  if s.flow = 0 && !s.keyAllowed then none
  let s ← (s.openBlock s.place.column s.tokens.length .blockSequenceStart).dropKey?
  return { s.emit .blockEntry with place := s.place.next, keyAllowed := true }

def scanKey? (s : Lexer) : Option Lexer := do
  if s.flow = 0 && !s.keyAllowed then none
  let s ← (s.openBlock s.place.column s.tokens.length .blockMappingStart).dropKey?
  return { s.emit .key with place := s.place.next, keyAllowed := s.flow = 0 }

def scanValue? (s : Lexer) : Option Lexer :=
  match s.key with
  | some k =>
    let s := (s.emitAt k.position .key).openBlock k.column k.position .blockMappingStart
    some { s.emit .value with place := s.place.next, keyAllowed := false, key := none }
  | none =>
    if s.flow = 0 && !s.keyAllowed then none
    else
      let s := s.openBlock s.place.column s.tokens.length .blockMappingStart
      some { s.emit .value with place := s.place.next, keyAllowed := s.flow = 0 }

def scanDocumentMarker? (s : Lexer) (t : Token) : Option Lexer := do
  let s ← (s.closeBlocks (-1)).dropKey?
  return { s.emit t with place := s.place.skip 3, keyAllowed := false }

/-- The meaning of the words of a directive line: the version, or a handle for tags. -/
def directive? : List Text → Option Token
  | [name, arg] =>
    if name = "%YAML" then
      match arg.splitOn '.' with
      | [major, minor] => do return .version (← digits? major) (← digits? minor)
      | _ => none
    else none
  | [name, handle, start] =>
    if name = "%TAG" && handle.head? == some '!' && handle.getLast? == some '!' &&
        (handle.drop 1).dropLast.all isNameChar && start.all isUriChar then
      some (.tagHandle handle start)
    else none
  | _ => none

def scanDirective? (s : Lexer) : Option Lexer := do
  let s ← (s.closeBlocks (-1)).dropKey?
  let line := s.rest.takeWhile fun c => !isBreak c
  let words := (line.splitOn ' ').filter fun w => !w.isEmpty
  let token ← directive? (words.takeWhile fun w => w.head? ≠ some '#')
  return { s.emit token with place := s.place.skip line.length, keyAllowed := false }

/-- Characters that start no plain scalar. -/
def isIndicator (c : Char) : Bool :=
  c ∈ ['-', '?', ':', ',', '[', ']', '\x7b', '\x7d', '#', '&', '*', '!', '|', '>', '\'', '"', '%', '@',
    '\x60']

/-- Whether a plain scalar may start with `c` before `t`. -/
def startsPlain (s : Lexer) (c : Char) (t : Text) : Bool :=
  !(isIndicator c || isGap c) || (c == '-' && !(t.head?.map isSpaceOrTab).getD false) ||
    (s.flow == 0 && (c == '?' || c == ':') && !atGap t)

/-- Reads the token that starts with `c`, behind which `t` stands. -/
def scanAt? (s : Lexer) (c : Char) (t : Text) : Option Lexer :=
  if s.place.column = 0 ∧ c = '%' then s.scanDirective?
  else if s.place.atMarker '-' then s.scanDocumentMarker? .documentStart
  else if s.place.atMarker '.' then s.scanDocumentMarker? .documentEnd
  else if c = '[' then s.openFlow? .flowSequenceStart
  else if c = '\x7b' then s.openFlow? .flowMappingStart
  else if c = ']' then s.closeFlow? .flowSequenceEnd
  else if c = '\x7d' then s.closeFlow? .flowMappingEnd
  else if c = ',' then s.scanFlowEntry?
  else if c = '-' ∧ atGap t then s.scanBlockEntry?
  else if c = '?' ∧ (s.flow ≠ 0 ∨ atGap t) then s.scanKey?
  else if c = ':' ∧ (s.flow ≠ 0 ∨ atGap t) then s.scanValue?
  else if c = '*' then s.scanAnchor? .alias
  else if c = '&' then s.scanAnchor? .anchor
  else if c = '!' then s.scanTag?
  else if c = '|' ∧ s.flow = 0 then s.scanBlock? true
  else if c = '>' ∧ s.flow = 0 then s.scanBlock? false
  else if c = '\'' then s.scanQuoted? true
  else if c = '"' then s.scanQuoted? false
  else if s.startsPlain c t then s.scanPlain?
  else none

/-- Reads all tokens.  Each one takes at least one character. -/
def scan? : Nat → Lexer → Option Lexer
  | 0, _ => none
  | fuel + 1, s => do
    let s ← (s.skipGaps (s.rest.length + 1)).dropStaleKeys?
    let s := s.closeBlocks s.place.column
    match s.rest with
    | [] => (s.closeBlocks (-1)).dropKey?
    | c :: t => scan? fuel (← s.scanAt? c t)

end Lexer

/-- Control characters and the like are in no document. -/
def isDocumentChar (c : Char) : Bool :=
  let n := c.toNat
  n == 9 || n == 10 || n == 13 || (0x20 ≤ n && n ≤ 0x7E) || n == 0x85 || (0xA0 ≤ n && n ≤ 0xD7FF) ||
    (0xE000 ≤ n && n ≤ 0xFFFD && n != 0xFEFF) || 0x10000 ≤ n

/-- The tokens of a document, which may start with a byte order mark. -/
def tokens? (t : Text) : Option (List Token) :=
  let t := if (t.head?.map Char.toNat) = some 0xFEFF then t.tail else t
  if t.all isDocumentChar then
    let t := normalizeBreaks t
    (Lexer.scan? (t.length + 2) { place := ⟨t, 0, 0, 0⟩ }).map fun s => s.tokens.reverse
  else none

end DirectiveEngine.Yaml
