import DirectiveEngine.Number.Literal
import DirectiveEngine.Text.Basic

/-!
# Written scalars

How the four kinds of scalar are read: plain, quoted once, quoted twice, and the blocks that keep or fold their
lines.  A reader takes the text from the scalar on and gives its value and the place behind it.  Line breaks
have been brought to a line feed before; only the two Unicode separators stand beside it.
-/

namespace DirectiveEngine.Yaml

/-- A place in a document: the text from there on, and where that is. -/
structure Place where
  rest : Text
  line : Nat
  column : Nat
  index : Nat

/-- A line feed, or a Unicode line or paragraph separator. -/
def isBreak (c : Char) : Bool :=
  c == '\n' || c.toNat == 0x2028 || c.toNat == 0x2029

def isSpaceOrTab (c : Char) : Bool :=
  c == ' ' || c == '\t'

def isGap (c : Char) : Bool :=
  isSpaceOrTab c || isBreak c

/-- The text ends here, or with a gap. -/
def atGap : Text → Bool
  | [] => true
  | c :: _ => isGap c

/-- Carriage returns, alone or before a line feed, and next-line characters become line feeds. -/
def normalizeBreaks : Text → Text
  | '\r' :: '\n' :: t => '\n' :: normalizeBreaks t
  | c :: t => (if c = '\r' ∨ c.toNat = 0x85 then '\n' else c) :: normalizeBreaks t
  | [] => []

namespace Place

/-- The place behind one more character of a line. -/
def next (p : Place) : Place :=
  { p with rest := p.rest.tail, column := p.column + 1, index := p.index + 1 }

/-- The place behind some characters of a line. -/
def skip (p : Place) (n : Nat) : Place :=
  { p with rest := p.rest.drop n, column := p.column + n, index := p.index + n }

def nextLine (p : Place) : Place :=
  { rest := p.rest.tail, line := p.line + 1, column := 0, index := p.index + 1 }

/-- The place behind a gap or other character. -/
def step (p : Place) : Place :=
  match p.rest with
  | c :: _ => if isBreak c then p.nextLine else p.next
  | [] => p

/-- The line starts with three times a character and then a gap. -/
def atMarker (p : Place) (c : Char) : Bool :=
  p.column == 0 && p.rest.take 3 == [c, c, c] && atGap (p.rest.drop 3)

/-- A line that ends or separates documents. -/
def atDocumentMarker (p : Place) : Bool :=
  p.atMarker '-' || p.atMarker '.'

end Place

/-! ### Gaps between words -/

/-- What stands between two words of a scalar: blanks of the first line and the line breaks. -/
structure Gap where
  blanks : Text := []
  breaks : Text := []
  stop : Place

/-- Reads a gap.  After a line break a tab must not stand left of `indent`. -/
def readGap? (indent : Int) : Nat → Bool → Place → Option Gap
  | 0, _, p => some { stop := p }
  | fuel + 1, leading, p =>
    match p.rest with
    | [] => some { stop := p }
    | c :: _ =>
      if isSpaceOrTab c then
        if leading then
          if c = '\t' ∧ (p.column : Int) < indent then none else readGap? indent fuel true p.next
        else (readGap? indent fuel false p.next).map fun g =>
          { g with blanks := c :: g.blanks }
      else if isBreak c then
        (readGap? indent fuel true p.nextLine).map fun g => { g with breaks := c :: g.breaks }
      else some { stop := p }

/-- What a gap contributes to the value: its blanks, or its line breaks with the first one folded. -/
def Gap.fold (g : Gap) : Text :=
  match g.breaks with
  | [] => g.blanks
  | '\n' :: [] => [' ']
  | '\n' :: more => more
  | breaks => breaks

/-! ### Plain scalars -/

def isFlowMark (c : Char) : Bool :=
  c ∈ [',', '[', ']', '\x7b', '\x7d']

/-- The characters up to a gap or to a mark that ends a plain scalar. -/
def readWord? (flow : Bool) : Text → Option (Text × Text)
  | [] => some ([], [])
  | c :: t =>
    if isGap c then some ([], c :: t)
    else if flow && c == ':' && (t.head?.map fun d => isFlowMark d || d == '?').getD false then none
    else if (c == ':' && atGap t) || (flow && isFlowMark c) then some ([], c :: t)
    else (readWord? flow t).map fun r => (c :: r.1, r.2)

/-- A plain scalar as read so far. -/
structure PlainScalar where
  value : Text
  stop : Place
  /-- Whether a line break stands before the place behind it. -/
  broken : Bool

/-- Reads words as long as they belong to the scalar. -/
def readPlain? (flow : Bool) (indent : Int) : Nat → Text → Gap → Option PlainScalar
  | 0, value, gap => some ⟨value, gap.stop, !gap.breaks.isEmpty⟩
  | fuel + 1, value, gap =>
    let p := gap.stop
    let finish := some ⟨value, p, !gap.breaks.isEmpty⟩
    let outdented := !flow && !gap.breaks.isEmpty && decide ((p.column : Int) < indent)
    if p.atDocumentMarker || p.rest.head? == some '#' || outdented then finish
    else do
      let (word, _) ← readWord? flow p.rest
      if word.isEmpty then finish
      else
        let value := value ++ gap.fold ++ word
        let p := p.skip word.length
        let gap ← readGap? indent p.rest.length false p
        if gap.blanks.isEmpty && gap.breaks.isEmpty then some ⟨value, p, false⟩
        else readPlain? flow indent fuel value gap

/-! ### Quoted scalars -/

/-- The characters that an escape of two characters stands for. -/
def simpleEscape? (c : Char) : Option Nat :=
  List.lookup c
    [('0', 0), ('a', 7), ('b', 8), ('t', 9), ('\t', 9), ('n', 10), ('v', 11), ('f', 12), ('r', 13), ('e', 27),
     (' ', 32), ('"', 34), ('/', 47), ('\\', 92), ('N', 0x85), ('_', 0xA0), ('L', 0x2028), ('P', 0x2029)]

def escapeLength? (c : Char) : Option Nat :=
  List.lookup c [('x', 2), ('u', 4), ('U', 8)]

def hexValue? (t : Text) : Option Nat :=
  t.foldl (fun n c => do
    let d ←
      if isDigit c then some (c.toNat - 48)
      else if 'a' ≤ c ∧ c ≤ 'f' then some (c.toNat - 87)
      else if 'A' ≤ c ∧ c ≤ 'F' then some (c.toNat - 55)
      else none
    return (← n) * 16 + d) (some 0)

/-- The character that an escape stands for and the length of the escape, which starts behind the backslash. -/
def readEscape? : Text → Option (Char × Nat)
  | [] => none
  | c :: t =>
    match simpleEscape? c, escapeLength? c with
    | some n, _ => some (Char.ofNat n, 1)
    | none, some length => do
      let digits := t.take length
      if digits.length < length then none
      else
        let n ← hexValue? digits
        if n.isValidChar then some (Char.ofNat n, length + 1) else none
    | none, none => none

/-- Reads a quoted scalar behind its opening quote, up to and with its closing one. -/
def readQuoted? (single : Bool) : Nat → Place → Option (Text × Place)
  | 0, _ => none
  | fuel + 1, p =>
    if p.atDocumentMarker then none
    else
      match p.rest with
      | [] => none
      | c :: t =>
        if single && c == '\'' then
          if t.head? == some '\'' then
            (readQuoted? single fuel (p.skip 2)).map fun r => ('\'' :: r.1, r.2)
          else some ([], p.next)
        else if !single && c == '"' then some ([], p.next)
        else if !single && c == '\\' then
          if (t.head?.map isBreak).getD false then do
            let gap ← readGap? (-1) t.length true p.next.nextLine
            (readQuoted? single fuel gap.stop).map fun r => (gap.breaks ++ r.1, r.2)
          else do
            let (e, n) ← readEscape? t
            (readQuoted? single fuel (p.skip (n + 1))).map fun r => (e :: r.1, r.2)
        else if isGap c then do
          let gap ← readGap? (-1) p.rest.length false p
          (readQuoted? single fuel gap.stop).map fun r => (gap.fold ++ r.1, r.2)
        else (readQuoted? single fuel p.next).map fun r => (c :: r.1, r.2)

/-! ### Block scalars -/

inductive Chomping where
  | strip
  | clip
  | keep
  deriving DecidableEq

def chompingOf? (c : Char) : Option Chomping :=
  if c = '+' then some .keep else if c = '-' then some .strip else none

/-- The width that a digit asks for; zero is refused. -/
def indentOf? (c : Char) : Option Nat :=
  if isDigit c && c != '0' then some (digitValue c) else none

/-- The marks behind the indicator of a block: chomping, width of the indentation, and their number. -/
def readHeader? (t : Text) : Option (Chomping × Nat × Nat) :=
  let first := t.head?
  let second := t[1]?
  match first.bind chompingOf?, first.bind indentOf? with
  | some chomping, _ =>
    match second.bind indentOf? with
    | some width => some (chomping, width, 2)
    | none => if second = some '0' then none else some (chomping, 0, 1)
  | none, some width =>
    match second.bind chompingOf? with
    | some chomping => some (chomping, width, 2)
    | none => some (.clip, width, 1)
  | none, none => if first = some '0' then none else some (.clip, 0, 0)

/-- The rest of a line may hold blanks and, from a number sign on, a comment. -/
def skipToBreak? (p : Place) : Option Place :=
  let blanks := p.rest.takeWhile isSpaceOrTab
  let p := p.skip blanks.length
  let comment := if p.rest.head? = some '#' then p.rest.takeWhile fun c => !isBreak c else []
  let p := p.skip comment.length
  match p.rest with
  | [] => some p
  | c :: _ => if isBreak c then some p.nextLine else none

/-- Line breaks between the lines of a block. -/
structure Blanks where
  breaks : Text := []
  widest : Nat := 0
  stop : Place

/-- Skips empty lines and the indentation of the next line, at most `indent` wide if that is known.  A tab must
not take the place of indentation. -/
def readBlanks? (indent : Nat) : Nat → Place → Option Blanks
  | 0, p => some { stop := p }
  | fuel + 1, p =>
    let wanted := indent = 0 ∨ p.column < indent
    match p.rest with
    | c :: _ =>
      if c = ' ' ∧ wanted then readBlanks? indent fuel p.next
      else if c = '\t' ∧ wanted then none
      else if isBreak c then
        (readBlanks? indent fuel p.nextLine).map fun b =>
          { b with breaks := c :: b.breaks, widest := max p.column b.widest }
      else some { widest := p.column, stop := p }
    | [] => some { widest := p.column, stop := p }

/-- Reads the lines of a block.  `pending` is the break of the line before, `inner` the empty lines
after it, and `indented` says that the line before started with a blank. -/
def readLines? (literal : Bool) (indent : Nat) : Nat → Text → Text → Bool → Place →
    Option (Text × Text × Text × Place)
  | 0, pending, inner, _, p => some ([], pending, inner, p)
  | fuel + 1, pending, inner, indented, p =>
    if p.column ≠ indent ∨ p.rest.isEmpty then some ([], pending, inner, p)
    else
      let blank := (p.rest.head?.map isSpaceOrTab).getD false
      let folds := !literal && pending.head? == some '\n' && !indented && !blank
      let joint : Text := if folds then (if inner.isEmpty then [' '] else []) else pending
      let line := p.rest.takeWhile fun c => !isBreak c
      let p := p.skip line.length
      let pending := p.rest.take 1
      let p := if pending.isEmpty then p else p.nextLine
      do
        let blanks ← readBlanks? indent (p.rest.length + 1) p
        let r ← readLines? literal indent fuel pending blanks.breaks blank blanks.stop
        return (joint ++ inner ++ line ++ r.1, r.2)

/-- Reads a block scalar behind its indicator, in a collection with the given indentation. -/
def readBlock? (literal : Bool) (outer : Int) (p : Place) : Option (Text × Place) := do
  let (chomping, width, marks) ← readHeader? p.rest
  let p ← skipToBreak? (p.skip marks)
  let asked : Nat := if width = 0 then 0 else (max outer 0).toNat + width
  let blanks ← readBlanks? asked (p.rest.length + 1) p
  let indent := if asked ≠ 0 then asked else max blanks.widest (max (outer + 1) 1).toNat
  let (value, pending, inner, p) ←
    readLines? literal indent (p.rest.length + 1) [] blanks.breaks false blanks.stop
  match chomping with
  | .strip => return (value, p)
  | .clip => return (value ++ pending, p)
  | .keep => return (value ++ pending ++ inner, p)

end DirectiveEngine.Yaml
