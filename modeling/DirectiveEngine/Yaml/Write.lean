import DirectiveEngine.Text.Utf8
import DirectiveEngine.Yaml.Plain
import DirectiveEngine.Yaml.Scalar

/-!
# Writing documents

The text of a value, with one entry or item a line and two columns of indentation for each mapping.  A string is
written without quotes where it reads back as itself, in single quotes where it would be taken for something
else, in double quotes where it holds characters that cannot be shown, and as a block where it has lines.
-/

namespace DirectiveEngine.Yaml

/-! ### Scalars -/

inductive ScalarStyle where
  | plain
  | singleQuoted
  | doubleQuoted
  | literal
  deriving DecidableEq

/-- Characters that stand for themselves in a document. -/
def isPrintable (c : Char) : Bool :=
  let n := c.toNat
  n == 10 || (0x20 ≤ n && n ≤ 0x7E) || (0xA0 ≤ n && n != 0xFEFF && n != 0xFFFE && n != 0xFFFF)

/-- Whether an unquoted text would be read as something else than itself. -/
def isAmbiguous (t : Text) : Bool :=
  let wide := (integerOf? t).any fun n => wideBounds.1 ≤ n && n ≤ wideBounds.2
  t.isEmpty || isNullText t || (boolOf? t).isSome || wide || (floatOf? t).isSome || hasLeadingZero t

/-- Whether a mark at a place behind the first character reads as syntax, with what stands around it. -/
def marksInside : Text → Bool
  | a :: b :: t =>
    (b == ':' && atGap t) || (b == '#' && isGap a) || marksInside (b :: t)
  | _ => false

/-- Whether a text holds syntax of a block. -/
def hasBlockMark (t : Text) : Bool :=
  match t with
  | [] => false
  | c :: r =>
    t.take 3 == ['-', '-', '-'] || t.take 3 == ['.', '.', '.'] ||
      c ∈ ['#', ',', '[', ']', '\x7b', '\x7d', '&', '*', '!', '|', '>', '\'', '"', '%', '@', '\x60'] ||
      ((c == '?' || c == ':' || c == '-') && atGap r) || marksInside t

/-- Whether a space stands right before a line break, or right after one. -/
def spaceBeforeBreak : Text → Bool
  | a :: b :: t => (a == ' ' && isBreak b) || spaceBeforeBreak (b :: t)
  | _ => false

def spaceAfterBreak : Text → Bool
  | a :: b :: t => (isBreak a && b == ' ') || spaceAfterBreak (b :: t)
  | _ => false

def startsOrEndsWith (p : Char → Bool) (t : Text) : Bool :=
  (t.head?.map p).getD false || (t.getLast?.map p).getD false

/-- The style that a string is written in, as the key of an entry or elsewhere. -/
def styleOf (asKey : Bool) (t : Text) : ScalarStyle :=
  let unshowable := t.any fun c => !isPrintable c
  let broken := t.any isBreak
  let endsInSpace := t.getLast? == some ' '
  if '\n' ∈ t then
    if asKey || endsInSpace || spaceBeforeBreak t || unshowable then .doubleQuoted else .literal
  else if asKey && broken then .doubleQuoted
  else if !isAmbiguous t && !startsOrEndsWith (fun c => c == ' ' || isBreak c) t && !broken && !unshowable &&
      !hasBlockMark t then .plain
  else if spaceAfterBreak t || spaceBeforeBreak t || unshowable then .doubleQuoted
  else .singleQuoted

def pad (n : Nat) : Text :=
  List.replicate n ' '

def hexDigits (width n : Nat) : Text :=
  let digits := (Nat.toDigits 16 n).map Char.toUpper
  List.replicate (width - digits.length) '0' ++ digits

/-- A character in double quotes. -/
def quoteChar (c : Char) : Text :=
  let n := c.toNat
  let short : Option Char := List.lookup n
    [(0, '0'), (7, 'a'), (8, 'b'), (9, 't'), (10, 'n'), (11, 'v'), (12, 'f'), (13, 'r'), (0x1B, 'e'),
     (0x22, '"'), (0x5C, '\\'), (0x85, 'N'), (0x2028, 'L'), (0x2029, 'P')]
  match short with
  | some s => ['\\', s]
  | none =>
    if isPrintable c then [c]
    else if n ≤ 0xFF then '\\' :: 'x' :: hexDigits 2 n
    else if n ≤ 0xFFFF then '\\' :: 'u' :: hexDigits 4 n
    else '\\' :: 'U' :: hexDigits 8 n

/-- Writes lines at an indentation: it stands before each line that is not empty. -/
def indentLines (indent : Nat) : Bool → Text → Text
  | _, [] => []
  | atStart, c :: t =>
    if isBreak c then c :: indentLines indent true t
    else (if atStart then pad indent else []) ++ c :: indentLines indent false t

/-- The marks behind the indicator of a block: its indentation, if the first line would hide it, and what is
kept of the line breaks at its end. -/
def blockHeader (t : Text) : Text :=
  let width : Text := if (t.head?.map fun c => c == ' ' || isBreak c).getD false then ['2'] else []
  let chomping : Text :=
    match t.reverse with
    | [] => ['-']
    | [c] => if isBreak c then ['+'] else ['-']
    | c :: d :: _ => if isBreak c then (if isBreak d then ['+'] else []) else ['-']
  '|' :: width ++ chomping ++ ['\n']

/-- A single-quoted text: quotes are doubled, and a line break is followed by the indentation. -/
def singleQuote (indent : Nat) (t : Text) : Text :=
  let inside := t.flatMap fun c => if c = '\'' then ['\'', '\''] else [c]
  '\'' :: indentLines indent false (inside ++ ['\''])

def scalarText (asKey : Bool) (indent : Nat) (t : Text) : Text :=
  match styleOf asKey t with
  | .plain => t
  | .singleQuoted => singleQuote indent t
  | .doubleQuoted => '"' :: t.flatMap quoteChar ++ ['"']
  | .literal => blockHeader t ++ indentLines indent true t

/-! ### Collections -/

/-- A new line at an indentation, unless the text before ends with a line break already. -/
def newLine (before : Text) (indent : Nat) : Text :=
  (if before.getLast? = some '\n' then [] else ['\n']) ++ pad indent

/-- Joins lines at an indentation. -/
def joinLines (indent : Nat) : List Text → Text
  | [] => []
  | [l] => l
  | l :: ls => l ++ newLine l indent ++ joinLines indent ls

/-- The value on the line of its key or of a mark, with the blank before it. -/
def inlineText (t : Text) : Text :=
  ' ' :: t

/-- Where a value stands: behind the key of an entry, behind a mark that starts a line, or behind a tag that
stands behind such a mark. -/
inductive Position where
  | behindKey
  | behindMark
  | behindTag
  deriving DecidableEq

def isCollection : Yaml → Bool
  | sequence (_ :: _) => true
  | mapping (_ :: _) => true
  | _ => false

/-- A key of at most 128 bytes and one line stands before its colon; others are marked by themselves. -/
def isSimpleKey : Yaml → Bool
  | string t => fitsKey 0 t
  | tagged tag (string t) => fitsKey (tag.length + 1) t
  | tagged _ v => !isCollection v
  | v => !isCollection v
where
  fitsKey (taken : Nat) (t : Text) : Bool :=
    !t.any isBreak && Text.utf8Size t + taken ≤ 128

mutual

/-- A value behind a key or mark at an indentation. -/
def valueText (indent : Nat) (pos : Position) : Yaml → Text
  | sequence (v :: vs) =>
    match pos with
    | .behindKey => '\n' :: pad indent ++ joinLines indent (itemTexts indent (v :: vs))
    | .behindMark => inlineText (joinLines (indent + 2) (itemTexts (indent + 2) (v :: vs)))
    | .behindTag => '\n' :: pad (indent + 2) ++ joinLines (indent + 2) (itemTexts (indent + 2) (v :: vs))
  | mapping (e :: es) =>
    let entries := joinLines (indent + 2) (entryTexts (indent + 2) (e :: es))
    if pos = .behindMark then inlineText entries else '\n' :: pad (indent + 2) ++ entries
  | tagged tag v =>
    inlineText ('!' :: tag ++ valueText indent (if pos = .behindMark then .behindTag else pos) v)
  | null => inlineText "null"
  | bool b => inlineText (if b then "true" else "false")
  | int n => inlineText (intText n)
  | float x => inlineText (Decimal.inDocument x)
  | string t => inlineText (scalarText false (indent + 2) t)
  | sequence [] => inlineText "[]"
  | mapping [] => inlineText "\x7b\x7d"

def itemTexts (indent : Nat) : List Yaml → List Text
  | [] => []
  | v :: vs => ('-' :: valueText indent .behindMark v) :: itemTexts indent vs

def entryTexts (indent : Nat) : List (Yaml × Yaml) → List Text
  | [] => []
  | (k, v) :: es =>
    let entry :=
      if isSimpleKey k then keyText indent k ++ ':' :: valueText indent .behindKey v
      else
        let key := '?' :: valueText indent .behindMark k
        key ++ newLine key indent ++ ':' :: valueText indent .behindMark v
    entry :: entryTexts indent es

/-- A key that stands before its colon. -/
def keyText (indent : Nat) : Yaml → Text
  | string t => scalarText true (indent + 2) t
  | null => "null"
  | bool b => if b then "true" else "false"
  | int n => intText n
  | float x => Decimal.inDocument x
  | sequence _ => "[]"
  | mapping _ => "\x7b\x7d"
  | tagged tag v => '!' :: tag ++ ' ' :: keyText indent v

end

/-- A value without indentation. -/
def rootText : Yaml → Text
  | sequence (i :: is) => joinLines 0 (itemTexts 0 (i :: is))
  | mapping (e :: es) => joinLines 0 (entryTexts 0 (e :: es))
  | string t => scalarText false 2 t
  | tagged tag v => '!' :: tag ++ (if isCollection v then ['\n'] else [' ']) ++ rootText v
  | v => (valueText 0 .behindKey v).drop 1

/-- The text of a document, which ends with a line break. -/
def write (v : Yaml) : Text :=
  rootText v ++ newLine (rootText v) 0

end DirectiveEngine.Yaml
