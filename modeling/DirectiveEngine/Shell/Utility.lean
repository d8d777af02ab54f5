import DirectiveEngine.File.Tree
import DirectiveEngine.Shell.Printf
import DirectiveEngine.Text.Blank

/-!
# Utilities

The programs that a command line may name, each a function of its arguments, its input and the files it sees.
-/

namespace DirectiveEngine.Shell

/-- What a utility sees. -/
structure Surroundings where
  dialect : Dialect
  /-- What stands in front of a report. -/
  label : Text
  input : Bytes
  tree : FileTree
  place : FilePath

structure Report where
  out : Bytes := []
  err : Text := []
  status : Nat := 0
  /-- The files afterwards, if they were changed. -/
  tree? : Option FileTree := none

def Report.text (t : Text) : Report :=
  { out := Text.toUtf8 t }

def Report.fail (status : Nat) (t : Text) : Report :=
  { err := t ++ "\n", status }

/-- A fault without its number. -/
def faultText (x : FileFault) : Text :=
  ((Text.splitFirst? " (" x.message).map Prod.fst).getD x.message

/-- A number without a sign. -/
def count? (t : Text) : Option Nat :=
  digits? t

/-! ### Output -/

/-- The options of `echo`, and the words to write: whether the line ends, and whether escapes count. -/
def echoOptions (dialect : Dialect) : List Text → Bool × Bool × List Text
  | [] => (true, dialect = .posix, [])
  | w :: ws =>
    match dialect, w with
    | .posix, ['-', 'n'] => (false, true, ws)
    | .bash, '-' :: c :: cs =>
      if (c :: cs).all (· ∈ ['n', 'e', 'E']) then
        let (line, escapes, ws) := echoOptions dialect ws
        (line && !(c :: cs).contains 'n', escapes || (c :: cs).contains 'e', ws)
      else (true, false, w :: ws)
    | _, _ => (true, dialect = .posix, w :: ws)

def echo (s : Surroundings) (args : List Text) : Report :=
  let (line, escapes, words) := echoOptions s.dialect args
  let t := Text.join " " words
  let (out, ended) := if escapes then unescape s.dialect true (t.length + 1) t else (Text.toUtf8 t, false)
  { out := out ++ (if line && !ended then [10] else []) }

def formatFault (dialect : Dialect) (subject : Text) : FormatFault → Text
  | .notANumber => subject ++ (if dialect = .bash then ": invalid number" else ": expected numeric value")
  | .trailing => subject ++ (if dialect = .bash then ": invalid number" else ": not completely converted")
  | .unknownKind =>
    if dialect = .bash then '\x60' :: subject.drop 1 ++ "': invalid format character"
    else subject ++ ": invalid directive"

def printf (s : Surroundings) (args : List Text) : Report :=
  match args with
  | [] =>
    if s.dialect = .bash then .fail 2 (s.label ++ "printf: usage: printf [-v var] format [arguments]")
    else .fail 2 (s.label ++ "printf: usage: printf format [arg ...]")
  | ['-', c] :: args => if c = '-' then formatted (args.headD []) args.tail else illegalOption c
  | format :: args => formatted format args
where
  illegalOption (c : Char) : Report :=
    if s.dialect = .bash then
      .fail 2 (s.label ++ "printf: -" ++ c :: ": invalid option\nprintf: usage: printf [-v var] format [arguments]")
    else .fail 2 (s.label ++ "printf: Illegal option -" ++ [c])
  formatted (format : Text) (args : List Text) : Report :=
    let f := formatAll s.dialect format (args.length + 1) { args }
    { out := f.out
      err := f.faults.flatMap fun e => s.label ++ "printf: " ++ formatFault s.dialect e.1 e.2 ++ "\n"
      status :=
        match f.faults.getLast? with
        | none => 0
        | some (_, .unknownKind) => if s.dialect = .bash then 1 else 2
        | some _ => 1 }

/-- The whole numbers from the first argument to the last, in steps of the middle one. -/
def seq (args : List Text) : Report :=
  let bounds := args.mapM int64?
  let range (first step last : Int) : Report :=
    let n := if step = 0 then 0 else (Int.fdiv (last - first) step + 1).toNat
    .text ((List.range n).flatMap fun (i : Nat) => intText (first + i * step) ++ "\n")
  match bounds with
  | some [last] => range 1 1 last
  | some [first, last] => range first 1 last
  | some [first, step, last] => range first step last
  | _ => .fail 1 "seq: invalid argument"

/-! ### Files -/

/-- What is read from a file without end before its reader stops. -/
def endless? (file : Text) : Option Bytes :=
  if file ∈ (["/dev/zero", "/dev/urandom"] : List Text) then some (List.replicate 0x100000 0) else none

/-- The input of a utility: its files one after the other, or else its standard input. -/
def inputOf (s : Surroundings) (utility : Text) (files : List Text) : Report :=
  if files.isEmpty then { out := s.input }
  else
    files.foldl (fun r f =>
      if f = ['-'] then { r with out := r.out ++ s.input }
      else
        let fault (x : FileFault) : Report :=
          { r with err := r.err ++ utility ++ ": " ++ f ++ ": " ++ faultText x ++ "\n", status := 1 }
        match endless? f, s.tree.locateText s.place f with
        | some bs, _ => { r with out := r.out ++ bs }
        | none, .error x => fault x
        | none, .ok p =>
          match s.tree.get? p with
          | some (.file c) => { r with out := r.out ++ c.toBytes }
          | some .directory => fault .isADirectory
          | none => fault .notFound) {}

/-- Lines with their ends; the last one may lack it. -/
def byteLines (bs : Bytes) : List Bytes :=
  let pieces := bs.splitOn 10
  let ended := pieces.dropLast.map fun l => l ++ [10]
  match pieces.getLast? with
  | some (b :: l) => ended ++ [b :: l]
  | _ => ended

/-- The count of bytes that `head` or `tail` is asked for, and the files. -/
def byteCount? : List Text → Option (Nat × List Text)
  | ['-', 'c'] :: n :: files => some ((count? n).getD 0, files)
  | ('-' :: 'c' :: n) :: files => some ((count? n).getD 0, files)
  | _ => none

/-- The count of a `head` or `tail`, and the files. -/
def lineCount : List Text → Nat × List Text
  | ['-', 'n'] :: n :: files => ((count? n).getD 10, files)
  | ('-' :: 'n' :: n) :: files => ((count? n).getD 10, files)
  | ('-' :: n) :: files =>
    match count? n with
    | some n => (n, files)
    | none => (10, ('-' :: n) :: files)
  | files => (10, files)

/-- Applies a function to the lines of the input. -/
def filterLines (s : Surroundings) (utility : Text) (files : List Text) (f : List Bytes → List Bytes) :
    Report :=
  let r := inputOf s utility files
  { r with out := (f (byteLines r.out)).flatten }

def head (s : Surroundings) (args : List Text) : Report :=
  match byteCount? args with
  | some (n, files) => let r := inputOf s "head" files; { r with out := r.out.take n }
  | none => let (n, files) := lineCount args; filterLines s "head" files fun ls => ls.take n

def tail (s : Surroundings) (args : List Text) : Report :=
  match byteCount? args with
  | some (n, files) => let r := inputOf s "tail" files; { r with out := r.out.drop (r.out.length - n) }
  | none => let (n, files) := lineCount args; filterLines s "tail" files fun ls => ls.drop (ls.length - n)

def trimEnd (l : Bytes) : Bytes :=
  if l.getLast? = some 10 then l.dropLast else l

def bytesLe : Bytes → Bytes → Bool
  | [], _ => true
  | _ :: _, [] => false
  | a :: s, b :: t => a < b || (a == b && bytesLe s t)

/-- The number at the start of a line. -/
def lineNumber (l : Bytes) : Int :=
  (argumentNumber ('+' :: (Text.ofUtf8Lossy l).takeWhile fun c => isDigit c)).1

def sort (s : Surroundings) (args : List Text) : Report :=
  let options := (args.filter fun a => a.head? == some '-').flatten
  let files := args.filter fun a => a.head? != some '-'
  filterLines s "sort" files fun ls =>
    let ls := (ls.map trimEnd).mergeSort fun a b =>
      if options.contains 'n' then lineNumber a < lineNumber b || (lineNumber a == lineNumber b && bytesLe a b)
      else bytesLe a b
    let ls := if options.contains 'u' then ls.eraseReps else ls
    let ls := if options.contains 'r' then ls.reverse else ls
    ls.map fun l => l ++ [10]

def wc (s : Surroundings) (args : List Text) : Report :=
  let options := (args.filter fun a => a.head? == some '-').flatten
  let files := args.filter fun a => a.head? != some '-'
  let r := inputOf s "wc" files
  let lines := r.out.count 10
  let words := ((Text.ofUtf8Lossy r.out).splitOnP isBlank).countP fun w => !w.isEmpty
  let name : Text := match files with | [f] => ' ' :: f | _ => []
  let padded (n : Nat) : Text := let t := natText n; List.replicate (7 - t.length) ' ' ++ t
  let single : Option Nat :=
    if options = "-l" then some lines else if options = "-w" then some words
    else if options = "-c" then some r.out.length else none
  match single with
  | some n => { r with out := Text.toUtf8 (natText n ++ name ++ "\n") }
  | none =>
    let counts := padded lines ++ ' ' :: padded words ++ ' ' :: padded r.out.length
    { r with out := Text.toUtf8 (counts ++ name ++ "\n") }

/-- The characters from one to another. -/
def charRange (a b : Char) : Text :=
  (List.range (b.toNat + 1 - a.toNat)).map fun i => Char.ofNat (a.toNat + i)

/-- The characters of a class. -/
def charClass (name : Text) : Text :=
  if name = "lower" then charRange 'a' 'z'
  else if name = "upper" then charRange 'A' 'Z'
  else if name = "digit" then charRange '0' '9'
  else if name = "space" then "\t\n\x0b\x0c\r "
  else if name = "alpha" then charRange 'A' 'Z' ++ charRange 'a' 'z'
  else []

/-- The characters of a set, with ranges and the classes of letters. -/
def charSet : Nat → Text → Text
  | 0, _ => []
  | _, [] => []
  | fuel + 1, a :: '-' :: b :: t => charRange a b ++ charSet fuel t
  | fuel + 1, '\\' :: t =>
    let (b, t) := escapeBytes .posix false t
    Text.ofUtf8Lossy b ++ charSet fuel t
  | fuel + 1, '[' :: ':' :: t =>
    match Text.splitFirst? ":]" t with
    | some (name, t) => charClass name ++ charSet fuel t
    | none => '[' :: charSet fuel (':' :: t)
  | fuel + 1, c :: t => c :: charSet fuel t

def tr (s : Surroundings) (args : List Text) : Report :=
  let t := Text.ofUtf8Lossy s.input
  match args with
  | [option, set] =>
    let chars := charSet (set.length + 1) set
    if option = "-d" then .text (t.filter fun c => c ∉ chars)
    else
      let before := charSet (option.length + 1) option
      let change (c : Char) : Char :=
        match before.idxOf? c with
        | some i => (chars[i]?.or chars.getLast?).getD c
        | none => c
      .text (t.map change)
  | _ => .fail 1 "tr: missing operand"

/-- The numbers of a list such as `1,3-5,7-`, by the first and the last of each range. -/
def rangesOf? (t : Text) : Option (List (Nat × Nat)) :=
  (t.splitOn ',').mapM fun t =>
    match Text.splitFirst? "-" t with
    | none => (count? t).map fun n => (n, n)
    | some (first, last) => do
      let a ← if first.isEmpty then some 1 else count? first
      let b ← if last.isEmpty then some 0x100000000 else count? last
      return (a, b)

/-- The options of `cut` and their values, and the files. -/
def cutOptions : List Text → List (Char × Text) × List Text
  | ['-', o] :: value :: args => let r := cutOptions args; ((o, value) :: r.1, r.2)
  | ('-' :: o :: value) :: args => let r := cutOptions args; ((o, value) :: r.1, r.2)
  | args => ([], args)

/-- Picks bytes or fields from each line; a line without a border of fields is kept. -/
def cut (s : Surroundings) (args : List Text) : Report :=
  let (options, files) := cutOptions args
  let border := (Text.toUtf8 ((List.lookup 'd' options).getD ['\t'])).headD 9
  let pick (ranges : List (Nat × Nat)) {α : Type} (xs : List α) : List α :=
    xs.zipIdx.filterMap fun (x, i) => if ranges.any fun r => r.1 ≤ i + 1 && i + 1 ≤ r.2 then some x else none
  let ranges (o : Char) : Option (List (Nat × Nat)) := (List.lookup o options).bind rangesOf?
  let each (f : Bytes → Bytes) : Report :=
    filterLines s "cut" files fun ls => ls.map fun l => f (trimEnd l) ++ [10]
  match (ranges 'c').or (ranges 'b'), ranges 'f' with
  | some rs, _ => each (pick rs)
  | none, some rs => each fun l =>
    if l.contains border then ((pick rs (l.splitOn border)).intersperse [border]).flatten else l
  | none, none => .fail 1 "cut: you must specify a list of bytes, characters, or fields"

/-- The value of an operator between two words, as in `expr 1 + 2`. -/
def expression? (a op b : Text) : Except Text Text :=
  let number (t : Text) : Except Text Int := match int64? t with
    | some n => .ok n
    | none => .error "non-integer argument"
  let whole (f : Int → Int → Int) : Except Text Text := do return intText (f (← number a) (← number b))
  let divided (f : Int → Int → Int) : Except Text Text := do
    let (x, y) := (← number a, ← number b)
    if y = 0 then .error "division by zero" else .ok (intText (f x y))
  let order : Ordering := match number a, number b with
    | .ok x, .ok y => compare x y
    | _, _ => if a = b then .eq else if Text.le a b then .lt else .gt
  let truth (b : Bool) : Except Text Text := .ok (if b then "1" else "0")
  if op = "+" then whole (· + ·)
  else if op = "-" then whole (· - ·)
  else if op = "*" then whole (· * ·)
  else if op = "/" then divided Int.tdiv
  else if op = "%" then divided Int.tmod
  else if op = "=" ∨ op = "==" then truth order.isEq
  else if op = "!=" then truth !order.isEq
  else if op = "<" then truth order.isLT
  else if op = "<=" then truth order.isLE
  else if op = ">" then truth order.isGT
  else if op = ">=" then truth order.isGE
  else if op = "|" then .ok (if a.isEmpty ∨ a = "0" then b else a)
  else if op = "&" then .ok (if a.isEmpty ∨ a = "0" ∨ b.isEmpty ∨ b = "0" then "0" else a)
  else .error ("syntax error: unexpected argument '" ++ op ++ "'")

/-- Operators from left to right, those of products before the others. -/
def expr (args : List Text) : Report :=
  let fail (reason : Text) : Report := .fail 2 ("expr: " ++ reason)
  match reduce args.length args with
  | .error reason => fail reason
  | .ok [] => fail "missing operand"
  | .ok [value] =>
    { out := Text.toUtf8 (value ++ "\n"), status := if value.isEmpty ∨ value = "0" then 1 else 0 }
  | .ok words => fail ("syntax error: missing argument after '" ++ words.getLastD [] ++ "'")
where
  isProduct (op : Text) : Bool := op ∈ (["*", "/", "%"] : List Text)
  reduce : Nat → List Text → Except Text (List Text)
    | fuel + 1, a :: op :: b :: op' :: c :: rest =>
      if isProduct op' && !isProduct op then do
        let value ← expression? b op' c
        reduce fuel (a :: op :: value :: rest)
      else do
        let value ← expression? a op b
        reduce fuel (value :: op' :: c :: rest)
    | _, [a, op, b] => do return [← expression? a op b]
    | _, [['l', 'e', 'n', 'g', 't', 'h'], a] => .ok [natText a.length]
    | _, words => .ok words

def grep (s : Surroundings) (args : List Text) : Report :=
  let options := (args.takeWhile fun a => a.head? == some '-').flatten
  match args.dropWhile fun a => a.head? == some '-' with
  | [] => .fail 2 "usage: grep [OPTION]... PATTERNS [FILE]..."
  | pattern :: files =>
    let r := inputOf s "grep" files
    let fits (l : Bytes) : Bool :=
      Text.contains pattern (Text.ofUtf8Lossy l) != options.contains 'v'
    let found := ((byteLines r.out).map trimEnd).filter fits
    let out : Bytes :=
      if options.contains 'q' then []
      else if options.contains 'c' then Text.toUtf8 (natText found.length ++ "\n")
      else (found.map fun l => l ++ [10]).flatten
    { r with out, status := if r.status != 0 then 2 else if found.isEmpty then 1 else 0 }

/-- The names in a directory. -/
def entriesIn (tree : FileTree) (directory : FilePath) : List Text :=
  (tree.below directory).filterMap fun e => match e.1 with | [name] => some name | _ => none

/-- The names in a directory in code point order, without those that start with a point. -/
def namesIn (tree : FileTree) (directory : FilePath) : List Text :=
  ((entriesIn tree directory).filter fun n => n.head? != some '.').mergeSort Text.le

def ls (s : Surroundings) (args : List Text) : Report :=
  let files := args.filter fun a => a.head? != some '-'
  (if files.isEmpty then [['.']] else files).foldl (fun r f =>
    match s.tree.locateText s.place f with
    | .error x =>
      { r with err := r.err ++ "ls: cannot access '" ++ f ++ "': " ++ faultText x ++ "\n", status := 2 }
    | .ok p =>
      let names := if s.tree.get? p = some .directory then namesIn s.tree p else [f]
      { r with out := r.out ++ Text.toUtf8 (names.flatMap fun n => n ++ "\n") }) {}

/-- Changes the tree by each of the files. -/
def changeFiles (s : Surroundings) (files : List Text) (f : FileTree → Text → Except Text FileTree) : Report :=
  let (tree, err) := files.foldl (fun (tree, err) file =>
    match f tree file with
    | .ok tree => (tree, err)
    | .error e => (tree, err ++ e ++ "\n")) (s.tree, ([] : Text))
  { tree? := some tree, err, status := if err.isEmpty then 0 else 1 }

/-- The directory that a path stands in, and its last name. -/
def splitPath (t : Text) : Text × Text :=
  match Text.splitLast? '/' t with
  | some (directory, name) => (if directory.isEmpty then "/" else directory, name)
  | none => (".", t)

/-- Where a file is or would be. -/
def filePlace (s : Surroundings) (tree : FileTree) (t : Text) : Except FileFault FilePath := do
  let (directory, name) := splitPath t
  tree.step (← tree.locateText s.place directory) name

def mkdir (s : Surroundings) (args : List Text) : Report :=
  let parents := args.contains "-p"
  changeFiles s (args.filter fun a => a.head? != some '-') fun tree f =>
    if parents then
      match tree.makeDirectories (if isAbsolutePath f then [] else s.place) (pathNames f) with
      | (tree, .ok _) => .ok tree
      | (_, .error x) => .error ("mkdir: cannot create directory '" ++ f ++ "': " ++ faultText x)
    else
      match filePlace s tree f with
      | .error x => .error ("mkdir: cannot create directory '" ++ f ++ "': " ++ faultText x)
      | .ok p =>
        if (tree.get? p).isSome then .error ("mkdir: cannot create directory '" ++ f ++ "': File exists")
        else .ok (tree.put p .directory)

def touch (s : Surroundings) (args : List Text) : Report :=
  changeFiles s args fun tree f =>
    match filePlace s tree f with
    | .error x => .error ("touch: cannot touch '" ++ f ++ "': " ++ faultText x)
    | .ok p => .ok (if (tree.get? p).isSome then tree else tree.put p (.file (.text [])))

def rm (s : Surroundings) (args : List Text) : Report :=
  let options := (args.filter fun a => a.head? == some '-').flatten
  changeFiles s (args.filter fun a => a.head? != some '-') fun tree f =>
    match (s.tree.locateText s.place f) with
    | .error x =>
      if options.contains 'f' then .ok tree else .error ("rm: cannot remove '" ++ f ++ "': " ++ faultText x)
    | .ok p =>
      if tree.get? p = some .directory && !options.contains 'r' then
        .error ("rm: cannot remove '" ++ f ++ "': Is a directory")
      else .ok (tree.filter fun e => !p.isPrefixOf e.1)

/-! ### Tests -/

def testUnary (s : Surroundings) (op arg : Text) : Option Bool :=
  let entry := (s.tree.locateText s.place arg).toOption.bind s.tree.get?
  if op = "-n" then some !arg.isEmpty
  else if op = "-z" then some arg.isEmpty
  else if op = "-e" then some entry.isSome
  else if op = "-d" then some (entry == some .directory)
  else if op = "-f" then some (match entry with | some (.file _) => true | _ => false)
  else if op = "-s" then some (match entry with | some (.file c) => !c.toBytes.isEmpty | _ => false)
  else if op ∈ (["-r", "-w"] : List Text) then some entry.isSome
  else none

/-- Operators that compare numbers. -/
def numberTests : List Text :=
  ["-eq", "-ne", "-lt", "-le", "-gt", "-ge"]

def testBinary (a op b : Text) : Option Bool :=
  let numbers (f : Int → Int → Bool) : Option Bool := do
    return f (← int64? a.trim) (← int64? b.trim)
  if op = "=" ∨ op = "==" then some (a == b)
  else if op = "!=" then some (a != b)
  else if op = "-eq" then numbers fun x y => x == y
  else if op = "-ne" then numbers fun x y => x != y
  else if op = "-lt" then numbers fun x y => x < y
  else if op = "-le" then numbers fun x y => x ≤ y
  else if op = "-gt" then numbers fun x y => x > y
  else if op = "-ge" then numbers fun x y => x ≥ y
  else none

/-- What a test finds, nothing if it is malformed. -/
def testWords (s : Surroundings) : List Text → Option Bool
  | [] => some false
  | [a] => some !a.isEmpty
  | [['!'], a] => some a.isEmpty
  | [op, a] => testUnary s op a
  | ['!'] :: rest => (testWords s rest).map not
  | [a, op, b] => testBinary a op b
  | a :: op :: b :: ['-', 'a'] :: rest => do return (← testBinary a op b) && (← testWords s rest)
  | a :: op :: b :: ['-', 'o'] :: rest => do return (← testBinary a op b) || (← testWords s rest)
  | _ => none

def test (s : Surroundings) (name : Text) (args : List Text) : Report :=
  match testWords s args with
  | some true => {}
  | some false => { status := 1 }
  | none =>
    let report (posix bash : Text) : Report :=
      .fail 2 (s.label ++ name ++ ": " ++ (if s.dialect = .bash then bash else posix))
    match args with
    | [op, a] =>
      if op ∉ numberTests && a ∈ numberTests then
        report (a ++ ": argument expected") (op ++ ": unary operator expected")
      else report (op ++ ": unexpected operator") (op ++ ": unary operator expected")
    | [a, op, b] =>
      if op ∈ numberTests then
        let bad := if (int64? a).isSome then b else a
        report ("Illegal number: " ++ bad) (bad ++ ": integer expression expected")
      else report (a ++ ": unexpected operator") (op ++ ": binary operator expected")
    | a :: op :: b :: _ =>
      report ((if (testBinary a op b).isSome then b else a) ++ ": unexpected operator") "too many arguments"
    | _ => report "unexpected operator" "too many arguments"

/-! ### All utilities -/

/-- The utility with a name. -/
def utility? (name : Text) : Option (Surroundings → List Text → Report) :=
  List.lookup (String.ofList name)
    [("echo", echo),
     ("printf", printf),
     ("true", fun _ _ => {}),
     (":", fun _ _ => {}),
     ("false", fun _ _ => { status := 1 }),
     ("cat", fun s args => inputOf s "cat" args),
     ("seq", fun _ args => seq args),
     ("head", head),
     ("tail", tail),
     ("rev", fun s args => filterLines s "rev" args fun ls => ls.map fun l =>
       Text.toUtf8 (Text.ofUtf8Lossy (trimEnd l)).reverse ++ [10]),
     ("uniq", fun s args => filterLines s "uniq" args fun ls =>
       (ls.map trimEnd).eraseReps.map fun l => l ++ [10]),
     ("sort", sort),
     ("wc", wc),
     ("tr", tr),
     ("grep", grep),
     ("cut", cut),
     ("expr", fun _ args => expr args),
     ("ls", ls),
     ("mkdir", mkdir),
     ("touch", touch),
     ("rm", rm),
     ("pwd", fun s _ => .text ('/' :: Text.join "/" s.place ++ "\n")),
     ("whoami", fun _ _ => .text "root\n"),
     ("basename", fun _ args => .text ((splitPath (args.headD [])).2 ++ "\n")),
     ("dirname", fun _ args => .text ((splitPath (args.headD [])).1 ++ "\n")),
     ("test", fun s args => test s "test" args),
     ("[", fun s args =>
       if args.getLast? = some [']'] then test s "[" args.dropLast else .fail 2 (s.label ++ "[: missing ]"))]

end DirectiveEngine.Shell
