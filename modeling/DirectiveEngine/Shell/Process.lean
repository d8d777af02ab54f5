import DirectiveEngine.Dictionary
import DirectiveEngine.Shell.Basic
import DirectiveEngine.Shell.Utility

/-!
# The state of a shell

A shell at work: its variables, its files, where its outputs lead, and a clock that only sleeping moves.  What
is written is collected in buffers, one for each end of a pipe, the first for the standard output and the second
for the standard error.  An action may end early, and then says why.
-/

namespace DirectiveEngine.Shell

/-- Where a descriptor leads. -/
inductive Target where
  | buffer (n : Nat)
  | file (path : FilePath)
  | closed
  deriving DecidableEq

/-- Why the commands after one are not run. -/
inductive Stop where
  | exit (status : Nat)
  | killed
  | timedOut
  | break (levels : Nat)
  | continue (levels : Nat)
  | return (status : Nat)
  deriving DecidableEq

structure Process where
  dialect : Dialect
  /-- The name that the shell was called by. -/
  name : Text
  tree : FileTree
  place : FilePath
  /-- How long all may take, in milliseconds. -/
  limit : Nat
  bindings : Dictionary Text := []
  args : List Text := []
  functions : List (Text × Command) := []
  status : Nat := 0
  input : Bytes := []
  descriptors : List (Nat × Target) := [(1, .buffer 0), (2, .buffer 1)]
  /-- What was written, the newest byte first. -/
  buffers : List Bytes := [[], []]
  elapsed : Nat := 0
  inBackground : Bool := false
  /-- When the last command in the background ends. -/
  backgroundEnd : Nat := 0
  /-- Until when some command may write to the outputs of the shell. -/
  heldUntil : Nat := 0
  /-- What is run at the end, under the number 0, and when a signal arrives. -/
  traps : List (Nat × Text) := []
  /-- What the signals that have arrived still ask for. -/
  pending : List Text := []
  /-- Whether a command that fails ends the shell, unless its status is tested. -/
  strict : Bool := false
  tested : Bool := false
  /-- Whether a variable without a value is a fault. -/
  nounset : Bool := false
  /-- Whether a pipe fails with any of its commands. -/
  pipefail : Bool := false
  /-- Inside a function, what its local variables were before. -/
  shadowed : Option (List (Text × Option Text)) := none

abbrev Action (α : Type) := ExceptT Stop (StateM Process) α

namespace Process

/-- What stands in front of what the shell reports. -/
def label (p : Process) : Text :=
  p.name ++ (if p.dialect = .bash then ": line 1: " else ": 1: ")

/-- What a utility sees that is run now. -/
def surroundings (p : Process) : Surroundings :=
  { dialect := p.dialect, label := p.label, input := p.input, tree := p.tree, place := p.place }

/-- The wording of one dialect or the other. -/
def wording (p : Process) (posix bash : Text) : Text :=
  if p.dialect = .bash then bash else posix

end Process

/-! ### Output and time -/

def appendFile (tree : FileTree) (path : FilePath) (bs : Bytes) : FileTree :=
  match tree.get? path with
  | some (.file .sink) => tree
  | some (.file c) => tree.put path (.file (.ofBytes (c.toBytes ++ bs)))
  | _ => tree

def emit (descriptor : Nat) (bs : Bytes) : Action Unit :=
  modify fun p =>
    match List.lookup descriptor p.descriptors with
    | some (.buffer n) => { p with buffers := p.buffers.modify n bs.reverseAux }
    | some (.file path) => { p with tree := appendFile p.tree path bs }
    | _ => p

/-- Reports a fault of the shell itself. -/
def complain (t : Text) : Action Unit := do
  emit 2 (Text.toUtf8 ((← get).label ++ t ++ "\n"))

/-- Whether an output of the shell itself, or of a part of it, is open. -/
def Process.holdsOutput (p : Process) : Bool :=
  [1, 2].any fun n => match List.lookup n p.descriptors with | some (.buffer _) => true | _ => false

def pass (ms : Nat) : Action Unit := do
  let p ← get
  let later := p.elapsed + ms
  if p.limit < later && (p.holdsOutput || !p.inBackground) then throw .timedOut
  set { p with elapsed := later, heldUntil := if p.holdsOutput then max p.heldUntil later else p.heldUntil }

/-- Runs an action in a copy of the shell: what it writes and how long it takes remains, and its files do.  An
exit ends the copy alone. -/
def inSubshell (a : Action Unit) : Action Unit := do
  let p ← get
  let (r, q) := (a.run).run p
  set { p with
    tree := q.tree
    buffers := q.buffers
    elapsed := q.elapsed
    backgroundEnd := q.backgroundEnd
    heldUntil := q.heldUntil
    status := q.status }
  match r with
  | .error .killed => throw .killed
  | .error .timedOut => throw .timedOut
  | .error (.exit n) => modify fun p => { p with status := n }
  | .error (.return n) => modify fun p => { p with status := n }
  | _ => pure ()

/-- What an action in a copy of the shell writes to its standard output. -/
def capture (a : Action Unit) : Action Bytes := do
  let p ← get
  let n := p.buffers.length
  set { p with buffers := p.buffers ++ [[]], descriptors := (1, .buffer n) :: p.descriptors }
  inSubshell a
  modify fun q => { q with descriptors := p.descriptors }
  return (((← get).buffers[n]?).getD []).reverse

/-! ### Parameters -/

/-- A number that stands for the process in `kill`. -/
def processId : Text := "2"

def Process.parameter? (p : Process) (name : Text) : Option Text :=
  if name = "?" then some (natText p.status)
  else if name = "$" then some processId
  else if name = "#" then some (natText p.args.length)
  else if name = "@" ∨ name = "*" then some (Text.join " " p.args)
  else if name = "0" then some p.name
  else if name = "-" ∨ name = "!" then some []
  else
    match digits? name with
    | some n => p.args[n - 1]?
    | none => p.bindings.get? name

/-! ### Patterns -/

/-- A pattern that fits the given text alone. -/
def quotePattern (t : Text) : Text :=
  t.flatMap fun c => if c ∈ ['*', '?', '[', '\\'] then ['\\', c] else [c]

/-- What a pattern says when its characters have no meaning. -/
def unquotePattern : Text → Text
  | '\\' :: c :: p => c :: unquotePattern p
  | c :: p => c :: unquotePattern p
  | [] => []

/-- Whether some character of a text has a meaning in a pattern. -/
def isPattern : Text → Bool
  | '\\' :: _ :: p => isPattern p
  | c :: p => c ∈ ['*', '?', '['] || isPattern p
  | [] => false

/-- Whether a pattern with stars, question marks and sets in brackets matches a text. -/
def fitsPattern : Nat → Text → Text → Bool
  | 0, _, _ => false
  | _, [], t => t.isEmpty
  | fuel + 1, '*' :: p, t =>
    fitsPattern fuel p t || (match t with | [] => false | _ :: t => fitsPattern fuel ('*' :: p) t)
  | fuel + 1, '?' :: p, t => match t with | [] => false | _ :: t => fitsPattern fuel p t
  | fuel + 1, '\\' :: c :: p, t => match t with | [] => false | d :: t => c == d && fitsPattern fuel p t
  | fuel + 1, '[' :: p, t =>
    match t, Text.splitFirst? "]" p with
    | [], _ => false
    | d :: t, some (set, p) =>
      let (negated, set) := match set with | '!' :: s => (true, s) | s => (false, s)
      (decide (d ∈ charSet (set.length + 1) set) != negated) && fitsPattern fuel p t
    | d :: t, none => d == '[' && fitsPattern fuel p t
  | fuel + 1, c :: p, t => match t with | [] => false | d :: t => c == d && fitsPattern fuel p t

def fits (pattern t : Text) : Bool :=
  fitsPattern (pattern.length + t.length + 1) pattern t

/-- A text without what a pattern matches at one of its ends. -/
def removeFitting (atEnd longest : Bool) (pattern t : Text) : Text :=
  let sizes := List.range (t.length + 1)
  let sizes := if longest then sizes.reverse else sizes
  let found := sizes.find? fun n => fits pattern (if atEnd then t.drop (t.length - n) else t.take n)
  match found with
  | none => t
  | some n => if atEnd then t.take (t.length - n) else t.drop n

/-! ### Fields -/

/-- A part of an expanded word: text in quotes, written text, the value of an expansion, which is cut at blanks,
or the border of a field.  In the latter texts stars and the like make a pattern. -/
inductive Segment where
  | kept (t : Text)
  | written (t : Text)
  | splitting (t : Text)
  | border

def isFieldBlank (c : Char) : Bool :=
  c == ' ' || c == '\t' || c == '\n'

/-- Adds to the field that is being built. -/
def extend (field : Option Text) (t : Text) : Option Text :=
  some (field.getD [] ++ t)

/-- Cuts a text at its blanks: the complete fields and the one that is being built. -/
def cutBlanks : Option Text → Text → List Text × Option Text
  | field, [] => ([], field)
  | field, c :: t =>
    if isFieldBlank c then
      let r := cutBlanks none t
      (field.toList ++ r.1, r.2)
    else cutBlanks (extend field [c]) t

/-- The backslashes of a text, made to stand for themselves in a pattern. -/
def quoteBackslashes (t : Text) : Text :=
  t.flatMap fun c => if c = '\\' then ['\\', '\\'] else [c]

/-- The fields of a word, as patterns. -/
def fieldsOf : Option Text → List Segment → List Text
  | field, [] => field.toList
  | field, .kept t :: ss => fieldsOf (extend field (quotePattern t)) ss
  | field, .written t :: ss => fieldsOf (extend field (quoteBackslashes t)) ss
  | field, .border :: ss => field.toList ++ fieldsOf none ss
  | field, .splitting t :: ss =>
    let r := cutBlanks field (quoteBackslashes t)
    r.1 ++ fieldsOf r.2 ss

/-- A word as one pattern. -/
def patternOf (ss : List Segment) : Text :=
  ss.flatMap fun s => match s with
    | .kept t => quotePattern t
    | .written t => quoteBackslashes t
    | .splitting t => t
    | .border => [' ']

def joinSegments (ss : List Segment) : Text :=
  ss.flatMap fun s => match s with
    | .kept t => t
    | .written t => t
    | .splitting t => t
    | .border => [' ']

/-- The paths that fit a pattern, which is given name by name, behind the path `written` so far. -/
def pathsFitting (tree : FileTree) : FilePath → Text → List Text → List Text
  | _, written, [] => [written]
  | place, written, p :: ps =>
    let further (name : Text) : List Text :=
      match tree.locate place [name] with
      | .error _ => []
      | .ok next =>
        if ps.isEmpty then [written ++ name] else pathsFitting tree next (written ++ name ++ "/") ps
    if isPattern p then
      (entriesIn tree place).flatMap fun name =>
        if fits p name && (name.head? != some '.' || p.head? == some '.') then further name else []
    else further (unquotePattern p)

/-- The paths that fit a pattern in order, or if there is none the pattern itself. -/
def expandPaths (tree : FileTree) (place : FilePath) (field : Text) : List Text :=
  let found :=
    if isPattern field then pathsFitting tree (if isAbsolutePath field then [] else place) [] (pathNames field)
    else []
  if found.isEmpty then [unquotePattern field] else found.mergeSort Text.le

/-- A command's output without the line breaks at its end. -/
def outputText (bs : Bytes) : Text :=
  ((Text.ofUtf8Lossy bs).reverse.dropWhile (· == '\n')).reverse

end DirectiveEngine.Shell
