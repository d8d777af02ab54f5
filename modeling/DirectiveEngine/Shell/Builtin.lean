import DirectiveEngine.Shell.Process

/-!
# Builtin commands

The commands that act on the shell itself, the search for a utility by its name, and redirections.
-/

namespace DirectiveEngine.Shell

/-! ### Builtins -/

def signalNumber? (t : Text) : Option Nat :=
  let name := (Text.stripPrefix? "SIG" t).getD t
  (digits? t).or (List.lookup (String.ofList name)
    [("HUP", 1), ("INT", 2), ("QUIT", 3), ("ABRT", 6), ("KILL", 9), ("USR1", 10), ("SEGV", 11), ("USR2", 12),
     ("PIPE", 13), ("ALRM", 14), ("TERM", 15), ("CHLD", 17), ("CONT", 18), ("STOP", 19), ("WINCH", 28)])

/-- A signal to the shell: it may be trapped, some are passed over, one stops it for good, and the others end
it. -/
def signal (n : Nat) : Action Unit := do
  if n = 0 then pure ()
  else if n = 9 then throw .killed
  else if n = 19 then throw .timedOut
  else
    match List.lookup n (← get).traps with
    | some source => modify fun p => { p with pending := p.pending ++ [source] }
    | none => if n ∉ [17, 18, 23, 28] then throw .killed

/-- Takes an action and the signals it is for; a dash takes the action away. -/
def trap (args : List Text) : Action Unit :=
  modify fun p =>
    let source := args.headD []
    let numbers := args.tail.filterMap fun (t : Text) => if t = "EXIT" then some 0 else signalNumber? t
    let kept := p.traps.filter fun e => e.1 ∉ numbers
    { p with traps := if source = "-" then kept else kept ++ numbers.map fun n => (n, source), status := 0 }

def kill (args : List Text) : Action Unit := do
  let (sig, targets) := match args with
    | ['-', 's'] :: name :: targets => (signalNumber? name, targets)
    | ('-' :: name) :: targets => (signalNumber? name, targets)
    | targets => (some 15, targets)
  modify fun p => { p with status := 0 }
  if targets.contains processId then signal (sig.getD 15)

/-- The milliseconds of a time to sleep. -/
def sleepTime (t : Text) : Nat :=
  let unit := match t.getLast? with
    | some 'm' => 60000
    | some 'h' => 3600000
    | some 'd' => 86400000
    | _ => 1000
  let t := t.takeWhile fun c => isDigit c || c == '.'
  let whole := t.takeWhile isDigit
  let fraction := (t.drop (whole.length + 1)).takeWhile isDigit
  (digitsValue (whole ++ fraction) * unit) / Nat.pow 10 fraction.length

def statusArgument (name : Text) (args : List Text) : Action Nat := do
  let p ← get
  match args with
  | [] => return p.status
  | a :: _ =>
    match (int64? a).filter fun n => p.dialect = .bash ∨ n ≤ 0x7FFFFFFF with
    | some n =>
      if n < 0 ∧ p.dialect = .posix then
        complain (name ++ ": Illegal number: " ++ a)
        throw (.exit 2)
      return (n % 256).toNat
    | none =>
      complain (name ++ ": " ++ p.wording ("Illegal number: " ++ a) (a ++ ": numeric argument required"))
      throw (.exit 2)

/-- Takes `name=value` or `name`. -/
def exportVariable (t : Text) : Action Unit :=
  match Text.splitFirst? "=" t with
  | some (name, value) => modify fun p => { p with bindings := p.bindings.insert name value }
  | none => pure ()

/-- The next line of the input. -/
def readLine (names : List Text) : Action Unit := do
  let p ← get
  let line := p.input.takeWhile (· != 10)
  let complete := line.length < p.input.length
  let words := ((Text.ofUtf8Lossy line).splitOnP isFieldBlank).filter fun w => !w.isEmpty
  let names := if names.isEmpty then [("REPLY" : Text)] else names
  let values : List (Text × Text) := names.zipIdx.map fun (name, i) =>
    (name, if i + 1 = names.length then Text.join " " (words.drop i) else (words[i]?).getD [])
  set { p with
    input := p.input.drop (line.length + 1)
    bindings := values.foldl (fun (d : Dictionary Text) (e : Text × Text) => d.insert e.1 e.2) p.bindings
    status := if complete then 0 else 1 }

def changeDirectory (args : List Text) : Action Unit := do
  let p ← get
  let t := (args.head?.or (p.bindings.get? "HOME")).getD "/"
  let fail (x : FileFault) : Action Unit := do
    complain ("cd: " ++ p.wording ("can't cd to " ++ t) (t ++ ": " ++ faultText x))
    modify fun p => { p with status := if p.dialect = .bash then 1 else 2 }
  match p.tree.locateText p.place t with
  | .ok place =>
    if p.tree.get? place = some .directory then set { p with place, status := 0 } else fail .notADirectory
  | .error x => fail x

/-- Turns an option on or off. -/
def setOption (on : Bool) (p : Process) (option : Char) : Process :=
  if option = 'e' then { p with strict := on }
  else if option = 'u' then { p with nounset := on }
  else p

/-- Turns options on or off, or sets the arguments. -/
def setOptions (args : List Text) : Action Unit := do
  modify fun p => { p with status := 0 }
  match args with
  | [] => pure ()
  | ['-', '-'] :: args => modify fun p => { p with args }
  | (sign :: options) :: rest =>
    if sign ≠ '-' ∧ sign ≠ '+' then modify fun p => { p with args }
    else
      let on := sign == '-'
      modify fun p => options.foldl (setOption on) p
      if let (true, name :: _) := (options.contains 'o', rest) then
        if (← get).dialect = .bash then
          if name = "pipefail" then modify fun p => { p with pipefail := on }
        else if name = "pipefail" then
          complain ("set: Illegal option " ++ [sign] ++ "o pipefail")
          throw (.exit 2)
  | args => modify fun p => { p with args }

/-- Makes variables local to the function that is run, with values if they are given. -/
def makeLocal (args : List Text) : Action Unit := do
  match (← get).shadowed with
  | none =>
    let p ← get
    complain ("local: " ++ p.wording "not in a function" "can only be used in a function")
    if p.dialect = .posix then throw (.exit 2)
    modify fun p => { p with status := 1 }
  | some _ =>
    for t in args do
      let (name, value?) := match Text.splitFirst? "=" t with
        | some (name, value) => (name, some value)
        | none => (t, none)
      modify fun p => { p with
        shadowed := p.shadowed.map fun old => old ++ [(name, p.bindings.get? name)]
        bindings := value?.elim p.bindings (p.bindings.insert name) }
    modify fun p => { p with status := 0 }

/-- Writes a line again and again, until nobody reads it any more. -/
def repeatLine (args : List Text) : Action Unit := do
  let p ← get
  match List.lookup 1 p.descriptors with
  | some (.buffer 0) => throw .timedOut
  | _ =>
    let word : Text := if args.isEmpty then "y" else Text.join " " args
    let line := Text.toUtf8 (word ++ "\n")
    emit 1 ((List.replicate (0x100000 / line.length) line).flatten)
    set { (← get) with status := 0 }

/-- Commands that the shell runs without a program. -/
def shellWords : List Text :=
  ["echo", "printf", "true", "false", ":", "test", "[", "pwd", "eval", "exec", "command"]

/-- The commands that act on the shell itself. -/
def builtin? (name : Text) : Option (List Text → Action Unit) :=
  let level (args : List Text) : Nat := ((args.head?.bind digits?).getD 1) - 1
  List.lookup (String.ofList name)
    [("exit", fun args => do throw (.exit (← statusArgument "exit" args))),
     ("return", fun args => do throw (.return (← statusArgument "return" args))),
     ("break", fun args => throw (.break (level args))),
     ("continue", fun args => throw (.continue (level args))),
     ("kill", kill),
     ("trap", trap),
     ("sleep", fun args => do
       pass (args.foldl (fun n a => n + sleepTime a) 0)
       modify fun p => { p with status := 0 }),
     ("cd", changeDirectory),
     ("export", fun args => do
       args.forM exportVariable
       modify fun p => { p with status := 0 }),
     ("unset", fun args => modify fun p =>
       { p with bindings := args.foldl (fun d name => d.erase name) p.bindings, status := 0 }),
     ("set", setOptions),
     ("local", makeLocal),
     ("yes", repeatLine),
     ("shift", fun args => modify fun p => { p with args := p.args.drop (level args + 1), status := 0 }),
     ("read", fun args => readLine (args.filter fun a => a.head? != some '-')),
     ("wait", fun _ => modify fun p => { p with elapsed := max p.elapsed p.backgroundEnd, status := 0 })]

/-- Runs a utility. -/
def runUtility (f : Surroundings → List Text → Report) (args : List Text) : Action Unit := do
  let p ← get
  let r := f p.surroundings args
  modify fun p => { p with tree := r.tree?.getD p.tree, status := r.status }
  emit 1 r.out
  emit 2 (Text.toUtf8 r.err)

/-- The utility that a word names, by itself or by its path. -/
def program? (w : Text) : Option (Surroundings → List Text → Report) :=
  ((Text.stripPrefix? "/bin/" w).or (Text.stripPrefix? "/usr/bin/" w)).elim (utility? w) utility?

/-- The dialect of a shell by its name, if there is such a shell. -/
def dialect? (shell : Text) : Option Dialect :=
  let name := ((Text.stripPrefix? "/bin/" shell).or (Text.stripPrefix? "/usr/bin/" shell)).getD shell
  if name = "sh" ∨ name = "dash" then some .posix else if name = "bash" then some .bash else none

/-- A test in double brackets, where a text is compared with a pattern.  The words are patterns. -/
def matchTest (s : Surroundings) (args : List Text) : Bool :=
  match args.dropLast with
  | [['!'], a, op, b] => !compare a op b
  | [a, op, b] => compare a op b
  | words => (testWords s (words.map unquotePattern)).getD false
where
  compare (a op b : Text) : Bool :=
    let a := unquotePattern a
    if op = "=" ∨ op = "==" then fits b a else if op = "!=" then !fits b a
    else (testBinary a (unquotePattern op) (unquotePattern b)).getD false

/-- Reports a word that names no command. -/
def notFound (w : Text) : Action Unit := do
  let p ← get
  let entry := (p.tree.locateText p.place w).toOption.bind p.tree.get?
  let (reason, status) : Text × Nat :=
    match p.dialect, decide ('/' ∈ w), entry with
    | .posix, true, some _ => ("Permission denied", 126)
    | .bash, true, some .directory => ("Is a directory", 126)
    | .bash, true, some _ => ("Permission denied", 126)
    | .bash, true, none => ("No such file or directory", 127)
    | .bash, false, _ => ("command not found", 127)
    | .posix, _, _ => ("not found", 127)
  complain (w ++ ": " ++ reason)
  modify fun p => { p with status }

/-! ### Redirections -/

/-- Where a descriptor leads. -/
def Process.target? (p : Process) (descriptor : Nat) : Option Target :=
  List.lookup descriptor p.descriptors

/-- Where the outputs lead that have a path. -/
def Process.deviceTarget? (p : Process) (path : Text) : Option Target :=
  if path = "/dev/stdout" then p.target? 1 else if path = "/dev/stderr" then p.target? 2 else none

/-- Opens what a redirection names. -/
def redirect (r : Redirection) (target : Text) : Action Bool := do
  let p ← get
  let fault (verb reason : Text) : Action Bool := do
    complain (p.wording ("cannot " ++ verb ++ " ") "" ++ target ++ ": " ++ reason)
    modify fun p => { p with status := if p.dialect = .bash then 1 else 2 }
    return false
  match r.direction with
  | .duplicate =>
    let goal := if target = "-" then some .closed else (digits? target).bind p.target?
    match goal with
    | some goal =>
      set { p with descriptors := (r.descriptor, goal) :: p.descriptors }
      return true
    | none =>
      complain (target ++ ": Bad file descriptor")
      modify fun p => { p with status := if p.dialect = .bash then 1 else 2 }
      return false
  | .here =>
    if p.dialect = .posix then
      complain "Syntax error: redirection unexpected"
      throw (.exit 2)
    set { p with input := Text.toUtf8 (target ++ "\n") }
    return true
  | .input =>
    if let some input := endless? target then
      set { p with input }
      return true
    match p.tree.locateText p.place target with
    | .error _ => fault "open" (p.wording "No such file" "No such file or directory")
    | .ok path =>
      match p.tree.get? path with
      | some (.file c) =>
        set { p with input := c.toBytes }
        return true
      | _ =>
        set { p with input := [] }
        return true
  | d =>
    if let some goal := p.deviceTarget? target then
      set { p with descriptors := (r.descriptor, goal) :: p.descriptors }
      return true
    match filePlace p.surroundings p.tree target with
    | .error _ => fault "create" (p.wording "Directory nonexistent" "No such file or directory")
    | .ok path =>
      match p.tree.get? path with
      | some .directory => fault "create" "Is a directory"
      | some (.file .sink) =>
        set { p with descriptors := (r.descriptor, .closed) :: p.descriptors }
        return true
      | entry =>
        let tree := if d = .append && entry.isSome then p.tree else p.tree.put path (.file (.text []))
        set { p with tree, descriptors := (r.descriptor, .file path) :: p.descriptors }
        return true

/-- Puts the descriptors and the input back. -/
def closing (a : Action Unit) : Action Unit := do
  let p ← get
  let (r, q) := (a.run).run p
  set { q with
    descriptors := p.descriptors
    input := if q.input.length < p.input.length then q.input else p.input }
  match r with
  | .ok () => pure ()
  | .error stop => throw stop

end DirectiveEngine.Shell
