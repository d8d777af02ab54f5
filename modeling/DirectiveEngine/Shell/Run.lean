import DirectiveEngine.Host.Basic
import DirectiveEngine.Shell.Arithmetic
import DirectiveEngine.Shell.Braces
import DirectiveEngine.Shell.Builtin
import DirectiveEngine.Shell.Parse

/-!
# Running shell commands

An interpreter of command lines.  Words are expanded, redirections opened and commands run from left to right;
fuel bounds the depth of the evaluation.  A command line that takes longer than it may is given up.
-/

namespace DirectiveEngine.Shell

/-! ### Evaluation -/

def reportSyntax (fault : SyntaxFault) : Action Unit := do
  complain fault.message
  throw (.exit 2)

mutual

/-- The segments of a part of a word. -/
def expandPart : Nat → Part → Action (List Segment)
  | 0, _ => throw .timedOut
  | _ + 1, .text quoted t =>
    return [if quoted then .kept t else .written t]
  | fuel + 1, .arithmetic quoted source => do
    let t ← expandText fuel source
    let p ← get
    match evaluateArithmetic (fun name => (p.parameter? name).getD []) t with
    | .ok n => return [if quoted then .kept (intText n) else .splitting (intText n)]
    | .error fault => do
      complain (match fault with
        | .divisionByZero =>
          p.wording ("arithmetic expression: division by zero: \"" ++ t ++ "\"")
            (t ++ ": division by 0 (error token is \"0\")")
        | .malformed => "arithmetic expression: expecting primary: \"" ++ t ++ "\"")
      throw (.exit (if p.dialect = .bash then 1 else 2))
  | fuel + 1, .command quoted source => do
    let t := outputText (← capture (runLines fuel source))
    return [if quoted then .kept t else .splitting t]
  | fuel + 1, .parameter quoted name m => do
    let p ← get
    let value := p.parameter? name
    let segment (t : Text) : List Segment := [if quoted then .kept t else .splitting t]
    match m with
    | .value =>
      if name = "@" ∧ quoted then
        return (p.args.map Segment.kept).intersperse .border
      if p.nounset && value.isNone then
        let shown := p.wording name (if (digits? name).isSome then '$' :: name else name)
        complain (shown ++ ": " ++ p.wording "parameter not set" "unbound variable")
        throw (.exit (if p.dialect = .bash then 127 else 2))
      return segment (value.getD [])
    | .length =>
      let t := value.getD []
      return segment (natText (if p.dialect = .bash then t.length else (Text.toUtf8 t).length))
    | .removal atEnd longest pattern => do
      let pattern ← expandText fuel pattern
      return segment (removeFitting atEnd longest pattern (value.getD []))
    | .fallback action colon source => do
      let missing := value.isNone || (colon && value == some [])
      if action = '+' then
        if missing then return segment [] else return segment (← expandText fuel source)
      else if !missing then return segment (value.getD [])
      else
        let t ← expandText fuel source
        if action = '=' then modify fun p => { p with bindings := p.bindings.insert name t }
        if action = '?' then
          let reason : Text :=
            if !t.isEmpty then t
            else if colon then p.wording "parameter not set or null" "parameter null or not set"
            else "parameter not set"
          complain (name ++ ": " ++ reason)
          throw (.exit (if p.dialect = .bash then 127 else 2))
        return segment t

def expandSegments : Nat → Word → Action (List Segment)
  | 0, _ => throw .timedOut
  | _ + 1, [] => return []
  | fuel + 1, p :: ps => do
    let s ← expandPart fuel p
    return s ++ (← expandSegments fuel ps)

/-- A source text with its expansions, as one text. -/
def expandText : Nat → Text → Action Text
  | 0, _ => throw .timedOut
  | fuel + 1, source => do
    match doubleQuoted (source.length + 2) (source ++ ['"']) with
    | .error _ => return source
    | .ok (w, rest) =>
      let rest := match rest with | [] => [] | r => r.dropLast
      return joinSegments (← expandSegments fuel w) ++ rest

def expandWords : Nat → List Word → Action (List Text)
  | 0, _ => throw .timedOut
  | _ + 1, [] => return []
  | fuel + 1, w :: ws => do
    let alternatives := if (← get).dialect = .bash then expandBraces (w.length + 1) w else [w]
    let mut fields := []
    for w in alternatives do
      fields := fields ++ fieldsOf none (← expandSegments fuel w)
    let p ← get
    return fields.flatMap (expandPaths p.tree p.place) ++ (← expandWords fuel ws)

/-- The patterns that words stand for. -/
def expandPatterns : Nat → List Word → Action (List Text)
  | 0, _ => throw .timedOut
  | _ + 1, [] => return []
  | fuel + 1, w :: ws => do
    let p := patternOf (← expandSegments fuel w)
    return p :: (← expandPatterns fuel ws)

def assignAll : Nat → List (Text × Word) → Action Unit
  | 0, _ => throw .timedOut
  | _ + 1, [] => pure ()
  | fuel + 1, (name, w) :: rest => do
    let t := joinSegments (← expandSegments fuel w)
    modify fun p => { p with bindings := p.bindings.insert name t }
    assignAll fuel rest

/-- Opens the redirections one after the other, and tells whether all were opened. -/
def redirectAll : Nat → List Redirection → Action Bool
  | 0, _ => throw .timedOut
  | _ + 1, [] => return true
  | fuel + 1, r :: rs => do
    let t := joinSegments (← expandSegments fuel r.target)
    if ← redirect r t then redirectAll fuel rs else return false

/-- Runs a command whose words are expanded. -/
def runWords : Nat → List Text → Action Unit
  | 0, _ => throw .timedOut
  | _ + 1, [] => pure ()
  | fuel + 1, w :: args => do
    let p ← get
    match List.lookup w p.functions with
    | some body =>
      let (r, q) := ((run fuel body).run).run { p with args, shadowed := some [] }
      let bindings := (q.shadowed.getD []).foldr (fun (name, value?) d =>
        value?.elim (d.erase name) (d.insert name)) q.bindings
      set { q with args := p.args, shadowed := p.shadowed, bindings }
      match r with
      | .error (.return n) => modify fun p => { p with status := n }
      | .error stop => throw stop
      | .ok () => pure ()
    | none =>
      match builtin? w with
      | some f => f args
      | none =>
        if w = "command" then runCommandWord fuel args
        else if w = "exec" then
          match args with
          | [] => modify fun p => { p with status := 0 }
          | w :: _ =>
            if (program? w).isSome || (dialect? w).isSome || '/' ∈ w then
              runWords fuel args
              throw (.exit (← get).status)
            else
              complain ("exec: " ++ w ++ ": not found")
              throw (.exit 127)
        else if w ∈ (["sh", "bash", "dash", "eval", "/bin/sh", "/bin/bash"] : List Text) then
          match w == ("eval" : Text), args with
          | true, args => runLines fuel (Text.join " " args)
          | false, ['-', 'c'] :: source :: rest =>
            inSubshell do
              modify fun p => { p with
                name := rest.headD w
                args := rest.tail
                status := 0
                dialect := if Text.contains "bash" w then .bash else .posix }
              runLines fuel source
          | false, _ =>
            inSubshell do
              modify fun p => { p with status := 0 }
              runLines fuel (Text.ofUtf8Lossy p.input)
        else
          match program? w with
          | some f => runUtility f args
          | none => notFound w

/-- Runs a command that is no function, or tells where it is. -/
def runCommandWord : Nat → List Text → Action Unit
  | 0, _ => throw .timedOut
  | fuel + 1, args => do
    match args with
    | [] => modify fun p => { p with status := 0 }
    | [['-', 'v'], w] =>
      let p ← get
      let known := (p.functions.map Prod.fst).contains w || (builtin? w).isSome || w ∈ shellWords
      if known then
        emit 1 (Text.toUtf8 (w ++ "\n"))
        modify fun p => { p with status := 0 }
      else if (utility? w).isSome then
        emit 1 (Text.toUtf8 ("/usr/bin/" ++ w ++ "\n"))
        modify fun p => { p with status := 0 }
      else modify fun p => { p with status := if p.dialect = .bash then 1 else 127 }
    | args =>
      let p ← get
      set { p with functions := [] }
      runWords fuel args
      modify fun q => { q with functions := p.functions }

/-- Runs a command whose status is tested. -/
def runTested : Nat → Command → Action Unit
  | 0, _ => throw .timedOut
  | fuel + 1, c => do
    let tested := (← get).tested
    modify fun p => { p with tested := true }
    run fuel c
    modify fun p => { p with tested }

/-- Runs a command and keeps its status. -/
def run : Nat → Command → Action Unit
  | 0, _ => throw .timedOut
  | fuel + 1, c => do
    match c with
    | .nothing => pure ()
    | .simple assignments words rs =>
      let isMatch := words.head? == some [.text false ['['], .text false ['[']] && (← get).dialect == .bash
      let args ← if isMatch then expandPatterns fuel words else expandWords fuel words
      if isMatch then
        modify fun p => { p with status := if matchTest p.surroundings args.tail then 0 else 1 }
      else if args.isEmpty then
        modify fun p => { p with status := 0 }
        assignAll fuel assignments
        closing do let _ ← redirectAll fuel rs
      else if args = [("exec" : Text)] then
        let _ ← redirectAll fuel rs
      else
        let bindings := (← get).bindings
        assignAll fuel assignments
        closing do
          if ← redirectAll fuel rs then
            modify fun p => { p with status := p.status }
            runWords fuel args
        if !assignments.isEmpty then modify fun p => { p with bindings }
      let p ← get
      set { p with pending := [] }
      for source in p.pending do
        runLines fuel source
        modify fun q => { q with status := p.status }
      if p.strict && !p.tested && p.status != 0 then throw (.exit p.status)
    | .pipe l r =>
      let start ← get
      let piped ← capture (run fuel l)
      let between ← get
      set { between with input := piped, elapsed := start.elapsed }
      inSubshell (run fuel r)
      modify fun p => { p with
        input := start.input
        elapsed := max p.elapsed between.elapsed
        status := if p.pipefail && p.status = 0 then between.status else p.status }
    | .not c =>
      runTested fuel c
      modify fun p => { p with status := if p.status = 0 then 1 else 0 }
    | .andThen l r =>
      runTested fuel l
      if (← get).status = 0 then run fuel r
    | .orElse l r =>
      runTested fuel l
      if (← get).status ≠ 0 then run fuel r
    | .seq a b =>
      run fuel a
      run fuel b
    | .background c =>
      let start := (← get).elapsed
      let inBackground := (← get).inBackground
      modify fun p => { p with input := [], inBackground := true }
      inSubshell (run fuel c)
      modify fun p => { p with
        inBackground
        backgroundEnd := max p.backgroundEnd p.elapsed
        elapsed := start
        status := 0 }
    | .subshell c =>
      inSubshell (run fuel c)
      let p ← get
      if p.strict && !p.tested && p.status != 0 then throw (.exit p.status)
    | .redirect c rs =>
      closing do
        if ← redirectAll fuel rs then run fuel c
    | .branch condition yes no =>
      runTested fuel condition
      if (← get).status = 0 then
        modify fun p => { p with status := 0 }
        run fuel yes
      else
        modify fun p => { p with status := 0 }
        run fuel no
    | .loop untilSuccess condition body => runLoop fuel untilSuccess condition body 0
    | .forEach name words body =>
      let items ← expandWords fuel words
      modify fun p => { p with status := 0 }
      runEach fuel name body items
    | .choose subject clauses =>
      let t := joinSegments (← expandSegments fuel subject)
      modify fun p => { p with status := 0 }
      runClauses fuel t clauses
    | .define name body =>
      modify fun p => { p with functions := (name, body) :: p.functions, status := 0 }

/-- Runs the body of a loop, and tells whether the loop goes on. -/
def runBody : Nat → Command → Action Bool
  | 0, _ => throw .timedOut
  | fuel + 1, body => do
    let p ← get
    let (r, q) := ((run fuel body).run).run p
    set q
    match r with
    | .ok () => return true
    | .error (.break 0) => return false
    | .error (.break (n + 1)) => throw (.break n)
    | .error (.continue 0) => return true
    | .error (.continue (n + 1)) => throw (.continue n)
    | .error stop => throw stop

def runLoop : Nat → Bool → Command → Command → Nat → Action Unit
  | 0, _, _, _, _ => throw .timedOut
  | fuel + 1, untilSuccess, condition, body, last => do
    runTested fuel condition
    if ((← get).status = 0) = untilSuccess then modify fun p => { p with status := last }
    else if ← runBody fuel body then runLoop fuel untilSuccess condition body (← get).status

def runEach : Nat → Text → Command → List Text → Action Unit
  | 0, _, _, _ => throw .timedOut
  | _ + 1, _, _, [] => pure ()
  | fuel + 1, name, body, item :: items => do
    modify fun p => { p with bindings := p.bindings.insert name item }
    if ← runBody fuel body then runEach fuel name body items

def runClauses : Nat → Text → List (List Word × Command) → Action Unit
  | 0, _, _ => throw .timedOut
  | _ + 1, _, [] => pure ()
  | fuel + 1, t, (patterns, c) :: rest => do
    let ps ← expandPatterns fuel patterns
    if ps.any fun p => fits p t then run fuel c else runClauses fuel t rest

/-- Reads and runs the lines of a source one after the other. -/
def runLines : Nat → Text → Action Unit
  | 0, _ => throw .timedOut
  | fuel + 1, source =>
    if (skipLines source).isEmpty then pure ()
    else
      match firstLine source with
      | .error fault => reportSyntax fault
      | .ok (c, rest) => do
        run fuel c
        runLines fuel rest

end

/-! ### The shell as a process -/

/-- The largest depth of the evaluation of a source.  A loop that comes to it is taken for endless. -/
def maxDepth (source : Text) : Nat :=
  20000 + source.length

/-- The variables that a shell starts with. -/
def initialVariables (environment : Dictionary Text) (place : FilePath) : Dictionary Text :=
  ((environment.insert "PWD" ('/' :: Text.join "/" place)).insert "PATH" "/usr/local/bin:/usr/bin:/bin")

/-- Runs the lines of a source, and at the end what is to be run then. -/
def runAll (source : Text) : Action Unit := do
  let start ← get
  let (r, p) := ((runLines (maxDepth source) source).run).run start
  set p
  let status? : Option Nat := match r with
    | .ok () => some p.status
    | .error (.exit n) => some n
    | .error (.return n) => some n
    | .error (.break _) => some p.status
    | .error (.continue _) => some p.status
    | .error _ => none
  match status?, List.lookup 0 p.traps with
  | some status, some source =>
    set { p with status }
    runLines (maxDepth source) source
    throw (.exit status)
  | _, _ => match r with | .ok () => pure () | .error stop => throw stop

/-- Runs a command line in a shell, in at most `limit` milliseconds. -/
def execute (shell : Text) (environment : Dictionary Text) (tree : FileTree) (place : FilePath) (limit : Nat)
    (command : Text) : Except HostError ProcessOutput × FileTree :=
  let outcome (start : Process) (a : Action Unit) : Except HostError ProcessOutput × FileTree :=
    let (r, p) := (a.run).run start
    let stdout := Text.ofUtf8Lossy ((p.buffers[0]?).getD []).reverse
    let stderr := Text.ofUtf8Lossy ((p.buffers[1]?).getD []).reverse
    let finish (code : Int) : Except HostError ProcessOutput × FileTree :=
      if limit ≤ max p.elapsed p.heldUntil then (.error (.timeout limit), p.tree)
      else (.ok ⟨code, stdout ++ stderr⟩, p.tree)
    match r with
    | .ok () => finish p.status
    | .error (.exit n) => finish n
    | .error .killed => finish (-1)
    | .error .timedOut => (.error (.timeout limit), p.tree)
    | .error (.return n) => finish n
    | .error _ => finish p.status
  if '\x00' ∈ command ∨ '\x00' ∈ shell then (.error (.spawn .nulByte), tree)
  else
    match dialect? shell, program? shell with
    | some dialect, _ =>
      outcome { dialect, name := shell, tree, place, limit, bindings := initialVariables environment place }
        (runAll command)
    | none, some f =>
      outcome { dialect := .posix, name := shell, tree, place, limit } (runUtility f ["-c", command])
    | none, none =>
      let exists? := decide ('/' ∈ shell) && (tree.locateText place shell).isOk
      (.error (.spawn (if exists? then .permissionDenied else .notFound)), tree)

end DirectiveEngine.Shell
