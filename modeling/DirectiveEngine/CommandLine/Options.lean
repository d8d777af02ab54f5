import DirectiveEngine.Number.Literal

/-!
# Command lines

What the words of a command line ask for.  An option is written `--name value`, `--name=value`, `-n value` or
`-nvalue`, flags of one letter may stand together, and two hyphens alone end the options.  Only options that may
be repeated are given twice.
-/

namespace DirectiveEngine.CommandLine

/-! ### Options -/

inductive Opt where
  | config
  | bundles
  | verbose
  | help
  | version
  | player
  | online
  | grant
  | op
  | team
  | delayUnit
  | enableHostCommands
  | enableWebhooks
  | arg
  deriving DecidableEq

namespace Opt

def name : Opt → Text
  | config => "config"
  | bundles => "bundles"
  | verbose => "verbose"
  | help => "help"
  | version => "version"
  | player => "player"
  | online => "online"
  | grant => "grant"
  | op => "op"
  | team => "team"
  | delayUnit => "delay-unit-ms"
  | enableHostCommands => "enable-host-commands"
  | enableWebhooks => "enable-webhooks"
  | arg => "arg"

def letter? : Opt → Option Char
  | config => some 'c'
  | bundles => some 'b'
  | verbose => some 'v'
  | help => some 'h'
  | version => some 'V'
  | player => some 'p'
  | grant => some 'g'
  | arg => some 'a'
  | _ => none

def takesValue : Opt → Bool
  | verbose => false
  | help => false
  | version => false
  | op => false
  | enableHostCommands => false
  | enableWebhooks => false
  | _ => true

def isRepeatable : Opt → Bool
  | online => true
  | grant => true
  | team => true
  | arg => true
  | _ => false

def maxMilliseconds : Nat := 0xFFFFFFFFFFFFFFFF

/-- A path is not empty, and a time is a number. -/
def accepts (o : Opt) (value : Text) : Bool :=
  match o with
  | config => !value.isEmpty
  | bundles => !value.isEmpty
  | delayUnit => (natural? maxMilliseconds value).isSome
  | _ => true

/-- Options that every command takes. -/
def everywhere : List Opt :=
  [config, bundles, verbose, help]

/-- Options that tell who runs directives and what the server is like. -/
def ofSession : List Opt :=
  [player, online, grant, op, team, delayUnit, enableHostCommands, enableWebhooks]

end Opt

/-- Why a command line is not carried out. -/
inductive Ending where
  | usage
  | help
  | version
  deriving DecidableEq

/-- What was given so far. -/
structure Given where
  options : List (Opt × Text) := []
  words : List Text := []

namespace Given

def values (g : Given) (o : Opt) : List Text :=
  (g.options.filter fun e => e.1 == o).map Prod.snd

def value? (g : Given) (o : Opt) : Option Text :=
  (g.values o).head?

def has (g : Given) (o : Opt) : Bool :=
  (g.value? o).isSome

/-- Adds an option, which is refused if it may not be repeated. -/
def add (g : Given) (o : Opt) (value : Text) : Except Ending Given :=
  if o = .help then .error .help
  else if o = .version then .error .version
  else if (g.has o && !o.isRepeatable) || !o.accepts value then .error .usage
  else .ok { g with options := g.options ++ [(o, value)] }

def addWord (g : Given) (w : Text) : Given :=
  { g with words := g.words ++ [w] }

end Given

/-- A word that is not taken for an option. -/
def isPlain (w : Text) : Bool :=
  w.head? != some '-' || w == ['-']

/-- An option's value from what is attached to it, or else from the next word. -/
def takeValue (attached : Option Text) (rest : List Text) : Except Ending (Text × List Text) :=
  match attached, rest with
  | some value, _ => .ok (value, rest)
  | none, w :: rest => if isPlain w then .ok (w, rest) else .error .usage
  | none, [] => .error .usage

/-- A long option, behind its hyphens. -/
def longOption (known : List Opt) (t : Text) (rest : List Text) (g : Given) :
    Except Ending (Given × List Text) := do
  let (name, attached) := match Text.splitFirst? "=" t with
    | some (name, value) => (name, some value)
    | none => (t, none)
  match known.find? fun o => o.name == name with
  | none => throw .usage
  | some o =>
    if o.takesValue then
      let (value, rest) ← takeValue attached rest
      return (← g.add o value, rest)
    else if attached.isSome then throw .usage
    else return (← g.add o [], rest)

/-- Options of one letter, behind their hyphen. -/
def letterOptions (known : List Opt) : Text → List Text → Given → Except Ending (Given × List Text)
  | [], rest, g => .ok (g, rest)
  | c :: t, rest, g =>
    match known.find? fun o => o.letter? == some c with
    | none => .error .usage
    | some o =>
      if o.takesValue then do
        let attached : Option Text :=
          match t with
          | [] => none
          | '=' :: value => some value
          | value => some value
        let (value, rest) ← takeValue attached rest
        return (← g.add o value, rest)
      else do letterOptions known t rest (← g.add o [])

/-- Reads options and words, at most `limit` of the latter.  With `stopAtWord` the first word ends the reading;
then the words from there on are given, too. -/
def read (known : List Opt) (limit : Option Nat) (stopAtWord : Bool) : Nat → List Text → Given →
    Except Ending (Given × List Text)
  | 0, rest, g => .ok (g, rest)
  | _, [], g => .ok (g, [])
  | fuel + 1, w :: rest, g => do
    let room := limit.elim true fun n => decide (g.words.length < n)
    match w with
    | ['-', '-'] =>
      if stopAtWord then (if rest.isEmpty then return (g, []) else throw .usage)
      else
        let g := rest.foldl Given.addWord g
        if limit.elim true fun n => decide (g.words.length ≤ n) then return (g, []) else throw .usage
    | '-' :: '-' :: t =>
      let (g, rest) ← longOption known t rest g
      read known limit stopAtWord fuel rest g
    | _ =>
      if isPlain w then
        if stopAtWord then return (g, w :: rest)
        else if room then read known limit stopAtWord fuel rest (g.addWord w)
        else throw .usage
      else
        let (g, rest) ← letterOptions known w.tail rest g
        read known limit stopAtWord fuel rest g

/-! ### Requests -/

structure SessionOptions where
  player : Option Text := none
  /-- Other players who are online. -/
  online : List Text := []
  grants : List Text := []
  op : Bool := false
  teams : List Text := []
  delayUnit : Option Nat := none
  enableHostCommands : Bool := false
  enableWebhooks : Bool := false
  deriving DecidableEq

inductive Request where
  | run (bundle : Text) (args : List Text) (session : SessionOptions)
  | exec (directives args : List Text) (session : SessionOptions)
  | parse (directive : Text)
  | math (expression : Text)
  | list
  deriving DecidableEq

/-- A request and the files that it is about. -/
structure Order where
  request : Request
  config : Text
  bundles : Text
  deriving DecidableEq

def sessionOptions (g : Given) : SessionOptions where
  player := g.value? .player
  online := (g.values .online).flatMap fun v => v.splitOn ','
  grants := g.values .grant
  op := g.has .op
  teams := g.values .team
  delayUnit := (g.value? .delayUnit).bind (natural? Opt.maxMilliseconds)
  enableHostCommands := g.has .enableHostCommands
  enableWebhooks := g.has .enableWebhooks

/-- What a command takes: its options and the number of its words. -/
structure Grammar where
  options : List Opt
  limit : Option Nat
  request? : Given → Option Request

def grammars : List (Text × Grammar) :=
  [("run", {
      options := Opt.everywhere ++ Opt.ofSession
      limit := none
      request? := fun g => match g.words with
        | bundle :: args => some (.run bundle args (sessionOptions g))
        | [] => none }),
   ("exec", {
      options := Opt.everywhere ++ Opt.ofSession ++ [.arg]
      limit := none
      request? := fun g =>
        if g.words.isEmpty then none else some (.exec g.words (g.values .arg) (sessionOptions g)) }),
   ("parse", {
      options := Opt.everywhere
      limit := some 1
      request? := fun g => g.words.head?.map .parse }),
   ("math", {
      options := Opt.everywhere
      limit := some 1
      request? := fun g => g.words.head?.map .math }),
   ("list", {
      options := Opt.everywhere
      limit := some 0
      request? := fun _ => some .list })]

/-- The variable of the environment that names the catalogue. -/
def bundlesVariable : Text := "CMDBUNDLE_BUNDLES"

/-- An option that may be given in front of the command and behind it, where it counts more. -/
def setting (outer inner : Given) (o : Opt) (environment : Option Text) (default : Text) : Except Ending Text :=
  let given := (inner.value? o).or (outer.value? o)
  match environment with
  | some value =>
    if !o.accepts value && !(inner.has o && outer.has o) then .error .usage
    else .ok (given.getD value)
  | none => .ok (given.getD default)

/-- The order that the words of a command line give. -/
def order (environment : Option Text) (args : List Text) : Except Ending Order := do
  let (outer, rest) ← read (Opt.everywhere ++ [.version]) (some 0) true (args.length + 1) args {}
  match rest with
  | [] => throw .usage
  | ['h', 'e', 'l', 'p'] :: topics =>
    throw (if topics.all fun t => (List.lookup t grammars).isSome then .help else .usage)
  | name :: rest =>
    match List.lookup name grammars with
    | none => throw .usage
    | some grammar =>
      let (inner, _) ← read grammar.options grammar.limit false (rest.length + 1) rest {}
      match grammar.request? inner with
      | none => throw .usage
      | some request =>
        let config ← setting outer inner .config none "config.yml"
        let bundles ← setting outer inner .bundles environment "commands.yml"
        return { request, config, bundles }

end DirectiveEngine.CommandLine
