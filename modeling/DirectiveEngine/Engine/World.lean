import DirectiveEngine.Condition
import DirectiveEngine.Config.Basic
import DirectiveEngine.Directive.Basic
import DirectiveEngine.Host.Basic
import DirectiveEngine.Template.Piece

/-!
# The state of an engine

The host, the variables, the clock, what was done so far, and what is still to be done.  Every operation on the
host goes through this module and leaves an entry in the history, so what an engine asks for is the history.
-/

namespace DirectiveEngine

/-- One run of an action list for an actor. -/
structure Invocation where
  id : Nat
  actor : Actor
  args : List Text
  deriving DecidableEq

/-- A webhook call, and what becomes of its response. -/
structure Call where
  request : WebhookRequest
  /-- The variable for the body of the response. -/
  capture : Option Text
  silent : Bool
  /-- Whether the actor is told that a variable was set. -/
  announce : Bool
  deriving DecidableEq

/-- What an engine does. -/
inductive Event where
  | directive (invocation : Nat) (d : Directive)
  | dispatch (actor : Actor) (line : Text) (silent : Bool)
  | text (actor : Actor) (text : StyledText)
  | assign (actor : Actor) (key value : Text)
  | process (command : Text)
  | read (path : Text) (key : Option Text)
  | write (path : Text) (key : Option Text) (value : Text)
  | webhook (invocation : Nat) (request : WebhookRequest)
  | completion (invocation : Nat) (call : Call)
  deriving DecidableEq

inductive Work where
  /-- The delayed directives of an invocation, each with the time when it is due. -/
  | tail (directives : List (Nat × Directive))
  /-- A call that has not begun. -/
  | call (call : Call)
  /-- A response that has not arrived. -/
  | response (call : Call) (result : Except HostError WebhookResponse)

structure Task where
  due : Nat
  invocation : Invocation
  work : Work

structure World (σ : Type) where
  host : σ
  store : Store := {}
  /-- The time since the start, in milliseconds. -/
  now : Nat := 0
  /-- What was done and when, the last thing first. -/
  history : List (Nat × Event) := []
  /-- Work in the order in which it was put off. -/
  tasks : List Task := []
  /-- How many invocations there were. -/
  invocations : Nat := 0

/-- The effects of a run.  What comes behind an effect is told from the world that it finds. -/
inductive Effects (σ α : Type) where
  | done (a : α)
  | effect (act : World σ → World σ) (next : World σ → Effects σ α)
  /-- The host panics, which ends a run.  The rest is what would come if it did not. -/
  | panic (rest : Effects σ α)

namespace Effects

variable {σ α β : Type}

/-- What the effects yield, and the world behind them, if nothing happens in between and the host does not panic. -/
def run : Effects σ α → World σ → α × World σ
  | done a, w => (a, w)
  | effect act next, w => (next w).run (act w)
  | panic rest, w => rest.run w

def bind : Effects σ α → (α → Effects σ β) → Effects σ β
  | done a, f => f a
  | effect act next, f => effect act fun w => (next w).bind f
  | panic rest, f => panic (rest.bind f)

/-- The effects up to the first panic.  They yield nothing if there is one. -/
def attempt : Effects σ α → Effects σ (Option α)
  | done a => done (some a)
  | effect act next => effect act fun w => (next w).attempt
  | panic _ => done none

theorem run_bind (m : Effects σ α) (f : α → Effects σ β) (w : World σ) :
    (m.bind f).run w = (f (m.run w).1).run (m.run w).2 := by
  induction m generalizing w with
  | done a => rfl
  | effect act next ih => exact ih w (act w)
  | panic rest ih => exact ih w

theorem bind_done (m : Effects σ α) : m.bind done = m := by
  induction m with
  | done a => rfl
  | effect act next ih => exact congrArg (effect act) (funext ih)
  | panic rest ih => exact congrArg panic ih

theorem bind_assoc {γ : Type} (m : Effects σ α) (f : α → Effects σ β) (g : β → Effects σ γ) :
    (m.bind f).bind g = m.bind fun a => (f a).bind g := by
  induction m with
  | done a => rfl
  | effect act next ih => exact congrArg (effect act) (funext ih)
  | panic rest ih => exact congrArg panic ih

end Effects

/-- What an engine does to the world, and by what effects. -/
@[ext]
structure Run (σ α : Type) where
  run : World σ → α × World σ
  effects : Effects σ α
  run_effects : ∀ w, effects.run w = run w

structure Engine (σ : Type) where
  host : Host σ
  config : Config

namespace Run

variable {σ α β : Type}

def pure (a : α) : Run σ α where
  run w := (a, w)
  effects := .done a
  run_effects _ := rfl

def bind (m : Run σ α) (f : α → Run σ β) : Run σ β where
  run w := (f (m.run w).1).run (m.run w).2
  effects := m.effects.bind fun a => (f a).effects
  run_effects w := by rw [Effects.run_bind, m.run_effects, (f _).run_effects]

/-- One effect. -/
def modifyGet (f : World σ → α × World σ) : Run σ α where
  run := f
  effects := .effect (fun w => (f w).2) fun w => .done (f w).1
  run_effects _ := rfl

/-- A run up to the first panic. -/
def attempt (m : Run σ α) : Run σ (Option α) where
  run := m.effects.attempt.run
  effects := m.effects.attempt
  run_effects _ := rfl

instance : Monad (Run σ) where
  pure := pure
  bind := bind

instance : LawfulMonad (Run σ) :=
  LawfulMonad.mk' _ (fun m => Run.ext rfl m.effects.bind_done) (fun _ _ => rfl)
    (fun m f g => Run.ext rfl (m.effects.bind_assoc _ _))

instance : MonadStateOf (World σ) (Run σ) where
  get := modifyGet fun w => (w, w)
  set w := modifyGet fun _ => ((), w)
  modifyGet := modifyGet

def note (e : Event) : Run σ Unit :=
  modify fun w => { w with history := (w.now, e) :: w.history }

/-- Lets the host do what is noted, and keeps its answer. -/
def ask (e : Event) (act : σ → α × σ) : Run σ α :=
  modifyGet fun w => ((act w.host).1, { w with host := (act w.host).2, history := (w.now, e) :: w.history })

/-- A panic of the host, if there is one. -/
def panicIf (c : Bool) : Run σ Unit where
  run w := ((), w)
  effects := if c then .panic (.done ()) else .done ()
  run_effects _ := by cases c <;> rfl

def postpone (t : Task) : Run σ Unit :=
  modify fun w => { w with tasks := w.tasks ++ [t] }

def assign (actor : Actor) (key value : Text) : Run σ Unit :=
  modify fun w =>
    { w with store := w.store.set actor key value, history := (w.now, .assign actor key value) :: w.history }

end Run

namespace Engine

variable {σ : Type} (e : Engine σ)

def dispatchLine (actor : Actor) (line : Text) (silent : Bool) : Run σ Unit :=
  Run.ask (.dispatch actor line silent) fun h => ((), e.host.dispatch actor line silent h)

def send (actor : Actor) (t : StyledText) : Run σ Unit :=
  Run.ask (.text actor t) fun h => ((), e.host.send actor t h)

/-- Shows a text in one color. -/
def tell (actor : Actor) (t : Text) (color : Color) : Run σ Unit :=
  e.send actor (.colored t color)

def run (command : Text) : Run σ (Except HostError ProcessOutput) :=
  Run.ask (.process command) (e.host.run command)

def read (path : Text) (key : Option Text) : Run σ (Except HostError Text) :=
  Run.ask (.read path key) (e.host.read path key)

/-- Writes a file.  The host panics at a mapping that it does not see under its tag. -/
def write (w : FileWrite) : Run σ (Except HostError Unit) := do
  let answer ← Run.ask (.write w.path w.key w.value) (e.host.write w.path w.key w.value)
  Run.panicIf (answer matches .error (.file .tagged))
  return answer

def call (invocation : Nat) (request : WebhookRequest) : Run σ WebhookOutcome :=
  Run.ask (.webhook invocation request) (e.host.call request)

/-- What a condition may ask about an actor. -/
def facts (w : World σ) (actor : Actor) : ActorFacts where
  actor
  snapshot? := e.host.snapshot? w.host actor
  hasPermission := e.host.hasPermission w.host actor

def holds (w : World σ) (actor : Actor) (condition : Text) : Bool :=
  Condition.holds (e.facts w actor) w.store condition

end Engine
end DirectiveEngine
