import DirectiveEngine.Bundle.Basic
import DirectiveEngine.Directive.Parse
import DirectiveEngine.Directive.Selection
import DirectiveEngine.Engine.Execute

/-!
# Invocations in time

The directives of an invocation up to the first delayed one run at once; the others run later, each when the
sum of the delays up to it has passed.  Work that is put off runs while the engine waits or sleeps: what is due
first comes first, and of work due at one time what was put off first.
-/

namespace DirectiveEngine

/-! ### Delays -/

def maxDelaySum : Nat := 0xFFFFFFFFFFFFFFFF

/-- Each directive with the sum of the delays up to it. -/
def delaySums (sum : Nat) : List Directive → List (Nat × Directive)
  | [] => []
  | d :: ds =>
    let sum := min (sum + d.delay) maxDelaySum
    (sum, d) :: delaySums sum ds

/-- No delay is longer than this many units. -/
def maxUnits : Nat := 0xFFFFFFFF

/-- The longest time in milliseconds. -/
def maxDuration : Nat := 0xFFFFFFFFFFFFFFFF * 1000 + 999

namespace Engine

variable {σ : Type} (e : Engine σ)

def delayOf (units : Nat) : Nat :=
  min (e.config.delayUnit * min units maxUnits) maxDuration

/-! ### Work -/

/-- Puts the delayed directives of an invocation off until the first of them is due. -/
def postponeTail (inv : Invocation) : List (Nat × Directive) → Run σ Unit
  | [] => pure ()
  | (due, d) :: ds => Run.postpone { due, invocation := inv, work := .tail ((due, d) :: ds) }

/-- Runs directives one after another, and tells whether all ran: a panic of the host ends their invocation. -/
def executeAll (inv : Invocation) : List Directive → Run σ Bool
  | [] => return true
  | d :: ds => do
    match ← (e.execute inv d).attempt with
    | some () => executeAll inv ds
    | none => return false

/-- Runs directives one after another and puts others off, unless the host panics. -/
def executeRow (inv : Invocation) (ds : List Directive) (others : List (Nat × Directive)) : Run σ Unit := do
  if ← e.executeAll inv ds then postponeTail inv others

/-- Begins a call, and puts its response off until it arrives. -/
def makeCall (inv : Invocation) (now : Nat) (call : Call) : Run σ Unit := do
  let outcome ← e.call inv.id call.request
  if outcome.latency = 0 then e.finishCall inv call outcome.result
  else
    Run.postpone { due := now + outcome.latency, invocation := inv, work := .response call outcome.result }

/-- Does what a task is for, and tells whether it goes on.  Of delayed directives all run that are due by then. -/
def doWork (inv : Invocation) (now : Nat) : Work → Run σ Bool
  | .tail ds => e.executeAll inv ((ds.takeWhile fun d => d.1 ≤ now).map Prod.snd)
  | .call call => do
    e.makeCall inv now call
    return true
  | .response call result => do
    e.finishCall inv call result
    return true

/-- The directives that a task leaves for later. -/
def leftOver (now : Nat) : Work → List (Nat × Directive)
  | .tail ds => ds.dropWhile fun d => d.1 ≤ now
  | .call _ => []
  | .response .. => []

/-- Runs a task at its time, or at once if that has passed. -/
def runTask (t : Task) : Run σ Unit := do
  modify fun w => { w with now := max w.now t.due }
  let now := (← get).now
  if ← e.doWork t.invocation now t.work then postponeTail t.invocation (leftOver now t.work)

/-- The task that is due first, and the others. -/
def takeFirst? : List Task → Option (Task × List Task)
  | [] => none
  | t :: ts =>
    match takeFirst? ts with
    | none => some (t, [])
    | some (u, us) => if t.due ≤ u.due then some (t, ts) else some (u, t :: us)

/-- How many steps a task takes at most: a delayed directive may start a call, and a call is begun and
completed. -/
def taskWork (t : Task) : Nat :=
  match t.work with
  | .tail ds => 3 * ds.length
  | .call _ => 2
  | .response .. => 1

def totalWork : List Task → Nat
  | [] => 0
  | t :: ts => taskWork t + totalWork ts

/-- Runs the first task as long as `goOn` says so. -/
def runWhile (goOn : World σ → Task → Bool) : Nat → Run σ Unit
  | 0 => pure ()
  | n + 1 => do
    let w ← get
    match takeFirst? w.tasks with
    | none => pure ()
    | some (t, ts) =>
      if goOn w t then
        set { w with tasks := ts }
        e.runTask t
        runWhile goOn n

def runTasks (goOn : World σ → Task → Bool) : Run σ Unit := do
  e.runWhile goOn (totalWork (← get).tasks)

/-- The call that work is about, if it is about one. -/
def workCall? : Work → Option Call
  | .tail _ => none
  | .call call => some call
  | .response call _ => some call

/-- Whether directives of an invocation are still to run. -/
def hasTail (invocation : Nat) (w : World σ) : Bool :=
  w.tasks.any fun t => t.invocation.id == invocation && (workCall? t.work).isNone

/-- The calls of an invocation that have not ended. -/
def openCalls (invocation : Nat) (w : World σ) : List Call :=
  w.tasks.filterMap fun t => if t.invocation.id = invocation then workCall? t.work else none

/-- Waits for one call to end. -/
def join (invocation : Nat) (call : Call) : Run σ Unit :=
  e.runTasks fun w _ => call ∈ openCalls invocation w

def joinAll (invocation : Nat) : List Call → Run σ Unit
  | [] => pure ()
  | call :: calls => do
    e.join invocation call
    joinAll invocation calls

/-- Waits for the calls of an invocation in rounds, as long as there are any at the begin of a round. -/
def drain (invocation : Nat) : Nat → Run σ Unit
  | 0 => pure ()
  | n + 1 => do
    let calls := openCalls invocation (← get)
    if !calls.isEmpty then
      e.joinAll invocation calls
      drain invocation n

/-- Waits for the delayed directives of an invocation, and then for its calls. -/
def wait (invocation : Nat) : Run σ Unit := do
  e.runTasks fun w _ => hasTail invocation w
  e.drain invocation (totalWork (← get).tasks)

/-- Lets time pass. -/
def sleep (ms : Nat) : Run σ Unit := do
  let target := (← get).now + ms
  e.runTasks fun _ t => t.due ≤ target
  modify fun w => { w with now := target }

/-! ### Invocations -/

/-- Numbers an invocation, and looks at the clock. -/
def register (actor : Actor) (args : List Text) : Run σ (Nat × Invocation) :=
  modifyGet fun w => ((w.now, ⟨w.invocations, actor, args⟩), { w with invocations := w.invocations + 1 })

/-- The directives before the first delayed one. -/
def undelayed (ds : List Directive) : List Directive :=
  ((delaySums 0 ds).takeWhile fun d => d.1 == 0).map Prod.snd

/-- The first delayed directive and those behind it, each with the time when it is due. -/
def delayed (start : Nat) (ds : List Directive) : List (Nat × Directive) :=
  ((delaySums 0 ds).dropWhile fun d => d.1 == 0).map fun d => (start + e.delayOf d.1, d.2)

/-- Begins an invocation of directives in which nothing is random any more. -/
def begin (actor : Actor) (args : List Text) (ds : List Directive) : Run σ Invocation := do
  let (start, inv) ← register actor args
  e.executeRow inv (undelayed ds) (e.delayed start ds)
  return inv

/-- Whether some of the directives are delayed. -/
def isDeferred (ds : List Directive) : Bool :=
  (delaySums 0 ds).any fun d => d.1 != 0

/-- Runs an action list, with a draw for its random group. -/
def invoke (draw : Nat) (actor : Actor) (args actions : List Text) : Run σ (Invocation × Bool) := do
  let ds := collapseRandom draw (actions.map Directive.parse)
  return (← e.begin actor args ds, isDeferred ds)

def permissionDenied : Text :=
  "You don't have permission to use this command."

/-- Runs the actions of a bundle, if the actor may and there are any. -/
def invokeBundle (draw : Nat) (b : Bundle) (actor : Actor) (args : List Text) :
    Run σ (Option (Invocation × Bool)) := do
  let h := (← get).host
  if (b.permission?.map (e.host.hasPermission h actor)).getD true then
    let actions := b.selectActions args
    if actions.isEmpty then return none
    else return some (← e.invoke draw actor args actions)
  else
    e.tell actor permissionDenied .red
    return none

end Engine
end DirectiveEngine
