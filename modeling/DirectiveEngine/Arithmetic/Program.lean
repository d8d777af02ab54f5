import DirectiveEngine.Arithmetic.Token

/-!
# Arithmetic: postfix programs

Tokens are reordered into a program for a stack machine.  Operators wait on a stack of their own: a negation
binds tighter than every binary operator, and a binary operator first releases those that bind at least as
tightly as itself.
-/

namespace DirectiveEngine.Arithmetic

inductive Instruction (α : Type) where
  | push (value : α)
  | apply (op : Operator)
  | negate
  deriving DecidableEq

/-- What waits for its right operand, or for its closing parenthesis. -/
inductive Waiting where
  | operator (op : Operator)
  | negate
  | opening
  deriving DecidableEq

variable {α : Type}

/-- The instruction of a waiting operator; a parenthesis has none. -/
def Waiting.instruction? : Waiting → Option (Instruction α)
  | .operator op => some (.apply op)
  | .negate => some .negate
  | .opening => none

/-- What a new operator releases from the stack, and what stays there. -/
def release (op : Operator) : List Waiting → List (Instruction α) × List Waiting
  | .negate :: ws =>
    let r := release op ws
    (.negate :: r.1, r.2)
  | .operator w :: ws =>
    if op.level ≤ w.level then
      let r := release op ws
      (.apply w :: r.1, r.2)
    else ([], .operator w :: ws)
  | ws => ([], ws)

/-- What a closing parenthesis releases, and what waited before its group was opened. -/
def closeGroup? : List Waiting → Option (List (Instruction α) × List Waiting)
  | [] => none
  | .opening :: ws => some ([], ws)
  | .negate :: ws => (closeGroup? ws).map fun r => (.negate :: r.1, r.2)
  | .operator w :: ws => (closeGroup? ws).map fun r => (.apply w :: r.1, r.2)

/-- What the end of the text releases; no group may still be open. -/
def releaseAll : List Waiting → Except Error (List (Instruction α))
  | [] => .ok []
  | .opening :: _ => .error .mismatchedParenthesis
  | .negate :: ws => (releaseAll ws).map (.negate :: ·)
  | .operator w :: ws => (releaseAll ws).map (.apply w :: ·)

def programFrom : List Waiting → List (Token α) → Except Error (List (Instruction α))
  | ws, [] => releaseAll ws
  | ws, .number x :: r => (programFrom ws r).map (.push x :: ·)
  | ws, .negate :: r => programFrom (.negate :: ws) r
  | ws, .opening :: r => programFrom (.opening :: ws) r
  | ws, .operator op :: r =>
    let released := release op ws
    (programFrom (.operator op :: released.2) r).map (released.1 ++ ·)
  | ws, .closing :: r =>
    match closeGroup? ws with
    | none => .error .mismatchedParenthesis
    | some released => (programFrom released.2 r).map (released.1 ++ ·)

def program (ts : List (Token α)) : Except Error (List (Instruction α)) :=
  programFrom [] ts

/-- Runs a program on a stack; in the end the stack must hold the one result. -/
def run (num : Numbers α) : List α → List (Instruction α) → Except Error α
  | [x], [] => .ok x
  | _, [] => .error .invalid
  | stack, .push x :: p => run num (x :: stack) p
  | x :: stack, .negate :: p => run num (num.neg x :: stack) p
  | y :: x :: stack, .apply op :: p => do run num ((← num.binary op x y) :: stack) p
  | _, _ => .error .invalid

end DirectiveEngine.Arithmetic
