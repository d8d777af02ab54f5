import DirectiveEngine.Arithmetic.Program

/-!
# Arithmetic: values of expressions

Calls are replaced by the text of their value, innermost first, before the rest is evaluated, and `a..b`
lists the integers from one whole part to the other.  `evaluate` never fails: an error becomes a text.
-/

namespace DirectiveEngine.Arithmetic

variable {α : Type}

def evaluateArithmetic (num : Numbers α) (t : Text) : Except Error α :=
  let compact := t.filter fun c => !isBlank c
  if compact.isEmpty then .error .empty
  else do run num [] (← program (← tokens num compact))

/-! ### Calls -/

structure Call where
  function : Function
  argument : Text
  deriving DecidableEq

/-- The call that a text starts with, and the text after it.  An argument holds no parenthesis. -/
def callAt? (t : Text) : Option (Call × Text) :=
  [Function.sqrt, .int, .round].findSome? fun f => do
    let r ← Text.stripPrefix? f.name t
    match Text.trimStart r with
    | '(' :: r =>
      let argument := r.takeWhile fun c => c != '(' && c != ')'
      match argument, r.drop argument.length with
      | _ :: _, ')' :: rest => some (⟨f, argument⟩, rest)
      | _, _ => none
    | _ => none

/-- The first call in a text, with what stands before and after it. -/
def findCall? : Text → Option (Text × Call × Text)
  | [] => none
  | c :: t =>
    match callAt? (c :: t) with
    | some (call, rest) => some ([], call, rest)
    | none => (findCall? t).map fun r => (c :: r.1, r.2)

/-- Replaces up to `n` calls by the texts of their values. -/
def substituteCalls (num : Numbers α) : Nat → Text → Except Error Text
  | 0, t => .ok t
  | n + 1, t =>
    match findCall? t with
    | none => .ok t
    | some (before, call, rest) => do
      let x ← evaluateArithmetic num call.argument
      substituteCalls num n (before ++ num.text (num.call call.function x) ++ rest)

/-- The value of an expression.  Each call opens a parenthesis, which bounds their number. -/
def evaluateNumber (num : Numbers α) (t : Text) : Except Error α := do
  evaluateArithmetic num (← substituteCalls num (t.count '(') t)

/-! ### Ranges -/

def maxRangeSize : Nat := 100000

/-- The integers from `a` to `b`, both included, upward or downward. -/
def integersBetween (a b : Int) : List Int :=
  let size := (b - a).natAbs + 1
  (List.range size).map fun (i : Nat) => if a ≤ b then a + i else a - i

def rangeText (a b : Int) : Except Error Text :=
  let size := (b - a).natAbs + 1
  if size > maxRangeSize then .error (.rangeTooLarge (min size 0xFFFFFFFFFFFFFFFF))
  else .ok (Text.join "," ((integersBetween a b).map intText))

/-- The text of the value of an expression, or of a range of integers. -/
def evaluate? (num : Numbers α) (t : Text) : Except Error Text :=
  let t := t.trim
  match Text.splitAll ".." t with
  | [_] => (evaluateNumber num t).map num.text
  | [a, b] => do
    let a ← evaluateNumber num a
    let b ← evaluateNumber num b
    rangeText (num.toInt64 a) (num.toInt64 b)
  | _ => .error .invalidRange

def evaluate (num : Numbers α) (t : Text) : Text :=
  match evaluate? num t with
  | .ok text => text
  | .error e => "ERROR: " ++ e.message

end DirectiveEngine.Arithmetic
