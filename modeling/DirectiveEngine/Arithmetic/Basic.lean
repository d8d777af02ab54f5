import DirectiveEngine.Number.Literal
import DirectiveEngine.Number.Notation

/-!
# Arithmetic: numbers and errors

The evaluator is written against `Numbers`, the operations that an arithmetic needs; `binary64` is the one in
use.  Division and remainder test the divisor themselves, so `div` and `rem` are never asked for a zero one.
-/

namespace DirectiveEngine.Arithmetic

inductive Operator where
  | add
  | sub
  | mul
  | div
  | mod
  | pow
  deriving DecidableEq

/-- A higher level binds tighter; all levels associate to the left. -/
def Operator.level : Operator → Nat
  | .add | .sub => 1
  | .mul | .div | .mod => 2
  | .pow => 3

inductive Function where
  | sqrt
  | int
  | round
  deriving DecidableEq

def Function.name : Function → Text
  | .sqrt => "sqrt"
  | .int => "int"
  | .round => "round"

inductive Error where
  | empty
  | invalid
  | invalidRange
  | rangeTooLarge (size : Nat)
  | invalidNumber (literal : Text)
  | unexpectedCharacter (c : Char)
  | mismatchedParenthesis
  | divisionByZero
  | moduloByZero
  deriving DecidableEq

def Error.message : Error → Text
  | .empty => "Empty expression"
  | .invalid => "Invalid expression"
  | .invalidRange => "Invalid range expression"
  | .rangeTooLarge n => "Range too large: " ++ natText n ++ " elements"
  | .invalidNumber literal => "Invalid number: " ++ literal
  | .unexpectedCharacter c => "Unexpected character: " ++ [c]
  | .mismatchedParenthesis => "Mismatched parenthesis"
  | .divisionByZero => "Division by zero"
  | .moduloByZero => "Modulo by zero"

structure Numbers (α : Type) where
  read? : Text → Option α
  text : α → Text
  neg : α → α
  add : α → α → α
  sub : α → α → α
  mul : α → α → α
  div : α → α → α
  rem : α → α → α
  pow : α → α → α
  isZero : α → Bool
  sqrt : α → α
  /-- The whole part, toward zero. -/
  trunc : α → α
  /-- The nearest whole number, a half going up. -/
  round : α → α
  /-- The whole part clamped to the 64-bit signed integers. -/
  toInt64 : α → Int

variable {α : Type}

def Numbers.binary (num : Numbers α) : Operator → α → α → Except Error α
  | .add, a, b => .ok (num.add a b)
  | .sub, a, b => .ok (num.sub a b)
  | .mul, a, b => .ok (num.mul a b)
  | .div, a, b => if num.isZero b then .error .divisionByZero else .ok (num.div a b)
  | .mod, a, b => if num.isZero b then .error .moduloByZero else .ok (num.rem a b)
  | .pow, a, b => .ok (num.pow a b)

def Numbers.call (num : Numbers α) : Function → α → α
  | .sqrt => num.sqrt
  | .int => num.trunc
  | .round => num.round

/-- A whole number without a fraction, other numbers with the fewest digits that read back. -/
def floatText (x : Float) : Text :=
  match Binary64.parts x, Binary64.whole? x with
  | .infinite negative, _ => Decimal.sign negative ++ "Infinity"
  | _, some (negative, n) => if n = 0 then "0" else Decimal.sign negative ++ natText n
  | _, none => Decimal.plain x

def binary64 : Numbers Float where
  read? := Decimal.read?
  text := floatText
  neg x := -x
  add x y := x + y
  sub x y := x - y
  mul x y := x * y
  div x y := x / y
  rem := Binary64.rem
  pow := Float.pow
  isZero x := x == 0.0
  sqrt := Float.sqrt
  trunc := Binary64.trunc
  round x := (x + 0.5).floor
  toInt64 := Binary64.toInt64

end DirectiveEngine.Arithmetic
