import DirectiveEngine.Text.Blank
import DirectiveEngine.Arithmetic.Basic

/-!
# Arithmetic: tokens

A text without blanks is cut into literals, operators and parentheses.  A minus sign where an operand must
come is a negation, which is folded into a literal that follows it at once.
-/

namespace DirectiveEngine.Arithmetic

/-- A piece of the text, not yet told apart by its place. -/
inductive Lexeme where
  | literal (digits : Text)
  | operator (op : Operator)
  | opening
  | closing
  deriving DecidableEq

inductive Token (α : Type) where
  | number (value : α)
  | operator (op : Operator)
  | negate
  | opening
  | closing
  deriving DecidableEq

def isLiteralChar (c : Char) : Bool :=
  isDigit c || c == '.'

/-- The lexeme of a single character that belongs to no literal. -/
def symbol? : Char → Option Lexeme
  | '+' => some (.operator .add)
  | '-' => some (.operator .sub)
  | '*' => some (.operator .mul)
  | '/' => some (.operator .div)
  | '%' => some (.operator .mod)
  | '^' => some (.operator .pow)
  | '(' => some .opening
  | ')' => some .closing
  | _ => none

/-- A literal character joins the literal that starts right after it. -/
def consLiteral (c : Char) : List Lexeme → List Lexeme
  | .literal l :: r => .literal (c :: l) :: r
  | r => .literal [c] :: r

def lexemes : Text → Except Error (List Lexeme)
  | [] => .ok []
  | c :: t =>
    if isLiteralChar c then (lexemes t).map (consLiteral c)
    else
      match symbol? c with
      | some l => (lexemes t).map (l :: ·)
      | none => .error (.unexpectedCharacter c)

variable {α : Type}

def readLiteral (num : Numbers α) (l : Text) : Except Error α :=
  match num.read? l with
  | some x => .ok x
  | none => .error (.invalidNumber l)

/-- Gives each lexeme its meaning; the first argument says that an operand must come next. -/
def tokensAt (num : Numbers α) : Bool → List Lexeme → Except Error (List (Token α))
  | _, [] => .ok []
  | _, .literal l :: r => do
    let x ← readLiteral num l
    return .number x :: (← tokensAt num false r)
  | true, .operator .sub :: .literal l :: r => do
    let x ← readLiteral num l
    return .number (num.neg x) :: (← tokensAt num false r)
  | true, .operator .sub :: r => return .negate :: (← tokensAt num true r)
  | _, .operator op :: r => return .operator op :: (← tokensAt num true r)
  | _, .opening :: r => return .opening :: (← tokensAt num true r)
  | _, .closing :: r => return .closing :: (← tokensAt num false r)

theorem tokensAt_literal {num : Numbers α} {b : Bool} {l : Text} {x : α} (hx : num.read? l = some x)
    (r : List Lexeme) : tokensAt num b (.literal l :: r) = (tokensAt num false r).map (.number x :: ·) := by
  rw [tokensAt, readLiteral, hx]
  cases tokensAt num false r <;> rfl

def tokens (num : Numbers α) (t : Text) : Except Error (List (Token α)) := do
  tokensAt num true (← lexemes t)

end DirectiveEngine.Arithmetic
