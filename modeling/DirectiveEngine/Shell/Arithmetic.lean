import DirectiveEngine.Number.Literal

/-!
# Shell arithmetic

Whole numbers of 64 bits with the usual operators, each level of which associates to the left.
-/

namespace DirectiveEngine.Shell

/-- The binary operators with their precedence; longer ones come first. -/
def arithmeticOperators : List (Text × Nat) :=
  [("||", 1), ("&&", 2), ("==", 6), ("!=", 6), ("<=", 7), (">=", 7), ("<<", 8), (">>", 8), ("|", 3), ("^", 4),
    ("&", 5), ("<", 7), (">", 7), ("+", 9), ("-", 9), ("*", 10), ("/", 10), ("%", 10)]

inductive ArithmeticFault where
  | divisionByZero
  | malformed
  deriving DecidableEq

def ofBool (b : Bool) : Int :=
  if b then 1 else 0

/-- The low 64 bits of a number, with a sign. -/
def wrap (n : Int) : Int :=
  Int.bmod n 0x10000000000000000

def applyOperator (op : Text) (a b : Int) : Except ArithmeticFault Int :=
  if op = "+" then .ok (wrap (a + b))
  else if op = "-" then .ok (wrap (a - b))
  else if op = "*" then .ok (wrap (a * b))
  else if op = "/" then if b = 0 then .error .divisionByZero else .ok (wrap (a.tdiv b))
  else if op = "%" then if b = 0 then .error .divisionByZero else .ok (a.tmod b)
  else if op = "==" then .ok (ofBool (a == b))
  else if op = "!=" then .ok (ofBool (a != b))
  else if op = "<" then .ok (ofBool (a < b))
  else if op = ">" then .ok (ofBool (a > b))
  else if op = "<=" then .ok (ofBool (a ≤ b))
  else if op = ">=" then .ok (ofBool (a ≥ b))
  else if op = "&&" then .ok (ofBool (a != 0 && b != 0))
  else if op = "||" then .ok (ofBool (a != 0 || b != 0))
  else if op = "<<" then .ok (wrap (a * Nat.pow 2 (b % 64).toNat))
  else if op = ">>" then .ok (a / Nat.pow 2 (b % 64).toNat)
  else
    let x := (a % 0x10000000000000000).toNat
    let y := (b % 0x10000000000000000).toNat
    .ok (wrap (if op = "&" then x &&& y else if op = "|" then x ||| y else x ^^^ y : Nat))

/-- The value of a number or of the name of a variable. -/
def operand (value : Text → Text) (t : Text) : Except ArithmeticFault (Int × Text) :=
  let w := t.takeWhile fun c => c.isAlphanum || c == '_'
  let rest := t.drop w.length
  let number (w : Text) : Except ArithmeticFault Int :=
    match w with
    | [] => .ok 0
    | '-' :: w => match digits? w with | some n => .ok (-(n : Int)) | none => .error .malformed
    | '0' :: 'x' :: h =>
      let digit (c : Char) : Nat := if isDigit c then digitValue c else c.toLower.toNat - 87
      .ok (h.foldl (fun n c => 16 * n + digit c) 0 : Nat)
    | '0' :: o => .ok (o.foldl (fun n c => 8 * n + digitValue c) 0 : Nat)
    | w => match digits? w with | some n => .ok n | none => .error .malformed
  match w with
  | [] => .error .malformed
  | c :: _ => do return (← number (if isDigit c then w else value w), rest)

mutual

/-- An expression of operators that bind at least as tightly as `level`. -/
def expression (value : Text → Text) : Nat → Nat → Text → Except ArithmeticFault (Int × Text)
  | 0, _, _ => .error .malformed
  | fuel + 1, level, t => do
    let (a, t) ← unary value fuel t
    operators value fuel level a t

def operators (value : Text → Text) : Nat → Nat → Int → Text → Except ArithmeticFault (Int × Text)
  | 0, _, _, _ => .error .malformed
  | fuel + 1, level, a, t =>
    let t := t.dropWhile Char.isWhitespace
    match t with
    | '?' :: r =>
      if 0 < level then .ok (a, t)
      else do
        let (yes, r) ← expression value fuel 0 r
        match r.dropWhile Char.isWhitespace with
        | ':' :: r => do
          let (no, r) ← expression value fuel 0 r
          return (if a ≠ 0 then yes else no, r)
        | _ => throw .malformed
    | _ =>
      match arithmeticOperators.find? fun op => Text.startsWith op.1 t with
      | none => .ok (a, t)
      | some (op, p) =>
        if p < level then .ok (a, t)
        else do
          let (b, t) ← expression value fuel (p + 1) (t.drop op.length)
          operators value fuel level (← applyOperator op a b) t

def unary (value : Text → Text) : Nat → Text → Except ArithmeticFault (Int × Text)
  | 0, _ => .error .malformed
  | fuel + 1, t =>
    match t.dropWhile Char.isWhitespace with
    | '-' :: r => (unary value fuel r).map fun x => (wrap (-x.1), x.2)
    | '+' :: r => unary value fuel r
    | '!' :: r => (unary value fuel r).map fun x => (ofBool (x.1 == 0), x.2)
    | '~' :: r => (unary value fuel r).map fun x => (-x.1 - 1, x.2)
    | '(' :: r => do
      let (a, r) ← expression value fuel 0 r
      match r.dropWhile Char.isWhitespace with
      | ')' :: r => return (a, r)
      | _ => throw .malformed
    | r => operand value r

end

/-- The value of an expression; an empty one is zero. -/
def evaluateArithmetic (value : Text → Text) (t : Text) : Except ArithmeticFault Int := do
  if t.all Char.isWhitespace then return 0
  let (n, rest) ← expression value (2 * t.length + 4) 0 t
  if rest.all Char.isWhitespace then return n else throw .malformed

end DirectiveEngine.Shell
