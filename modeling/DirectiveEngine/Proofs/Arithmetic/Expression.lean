import DirectiveEngine.Arithmetic.Evaluate
import DirectiveEngine.Proofs.Arithmetic.Lexeme

/-!
# Expressions

An expression is a tree of literals, negations and binary operations, with a value by recursion.  `Written` says how
one may be spelled: with the parentheses that its structure needs and any others, and with blanks between its tokens.
However it is spelled, the evaluator finds the value of the tree (`evaluateArithmetic_written`).

The proof follows the two stacks.  While the tokens of a subexpression go by, some of its operators are released and
others wait on top of those that waited before; what was released, followed by the instructions of what waits,
computes the subexpression (`Arranged.programFrom`).
-/

namespace DirectiveEngine.Arithmetic

variable {α : Type} {num : Numbers α}

/-! ### Trees -/

inductive Expression where
  | literal (l : Literal)
  | negate (t : Expression)
  | binary (op : Operator) (left right : Expression)

namespace Expression

/-- The value of a tree, the left operand first. -/
def value (num : Numbers α) : Expression → Except Error α
  | literal l => readLiteral num l.1
  | negate t => do return num.neg (← t.value num)
  | binary .add l r => do return num.add (← l.value num) (← r.value num)
  | binary .sub l r => do return num.sub (← l.value num) (← r.value num)
  | binary .mul l r => do return num.mul (← l.value num) (← r.value num)
  | binary .pow l r => do return num.pow (← l.value num) (← r.value num)
  | binary .div l r => do
    let x ← l.value num
    let y ← r.value num
    if num.isZero y then .error .divisionByZero else .ok (num.div x y)
  | binary .mod l r => do
    let x ← l.value num
    let y ← r.value num
    if num.isZero y then .error .moduloByZero else .ok (num.rem x y)

/-- The evaluator applies the operation of the tree. -/
theorem value_binary (op : Operator) (l r : Expression) :
    (binary op l r).value num = l.value num >>= fun x => r.value num >>= fun y => num.binary op x y := by
  cases op <;> rfl

/-- All subexpressions, each behind its operands. -/
def postorder : Expression → List Expression
  | literal l => [literal l]
  | negate t => t.postorder ++ [negate t]
  | binary op l r => l.postorder ++ r.postorder ++ [binary op l r]

/-- The error of the operation at the root, if its operands have values and it divides by zero. -/
def zeroDivision? (num : Numbers α) : Expression → Option Error
  | binary op l r =>
    match op, l.value num, r.value num with
    | .div, .ok _, .ok y => if num.isZero y then some .divisionByZero else none
    | .mod, .ok _, .ok y => if num.isZero y then some .moduloByZero else none
    | _, _, _ => none
  | _ => none

end Expression

/-- Every literal is read as a number. -/
def Numbers.ReadsLiterals (num : Numbers α) : Prop :=
  ∀ l, IsLiteral l → (num.read? l).isSome

theorem binary64_readsLiterals : binary64.ReadsLiterals :=
  fun _ hl => (isSome_read?_iff hl.chars).2 hl

theorem Numbers.ReadsLiterals.value_literal (hnum : num.ReadsLiterals) (l : Literal) :
    ∃ x, num.read? l.1 = some x ∧ (Expression.literal l).value num = .ok x := by
  obtain ⟨x, hx⟩ := Option.isSome_iff_exists.1 (hnum l.1 l.2)
  refine ⟨x, hx, ?_⟩
  rw [Expression.value, readLiteral, hx]

/-! ### The first division by zero -/

namespace Expression

private theorem binary_eq_error_iff {op : Operator} {x y : α} {e : Error} {l r : Expression}
    (hl : l.value num = .ok x) (hr : r.value num = .ok y) :
    num.binary op x y = .error e ↔ (binary op l r).zeroDivision? num = some e := by
  simp only [zeroDivision?, hl, hr]
  cases op <;> simp only [Numbers.binary]
  case div | mod => split <;> simp
  all_goals simp

/-- The error of the first subexpression, in postorder, that divides by zero. -/
def firstZeroDivision? (num : Numbers α) (t : Expression) : Option Error :=
  t.postorder.findSome? (zeroDivision? num)

private theorem firstZeroDivision?_eq_none {t : Expression} {x : α}
    (h : ∀ e, t.value num = .error e ↔ t.firstZeroDivision? num = some e) (hx : t.value num = .ok x) :
    t.firstZeroDivision? num = none := by
  rw [Option.eq_none_iff_forall_not_mem]
  intro e he
  rw [(h e).2 he] at hx
  simp at hx

/-- A tree has no value just if some operation in it divides by zero, and then the error is that of the first. -/
theorem value_eq_error_iff (hnum : num.ReadsLiterals) (t : Expression) (e : Error) :
    t.value num = .error e ↔ t.firstZeroDivision? num = some e := by
  induction t generalizing e with
  | literal l =>
    obtain ⟨x, -, hx⟩ := hnum.value_literal l
    simp [hx, firstZeroDivision?, postorder, zeroDivision?]
  | negate t ih =>
    have hfirst : (negate t).firstZeroDivision? num = t.firstZeroDivision? num := by
      rw [firstZeroDivision?, postorder, List.findSome?_append]
      exact Option.or_none
    rw [hfirst, ← ih, value]
    cases t.value num with
    | error e' => rfl
    | ok x => simp [bind, Except.bind, pure, Except.pure]
  | binary op l r ihl ihr =>
    have hfirst : (binary op l r).firstZeroDivision? num =
        (l.firstZeroDivision? num).or ((r.firstZeroDivision? num).or ((binary op l r).zeroDivision? num)) := by
      rw [firstZeroDivision?, postorder, List.findSome?_append, List.findSome?_append, Option.or_assoc]
      cases h : (binary op l r).zeroDivision? num <;> simp [h, firstZeroDivision?]
    rw [hfirst, value_binary]
    cases hl : l.value num with
    | error e' => simp [(ihl e').1 hl, bind, Except.bind]
    | ok x =>
      rw [firstZeroDivision?_eq_none ihl hl, Option.none_or]
      cases hr : r.value num with
      | error e' => simp [(ihr e').1 hr, bind, Except.bind]
      | ok y =>
        rw [firstZeroDivision?_eq_none ihr hr, Option.none_or]
        exact binary_eq_error_iff hl hr

end Expression

/-! ### Written expressions -/

/-- The operand of a negation stands at a level above those of all binary operators. -/
def operandLevel : Nat := 4

/-- A text for a tree, where only operators of a level or above may stand without parentheses. -/
inductive Written : Nat → Expression → Text → Prop where
  | literal {n : Nat} (l : Literal) : Written n (.literal l) l.1
  | negate {n : Nat} {t : Expression} {s : Text} (h : Written operandLevel t s) : Written n (.negate t) ('-' :: s)
  | binary {n : Nat} {op : Operator} {l r : Expression} {s u : Text} (hn : n ≤ op.level)
      (hl : Written op.level l s) (hr : Written (op.level + 1) r u) :
      Written n (.binary op l r) (s ++ op.symbol :: u)
  | parentheses {n : Nat} {t : Expression} {s : Text} (h : Written 0 t s) : Written n t ('(' :: (s ++ [')']))
  | blankBefore {n : Nat} {t : Expression} {s : Text} {c : Char} (hc : isBlank c = true) (h : Written n t s) :
      Written n t (c :: s)
  | blankBehind {n : Nat} {t : Expression} {s : Text} {c : Char} (hc : isBlank c = true) (h : Written n t s) :
      Written n t (s ++ [c])

/-- The tokens of a tree.  The negation of a literal is a number itself. -/
inductive Arranged (num : Numbers α) : Nat → Expression → List (Token α) → Prop where
  | literal {n : Nat} {l : Literal} {x : α} (hx : num.read? l.1 = some x) : Arranged num n (.literal l) [.number x]
  | negateLiteral {n : Nat} {l : Literal} {x : α} (hx : num.read? l.1 = some x) :
      Arranged num n (.negate (.literal l)) [.number (num.neg x)]
  | negate {n : Nat} {t : Expression} {ts : List (Token α)} (h : Arranged num operandLevel t ts) :
      Arranged num n (.negate t) (.negate :: ts)
  | binary {n : Nat} {op : Operator} {l r : Expression} {ts us : List (Token α)} (hn : n ≤ op.level)
      (hl : Arranged num op.level l ts) (hr : Arranged num (op.level + 1) r us) :
      Arranged num n (.binary op l r) (ts ++ .operator op :: us)
  | parentheses {n : Nat} {t : Expression} {ts : List (Token α)} (h : Arranged num 0 t ts) :
      Arranged num n t (.opening :: (ts ++ [.closing]))

theorem Arranged.ne_nil {n : Nat} {t : Expression} {ts : List (Token α)} (h : Arranged num n t ts) : ts ≠ [] := by
  cases h <;> simp

theorem Operator.level_lt (op : Operator) : op.level < operandLevel := by
  cases op <;> decide

/-! ### From the text to tokens -/

theorem tokensAt_negateLiteral {l : Text} {x : α} (hx : num.read? l = some x) (r : List Lexeme) :
    tokensAt num true (.operator .sub :: .literal l :: r) =
      (tokensAt num false r).map (.number (num.neg x) :: ·) := by
  rw [tokensAt, readLiteral, hx]
  cases tokensAt num false r <;> rfl

theorem tokensAt_negate {r : List Lexeme} (h : ∀ l r', r ≠ .literal l :: r') :
    tokensAt num true (.operator .sub :: r) = (tokensAt num true r).map (.negate :: ·) := by
  rw [tokensAt]
  · cases tokensAt num true r <;> rfl
  · exact h

theorem tokensAt_operator (op : Operator) (r : List Lexeme) :
    tokensAt num false (.operator op :: r) = (tokensAt num true r).map (.operator op :: ·) := by
  rw [tokensAt]
  · cases tokensAt num true r <;> rfl
  · simp
  · simp

theorem tokensAt_opening (b : Bool) (r : List Lexeme) :
    tokensAt num b (.opening :: r) = (tokensAt num true r).map (.opening :: ·) := by
  rw [tokensAt]
  cases tokensAt num true r <;> rfl

theorem tokensAt_closing (b : Bool) (r : List Lexeme) :
    tokensAt num b (.closing :: r) = (tokensAt num false r).map (.closing :: ·) := by
  rw [tokensAt]
  cases tokensAt num false r <;> rfl

/-- The text without its blanks. -/
def compact (s : Text) : Text :=
  s.filter fun c => !isBlank c

/-- What the evaluator accepts has passed through all of its stages. -/
theorem evaluateArithmetic_eq_ok {s : Text} {x : α} (h : evaluateArithmetic num s = .ok x) :
    ∃ ls ts p, lexemes (compact s) = .ok ls ∧ tokensAt num true ls = .ok ts ∧ programFrom [] ts = .ok p ∧
      run num [] p = .ok x := by
  unfold evaluateArithmetic at h
  simp only at h
  split at h
  · simp at h
  · obtain ⟨ts, hts, h⟩ := bind_eq_ok h
    obtain ⟨ls, hls, hts⟩ := bind_eq_ok hts
    obtain ⟨p, hp, h⟩ := bind_eq_ok h
    exact ⟨ls, ts, p, hls, hts, hp, h⟩

theorem compact_append (s u : Text) : compact (s ++ u) = compact s ++ compact u :=
  List.filter_append ..

private theorem compact_cons {c : Char} (hc : isBlank c = false) (s : Text) : compact (c :: s) = c :: compact s := by
  simp [compact, hc]

private theorem compact_cons_blank {c : Char} (hc : isBlank c = true) (s : Text) : compact (c :: s) = compact s := by
  simp [compact, hc]

private theorem isBlank_symbol (op : Operator) : isBlank op.symbol = false := by
  cases op <;> decide

theorem not_isBlank_of_isLiteralChar {c : Char} (h : isLiteralChar c = true) : isBlank c = false := by
  simp only [isLiteralChar, isDigit, Bool.or_eq_true, Bool.and_eq_true, decide_eq_true_eq, beq_iff_eq] at h
  rcases h with ⟨hlow, hhigh⟩ | rfl
  · have hlow : 48 ≤ c.toNat := hlow
    have hhigh : c.toNat ≤ 57 := hhigh
    simp only [isBlank, Bool.or_eq_false_iff, Bool.and_eq_false_iff, decide_eq_false_iff_not, beq_eq_false_iff_ne]
    omega
  · decide

private theorem compact_literal (l : Literal) : compact l.1 = l.1 :=
  List.filter_eq_self.2 fun c hc => by rw [not_isBlank_of_isLiteralChar (l.2.chars c hc)]; rfl

/-- The lexemes of a tree whose outermost operator, if it is a binary one, stands in parentheses: those of a single
literal, or they start with something else. -/
private def StartsOperand (t : Expression) (ls : List Lexeme) : Prop :=
  (∃ l, t = .literal l ∧ ls = [.literal l.1]) ∨ ∃ x r, ls = x :: r ∧ ∀ l, x ≠ .literal l

/-- A written tree has the lexemes and the tokens of its structure, whatever follows. -/
theorem Written.arranged (hnum : num.ReadsLiterals) {n : Nat} {t : Expression} {s : Text} (h : Written n t s) :
    ∃ ls ts, lexemes (compact s) = .ok ls ∧ (operandLevel ≤ n → StartsOperand t ls) ∧ Arranged num n t ts ∧
      ∀ r, tokensAt num true (ls ++ r) = (tokensAt num false r).map (ts ++ ·) := by
  induction h with
  | literal l =>
    obtain ⟨x, hx, -⟩ := hnum.value_literal l
    refine ⟨[.literal l.1], [.number x], ?_, fun _ => .inl ⟨l, rfl, rfl⟩, .literal hx, tokensAt_literal hx⟩
    rw [compact_literal, lexemes_of_literal l.2.ne_nil l.2.chars]
  | @negate n t s _ ih =>
    obtain ⟨ls, ts, hls, hstart, harr, hts⟩ := ih
    have hlexemes : lexemes (compact ('-' :: s)) = .ok (.operator .sub :: ls) := by
      rw [compact_cons (by decide)]
      exact lexemes_cons_symbol rfl (by decide) hls
    have hhead : operandLevel ≤ n → StartsOperand (.negate t) (.operator .sub :: ls) :=
      fun _ => .inr ⟨_, _, rfl, by simp⟩
    rcases hstart (Nat.le_refl _) with ⟨l, rfl, rfl⟩ | ⟨x, r', rfl, hx⟩
    · obtain ⟨x, hx, -⟩ := hnum.value_literal l
      exact ⟨_, _, hlexemes, hhead, .negateLiteral hx, tokensAt_negateLiteral hx⟩
    · refine ⟨_, _, hlexemes, hhead, .negate harr, fun r => ?_⟩
      rw [List.cons_append, tokensAt_negate (by simp [hx]), hts, map_map]
      rfl
  | @binary n op l r s u hn _ _ ihl ihr =>
    obtain ⟨ls, ts, hls, -, hl, hts⟩ := ihl
    obtain ⟨lu, us, hlu, -, hr, hus⟩ := ihr
    refine ⟨ls ++ .operator op :: lu, ts ++ .operator op :: us, ?_, fun h => ?_, .binary hn hl hr, fun r => ?_⟩
    · rw [compact_append, compact_cons (isBlank_symbol op)]
      exact lexemes_append_symbol (symbol?_symbol op) (isLiteralChar_symbol op) hls hlu
    · have := op.level_lt
      omega
    · rw [List.append_assoc, hts, List.cons_append, tokensAt_operator, hus, map_map, map_map]
      congr 1
      funext q
      simp
  | @parentheses n t s _ ih =>
    obtain ⟨ls, ts, hls, -, harr, hts⟩ := ih
    refine ⟨.opening :: (ls ++ [.closing]), .opening :: (ts ++ [.closing]), ?_, fun _ => .inr ⟨_, _, rfl, by simp⟩,
      .parentheses harr, fun r => ?_⟩
    · rw [compact_cons (by decide), compact_append]
      have hclosing : lexemes (compact s ++ ')' :: []) = .ok (ls ++ .closing :: []) :=
        lexemes_append_symbol rfl (by decide) hls rfl
      exact lexemes_cons_symbol rfl (by decide) hclosing
    · rw [List.cons_append, tokensAt_opening, List.append_assoc, hts, List.cons_append, List.nil_append,
        tokensAt_closing, map_map, map_map]
      congr 1
      funext q
      simp
  | blankBefore hc _ ih =>
    rwa [compact_cons_blank hc]
  | @blankBehind _ _ s c hc _ ih =>
    have hcompact : compact (s ++ [c]) = compact s := by
      rw [compact_append, compact_cons_blank hc]
      exact List.append_nil _
    rwa [hcompact]

/-! ### From tokens to the program -/

/-- A program computes a tree if it leaves just its value, on top of what the stack held. -/
def Computes (num : Numbers α) (p : List (Instruction α)) (t : Expression) : Prop :=
  ∀ stack q, run num stack (p ++ q) = do
    let x ← t.value num
    run num (x :: stack) q

namespace Computes

variable {t l r : Expression} {p q : List (Instruction α)}

theorem literal {l : Literal} {x : α} (hx : num.read? l.1 = some x) : Computes num [.push x] (.literal l) := by
  intro stack q
  rw [Expression.value, readLiteral, hx, List.cons_append, run]
  rfl

theorem negateLiteral {l : Literal} {x : α} (hx : num.read? l.1 = some x) :
    Computes num [.push (num.neg x)] (.negate (.literal l)) := by
  intro stack q
  rw [Expression.value, Expression.value, readLiteral, hx, List.cons_append, run]
  rfl

theorem negate (h : Computes num p t) : Computes num (p ++ [.negate]) (.negate t) := by
  intro stack q
  rw [List.append_assoc, h, Expression.value]
  cases t.value num with
  | error e => rfl
  | ok x =>
    change run num (x :: stack) (.negate :: q) = _
    rw [run]
    rfl

theorem binary {op : Operator} (hl : Computes num p l) (hr : Computes num q r) :
    Computes num (p ++ q ++ [.apply op]) (.binary op l r) := by
  intro stack rest
  rw [List.append_assoc, List.append_assoc, hl, Expression.value_binary]
  cases l.value num with
  | error e => rfl
  | ok x =>
    change run num (x :: stack) (q ++ ([.apply op] ++ rest)) = _
    rw [hr]
    cases r.value num with
    | error e => rfl
    | ok y =>
      change run num (y :: x :: stack) (.apply op :: rest) = _
      rw [run]
      rfl

end Computes

/-- The instructions of waiting operators, in the order in which they are released. -/
def instructions (ws : List Waiting) : List (Instruction α) :=
  ws.filterMap Waiting.instruction?

/-- Operators that wait, none of which is below a level. -/
def WaitsAbove (n : Nat) (ws : List Waiting) : Prop :=
  ∀ w ∈ ws, w = .negate ∨ ∃ op, w = .operator op ∧ n ≤ op.level

/-- No operator of a level or above releases anything. -/
def Holds (α : Type) (n : Nat) (ws : List Waiting) : Prop :=
  ∀ op : Operator, n ≤ op.level → release op ws = (([] : List (Instruction α)), ws)

namespace WaitsAbove

variable {n : Nat} {ps ws : List Waiting}

theorem nil : WaitsAbove n [] := by
  simp [WaitsAbove]

/-- An operator releases all those that do not bind less tightly. -/
theorem release {op : Operator} (h : WaitsAbove n ps) (hop : op.level ≤ n) (hws : Holds α op.level ws) :
    Arithmetic.release op (ps ++ ws) = ((instructions ps : List (Instruction α)), ws) := by
  induction ps with
  | nil => exact hws op (Nat.le_refl _)
  | cons w ps ih =>
    obtain ⟨hw, hps⟩ := List.forall_mem_cons.1 h
    rcases hw with rfl | ⟨op', rfl, hop'⟩
    · rw [List.cons_append, Arithmetic.release, ih hps]
      rfl
    · rw [List.cons_append, Arithmetic.release, if_pos (by omega), ih hps]
      rfl

theorem closeGroup? (h : WaitsAbove n ps) (ws : List Waiting) :
    Arithmetic.closeGroup? (ps ++ .opening :: ws) = some ((instructions ps : List (Instruction α)), ws) := by
  induction ps with
  | nil => rfl
  | cons w ps ih =>
    obtain ⟨hw, hps⟩ := List.forall_mem_cons.1 h
    rcases hw with rfl | ⟨op, rfl, -⟩
    all_goals
      rw [List.cons_append, Arithmetic.closeGroup?, ih hps]
      rfl

theorem releaseAll (h : WaitsAbove n ps) : Arithmetic.releaseAll ps = .ok (instructions ps : List (Instruction α)) := by
  induction ps with
  | nil => rfl
  | cons w ps ih =>
    obtain ⟨hw, hps⟩ := List.forall_mem_cons.1 h
    rcases hw with rfl | ⟨op, rfl, -⟩
    all_goals
      rw [Arithmetic.releaseAll, ih hps]
      rfl

end WaitsAbove

private theorem programFrom_number (ws : List Waiting) (x : α) (rest : List (Token α)) :
    programFrom ws (.number x :: rest) = (programFrom ws rest).map ([.push x] ++ ·) := by
  rw [programFrom]
  rfl

/-- While the tokens of a tree go by, its program comes out up to the operators that wait on top in the end. -/
theorem Arranged.programFrom {n : Nat} {t : Expression} {ts : List (Token α)} (h : Arranged num n t ts)
    {ws : List Waiting} (hws : Holds α n ws) :
    ∃ out ps, WaitsAbove n ps ∧ Computes num (out ++ instructions ps) t ∧
      ∀ rest, Arithmetic.programFrom ws (ts ++ rest) = (Arithmetic.programFrom (ps ++ ws) rest).map (out ++ ·) := by
  induction h generalizing ws with
  | @literal n l x hx => exact ⟨[.push x], [], .nil, .literal hx, programFrom_number ws x⟩
  | @negateLiteral n l x hx => exact ⟨[.push (num.neg x)], [], .nil, .negateLiteral hx, programFrom_number ws _⟩
  | @negate n t ts _ ih =>
    -- no binary operator stands at the level of an operand
    have hhold : Holds α operandLevel (.negate :: ws) := fun op hop => absurd hop (Nat.not_le_of_lt op.level_lt)
    obtain ⟨out, ps, hps, hcomp, hprog⟩ := ih hhold
    refine ⟨out, ps ++ [.negate], fun w hw => ?_, ?_, fun rest => ?_⟩
    · rcases List.mem_append.1 hw with hw | hw
      · refine .inl ((hps w hw).resolve_right ?_)
        rintro ⟨op, -, hop⟩
        exact absurd hop (Nat.not_le_of_lt op.level_lt)
      · exact .inl (List.mem_singleton.1 hw)
    · have hout : out ++ instructions (ps ++ [.negate]) = (out ++ instructions ps) ++ [.negate] := by
        simp [instructions, Waiting.instruction?]
      rw [hout]
      exact hcomp.negate
    · rw [List.append_assoc]
      exact hprog rest
  | @binary n op l r ts us hn _ _ ihl ihr =>
    have hbelow : Holds α op.level ws := fun op' hop => hws op' (Nat.le_trans hn hop)
    obtain ⟨outl, pl, hpl, hl, hprogl⟩ := ihl hbelow
    have hrelease := hpl.release (Nat.le_refl _) hbelow
    have hhold : Holds α (op.level + 1) (.operator op :: ws) := fun op' hop => by
      rw [release, if_neg (by omega)]
    obtain ⟨outr, pr, hpr, hr, hprogr⟩ := ihr hhold
    refine ⟨outl ++ instructions pl ++ outr, pr ++ [.operator op], fun w hw => ?_, ?_, fun rest => ?_⟩
    · rcases List.mem_append.1 hw with hw | hw
      · exact (hpr w hw).imp_right fun ⟨op', heq, hop⟩ => ⟨op', heq, by omega⟩
      · exact .inr ⟨op, List.mem_singleton.1 hw, hn⟩
    · have hout : outl ++ instructions pl ++ outr ++ instructions (pr ++ [.operator op]) =
          (outl ++ instructions pl) ++ (outr ++ instructions pr) ++ [.apply op] := by
        simp [instructions, Waiting.instruction?]
      rw [hout]
      exact hl.binary hr
    · rw [List.append_assoc, hprogl, List.cons_append, Arithmetic.programFrom, hrelease]
      simp only
      rw [hprogr, map_map, map_map, List.append_assoc pr, List.singleton_append]
      congr 1
      funext q
      simp
  | @parentheses n t ts _ ih =>
    have hhold : Holds α 0 (.opening :: ws) := fun op _ => rfl
    obtain ⟨out, ps, hps, hcomp, hprog⟩ := ih hhold
    refine ⟨out ++ instructions ps, [], .nil, ?_, fun rest => ?_⟩
    · simpa [instructions] using hcomp
    · have hclose := hps.closeGroup? (α := α) ws
      rw [List.cons_append, Arithmetic.programFrom, List.append_assoc, hprog, List.cons_append, List.nil_append,
        Arithmetic.programFrom, hclose]
      simp only
      rw [map_map]
      congr 1
      funext q
      simp

/-! ### The value of a written expression -/

theorem Written.evaluateArithmetic_eq (hnum : num.ReadsLiterals) {n : Nat} {t : Expression} {s : Text}
    (h : Written n t s) : evaluateArithmetic num s = t.value num := by
  obtain ⟨ls, ts, hls, -, harr, hts⟩ := h.arranged hnum
  have hempty : Holds α n [] := fun op _ => rfl
  obtain ⟨out, ps, hps, hcomp, hprog⟩ := harr.programFrom hempty
  have htokens : tokens num (compact s) = .ok ts := by
    have hall := hts []
    rw [List.append_nil] at hall
    rw [tokens, hls]
    exact hall.trans (by simp [tokensAt, Except.map])
  have hprogram : program ts = .ok (out ++ instructions ps) := by
    have hall := hprog []
    rw [List.append_nil, List.append_nil] at hall
    rw [program, hall, Arithmetic.programFrom, hps.releaseAll]
    rfl
  have hne : (compact s).isEmpty = false := by
    rw [List.isEmpty_eq_false_iff]
    intro hnil
    rw [hnil] at hls
    obtain rfl : [] = ls := Except.ok.inj hls
    have hts : Except.ok [] = Except.ok (ts ++ []) := hts []
    exact harr.ne_nil (by simpa using (Except.ok.inj hts).symm)
  have hrun := hcomp [] []
  rw [List.append_nil] at hrun
  rw [evaluateArithmetic]
  change (if (compact s).isEmpty = true then _ else do run num [] (← program (← tokens num (compact s)))) = _
  rw [hne, htokens]
  change (do run num [] (← program ts)) = _
  rw [hprogram]
  refine hrun.trans ?_
  cases t.value num <;> rfl

/-- However an expression is written, the evaluator finds its value; it fails just if some operation divides by zero,
with the error of the first such operation in postorder. -/
theorem evaluateArithmetic_written (hnum : num.ReadsLiterals) {n : Nat} {t : Expression} {s : Text}
    (h : Written n t s) :
    evaluateArithmetic num s = t.value num ∧
      ∀ e, evaluateArithmetic num s = .error e ↔ t.postorder.findSome? (Expression.zeroDivision? num) = some e :=
  ⟨h.evaluateArithmetic_eq hnum, fun e => h.evaluateArithmetic_eq hnum ▸ t.value_eq_error_iff hnum e⟩

/-- A negated group and a negated literal, with blanks in between. -/
theorem evaluateArithmetic_written_negations :
    let two : Expression := .literal ⟨"2", by decide⟩
    let half : Expression := .literal ⟨".5", by decide⟩
    let three : Expression := .literal ⟨"3", by decide⟩
    let t : Expression := .binary .mul (.negate (.binary .add two half)) (.binary .pow three (.negate two))
    binary64.ReadsLiterals ∧ Written 0 t "-(2 + .5)*3^-2" ∧
      evaluateArithmetic binary64 "-(2 + .5)*3^-2" = t.value binary64 := by
  intro two half three t
  have hgroup : Written operandLevel (.binary .add two half) "(2 + .5)" :=
    .parentheses (.binary (Nat.zero_le _) (.blankBehind rfl (.literal _)) (.blankBefore rfl (.literal _)))
  have hpower : Written (Operator.mul.level + 1) (.binary .pow three (.negate two)) "3^-2" :=
    .binary (by decide) (.literal _) (.negate (.literal _))
  have h : Written 0 t "-(2 + .5)*3^-2" := .binary (Nat.zero_le _) (.negate hgroup) hpower
  exact ⟨binary64_readsLiterals, h, (evaluateArithmetic_written binary64_readsLiterals h).1⟩

end DirectiveEngine.Arithmetic
