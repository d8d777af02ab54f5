import DirectiveEngine.Proofs.Arithmetic.Error
import DirectiveEngine.Proofs.Arithmetic.Expression
import DirectiveEngine.Proofs.Text.Search
import DirectiveEngine.Proofs.Text.Trim

/-!
# Malformed expressions

A text without blanks, letters and ranges is an expression if it derives from the grammar `Derives`.  The evaluator
reads the operators of a text off a stack, which forgets where they stood, and only counts what is on the stack in the
end.  So a text that does not derive gets through if two operands stand side by side in it and an operator elsewhere
takes them both, and in no other way (`derives_iff_of_evaluate?_eq_ok`).

The count is the key: where every operand is parted from the next one by an operator, a text has at most one operand
more than operators, and has that one only if there is nothing else wrong with it (`sum_weight_le`).
-/

namespace DirectiveEngine.Arithmetic

variable {α : Type} {num : Numbers α} {s : Text}

/-! ### The grammar -/

inductive Derives : Text → Prop where
  | literal {l : Text} (h : IsLiteral l) : Derives l
  | negate {s : Text} (h : Derives s) : Derives ('-' :: s)
  | binary {s u : Text} (op : Operator) (hs : Derives s) (hu : Derives u) : Derives (s ++ op.symbol :: u)
  | parentheses {s : Text} (h : Derives s) : Derives ('(' :: (s ++ [')']))

/-- An expression holds a literal. -/
theorem Derives.exists_literalChar (h : Derives s) : ∃ c ∈ s, isLiteralChar c = true := by
  induction h with
  | literal hl =>
    obtain ⟨c, hc⟩ := List.exists_mem_of_ne_nil _ hl.ne_nil
    exact ⟨c, hc, hl.chars c hc⟩
  | negate _ ih | parentheses _ ih =>
    obtain ⟨c, hc, hlit⟩ := ih
    exact ⟨c, by simp [hc], hlit⟩
  | binary op _ _ ih _ =>
    obtain ⟨c, hc, hlit⟩ := ih
    exact ⟨c, by simp [hc], hlit⟩

def endsOperand (c : Char) : Bool :=
  c == ')' || isLiteralChar c

def startsOperand (c : Char) : Bool :=
  c == '(' || isLiteralChar c

/-- The end of an operand and the start of another one, which are not parts of one literal. -/
def Parts (c d : Char) : Prop :=
  endsOperand c = true ∧ startsOperand d = true ∧ ¬ (isLiteralChar c = true ∧ isLiteralChar d = true)

/-- Somewhere two operands stand side by side. -/
def Juxtaposed (s : Text) : Prop :=
  ∃ c d, Parts c d ∧ [c, d] <:+: s

theorem Juxtaposed.cons (c : Char) (h : Juxtaposed s) : Juxtaposed (c :: s) := by
  obtain ⟨a, b, hab, hs⟩ := h
  exact ⟨a, b, hab, List.infix_cons hs⟩

/-- Neighbours stand on one side of a character, or are that character and what stands next to it. -/
private theorem pair_infix_append_cons {a b : Text} {c d x : Char} (h : [c, d] <:+: a ++ x :: b) :
    [c, d] <:+: a ∨ (a ≠ [] ∧ d = x) ∨ (c = x ∧ b ≠ []) ∨ [c, d] <:+: b := by
  induction a with
  | nil =>
    rcases List.infix_cons_iff.1 h with h | h
    · obtain ⟨hc, hd⟩ := List.cons_prefix_cons.1 h
      refine .inr (.inr (.inl ⟨hc, ?_⟩))
      rintro rfl
      simp at hd
    · exact .inr (.inr (.inr h))
  | cons y a ih =>
    rcases List.infix_cons_iff.1 h with h | h
    · obtain ⟨hc, hd⟩ := List.cons_prefix_cons.1 h
      cases a with
      | nil => exact .inr (.inl ⟨by simp, (List.cons_prefix_cons.1 hd).1⟩)
      | cons z a =>
        obtain ⟨hz, -⟩ := List.cons_prefix_cons.1 hd
        exact .inl ⟨[], a, by rw [hc, hz]; rfl⟩
    · rcases ih h with h | ⟨-, h⟩ | h | h
      · exact .inl (List.infix_cons h)
      · exact .inr (.inl ⟨by simp, h⟩)
      · exact .inr (.inr (.inl h))
      · exact .inr (.inr (.inr h))

/-- No operator and no parenthesis around an expression parts two operands, and neither does a literal. -/
theorem Derives.not_juxtaposed (h : Derives s) : ¬ Juxtaposed s := by
  have hends (op : Operator) : endsOperand op.symbol = false := by cases op <;> decide
  have hstarts (op : Operator) : startsOperand op.symbol = false := by cases op <;> decide
  rintro ⟨c, d, hcd, hs⟩
  induction h with
  | literal hl =>
    exact hcd.2.2 ⟨hl.chars c (hs.subset (by simp)), hl.chars d (hs.subset (by simp))⟩
  | negate _ ih =>
    rcases pair_infix_append_cons (a := []) hs with h | ⟨h, -⟩ | ⟨rfl, -⟩ | h
    · simp at h
    · exact h rfl
    · exact absurd hcd.1 (by decide)
    · exact ih h
  | binary op _ _ ihs ihu =>
    rcases pair_infix_append_cons hs with h | ⟨-, rfl⟩ | ⟨rfl, -⟩ | h
    · exact ihs h
    · exact absurd hcd.2.1 (by simp [hstarts])
    · exact absurd hcd.1 (by simp [hends])
    · exact ihu h
  | parentheses _ ih =>
    rcases pair_infix_append_cons (a := []) hs with h | ⟨h, -⟩ | ⟨rfl, -⟩ | h
    · simp at h
    · exact h rfl
    · exact absurd hcd.1 (by decide)
    · rcases pair_infix_append_cons h with h | ⟨-, rfl⟩ | ⟨-, h⟩ | h
      · exact ih h
      · exact absurd hcd.2.1 (by decide)
      · exact h rfl
      · simp at h

/-! ### Operands and operators in turn -/

/-- Whether operands are parted in a list of lexemes; the first argument says that an operand may come next. -/
def Parted : Bool → List Lexeme → Prop
  | _, [] => True
  | due, .literal _ :: r => due = true ∧ Parted false r
  | due, .opening :: r => due = true ∧ Parted true r
  | _, .operator _ :: r => Parted true r
  | _, .closing :: r => Parted false r

private theorem parted_symbol {c : Char} {x : Lexeme} (hx : symbol? c = some x) {r : List Lexeme} {due : Bool}
    (hdue : due = false → startsOperand c = false) (hr : Parted (c != ')') r) : Parted due (x :: r) := by
  unfold symbol? at hx
  split at hx <;> simp only [Option.some.injEq, reduceCtorEq] at hx <;> subst hx
  case h_7 => exact ⟨by_contra fun h => absurd (hdue (Bool.eq_false_iff.2 h)) (by decide), hr⟩
  all_goals exact hr

private theorem exists_literal_of_lexemes {ls : List Lexeme} (h : lexemes s = .ok ls) {c : Char}
    (hc : c ∈ s.head?) (hl : isLiteralChar c = true) : ∃ l r, ls = .literal l :: r := by
  cases s with
  | nil => simp at hc
  | cons d s =>
    obtain rfl : d = c := Option.some.inj hc
    rw [lexemes, if_pos hl] at h
    obtain ⟨r, -, rfl⟩ := map_eq_ok h
    unfold consLiteral
    split <;> exact ⟨_, _, rfl⟩

/-- Where no operands stand side by side in a text, they are parted in its lexemes. -/
theorem parted_of_lexemes {ls : List Lexeme} (hls : lexemes s = .ok ls) (hs : ¬ Juxtaposed s) {due : Bool}
    (hdue : due = false → ∀ c ∈ s.head?, startsOperand c = false) : Parted due ls := by
  induction s generalizing ls due with
  | nil =>
    rw [lexemes, Except.ok.injEq] at hls
    rw [← hls]
    trivial
  | cons c s ih =>
    have hs' : ¬ Juxtaposed s := fun h => hs (h.cons c)
    have hnext : ∀ d ∈ s.head?, ¬ Parts c d := by
      intro d hd hcd
      obtain ⟨r, rfl⟩ : ∃ r, s = d :: r := by
        cases s with
        | nil => simp at hd
        | cons d' r => exact ⟨r, by rw [Option.some.inj hd]⟩
      exact hs ⟨c, d, hcd, [], r, rfl⟩
    unfold lexemes at hls
    split at hls
    · rename_i hc
      obtain ⟨r, hr, rfl⟩ := map_eq_ok hls
      have htrue : due = true := by
        by_contra h
        exact absurd (hdue (Bool.eq_false_iff.2 h) c rfl) (by simp [startsOperand, hc])
      unfold consLiteral
      split
      · have hliteral : Parted true (.literal _ :: _) := ih hr hs' (by simp)
        exact ⟨htrue, hliteral.2⟩
      · rename_i hnone
        refine ⟨htrue, ih hr hs' fun _ d hd => ?_⟩
        by_contra hstart
        refine hnext d hd ⟨by simp [endsOperand, hc], by simpa using hstart, fun h => ?_⟩
        obtain ⟨l, r', hl⟩ := exists_literal_of_lexemes hr hd h.2
        exact hnone l r' hl
    · rename_i hc
      split at hls
      · rename_i x hx
        obtain ⟨r, hr, rfl⟩ := map_eq_ok hls
        refine parted_symbol hx (fun h => hdue h c rfl) (ih hr hs' fun h d hd => ?_)
        obtain rfl : c = ')' := by simpa using h
        by_contra hstart
        exact hnext d hd ⟨by decide, by simpa using hstart, fun h => absurd h.1 (by decide)⟩
      · simp at hls

/-! ### Counting operands -/

/-- How many more numbers a stack holds behind an instruction. -/
def Instruction.weight : Instruction α → Int
  | .push _ => 1
  | .negate => 0
  | .apply _ => -1

def Waiting.weight : Waiting → Int
  | .operator _ => -1
  | .negate => 0
  | .opening => 0

def Token.weight : Token α → Int
  | .number _ => 1
  | .operator _ => -1
  | .negate => 0
  | .opening => 0
  | .closing => 0

/-- The weight of all that is in a list. -/
def programWeight (p : List (Instruction α)) : Int :=
  (p.map Instruction.weight).foldr (· + ·) 0

def waitingWeight (ws : List Waiting) : Int :=
  (ws.map Waiting.weight).foldr (· + ·) 0

def tokenWeight (ts : List (Token α)) : Int :=
  (ts.map Token.weight).foldr (· + ·) 0

@[simp]
private theorem programWeight_nil : programWeight ([] : List (Instruction α)) = 0 := rfl

@[simp]
private theorem programWeight_cons (i : Instruction α) (p : List (Instruction α)) :
    programWeight (i :: p) = i.weight + programWeight p := rfl

@[simp]
private theorem waitingWeight_cons (w : Waiting) (ws : List Waiting) :
    waitingWeight (w :: ws) = w.weight + waitingWeight ws := rfl

private theorem tokenWeight_cons (t : Token α) (ts : List (Token α)) :
    tokenWeight (t :: ts) = t.weight + tokenWeight ts := rfl

private theorem programWeight_append (p q : List (Instruction α)) :
    programWeight (p ++ q) = programWeight p + programWeight q := by
  induction p with
  | nil => exact (Int.zero_add _).symm
  | cons i p ih => rw [List.cons_append, programWeight_cons, ih, programWeight_cons, Int.add_assoc]

/-- A program that ends well leaves one number. -/
theorem weight_of_run {stack : List α} {p : List (Instruction α)} {x : α} (h : run num stack p = .ok x) :
    (stack.length : Int) + programWeight p = 1 := by
  fun_induction run num stack p with
  | case1 => simp
  | case2 => simp at h
  | case3 stack y p ih =>
    have := ih h
    simp only [List.length_cons, programWeight_cons, Instruction.weight] at this ⊢
    omega
  | case4 y stack p ih =>
    have := ih h
    simp only [List.length_cons, programWeight_cons, Instruction.weight] at this ⊢
    omega
  | case5 y z stack op p ih =>
    obtain ⟨v, -, hv⟩ := bind_eq_ok h
    have := ih v hv
    simp only [List.length_cons, programWeight_cons, Instruction.weight] at this ⊢
    omega
  | case6 => simp at h

/-- Closing parentheses close groups opened before, of which a number is open at the start and none in the end. -/
def Closes : Nat → List (Token α) → Prop
  | n, [] => n = 0
  | n, .opening :: r => Closes (n + 1) r
  | 0, .closing :: _ => False
  | n + 1, .closing :: r => Closes n r
  | n, _ :: r => Closes n r

/-- What an operator releases and what it leaves waiting is what waited. -/
private theorem release_weight (op : Operator) (ws : List Waiting) :
    programWeight (release (α := α) op ws).1 + waitingWeight (release (α := α) op ws).2 = waitingWeight ws ∧
      (release (α := α) op ws).2.count .opening = ws.count .opening := by
  induction ws with
  | nil => exact ⟨rfl, rfl⟩
  | cons w ws ih =>
    obtain ⟨hweight, hopen⟩ := ih
    cases w with
    | opening => simp [release]
    | negate => simpa [release, Instruction.weight, Waiting.weight, hopen] using hweight
    | operator w =>
      rw [release]
      split
      · simp only [programWeight_cons, waitingWeight_cons, Instruction.weight, Waiting.weight]
        exact ⟨by omega, by simpa using hopen⟩
      · simp

private theorem closeGroup?_weight {ws : List Waiting} {r : List (Instruction α) × List Waiting}
    (h : closeGroup? ws = some r) :
    programWeight r.1 + waitingWeight r.2 = waitingWeight ws ∧ ws.count .opening = r.2.count .opening + 1 := by
  induction ws generalizing r with
  | nil => simp [closeGroup?] at h
  | cons w ws ih =>
    cases w with
    | opening =>
      obtain rfl : ([], ws) = r := by simpa [closeGroup?] using h
      simp [Waiting.weight]
    | negate | operator w =>
      rw [closeGroup?] at h
      obtain ⟨r', hr, rfl⟩ := Option.map_eq_some_iff.1 h
      obtain ⟨hweight, hopen⟩ := ih hr
      simp only [programWeight_cons, waitingWeight_cons, Instruction.weight, Waiting.weight]
      exact ⟨by omega, by simpa using hopen⟩

private theorem releaseAll_weight {ws : List Waiting} {p : List (Instruction α)} (h : releaseAll ws = .ok p) :
    programWeight p = waitingWeight ws ∧ ws.count .opening = 0 := by
  induction ws generalizing p with
  | nil =>
    obtain rfl : [] = p := by simpa [releaseAll] using h
    exact ⟨rfl, rfl⟩
  | cons w ws ih =>
    cases w with
    | opening => simp [releaseAll] at h
    | negate | operator w =>
      rw [releaseAll] at h
      obtain ⟨p', hp, rfl⟩ := map_eq_ok h
      obtain ⟨hweight, hopen⟩ := ih hp
      simp only [programWeight_cons, waitingWeight_cons, Instruction.weight, Waiting.weight]
      exact ⟨by omega, by simpa using hopen⟩

/-- The program has the weight of the tokens, and every group is closed. -/
theorem programFrom_weight {ws : List Waiting} {ts : List (Token α)} {p : List (Instruction α)}
    (h : programFrom ws ts = .ok p) :
    programWeight p = tokenWeight ts + waitingWeight ws ∧ Closes (ws.count .opening) ts := by
  fun_induction programFrom ws ts generalizing p with
  | case1 ws =>
    obtain ⟨hweight, hopen⟩ := releaseAll_weight h
    exact ⟨by simp [tokenWeight, hweight], hopen⟩
  | case2 ws x r ih =>
    obtain ⟨q, hq, rfl⟩ := map_eq_ok h
    obtain ⟨hweight, hclose⟩ := ih hq
    refine ⟨?_, hclose⟩
    rw [tokenWeight_cons, ← List.singleton_append, programWeight_append, hweight, Int.add_assoc]
    rfl
  | case3 ws r ih =>
    obtain ⟨hweight, hclose⟩ := ih h
    rw [waitingWeight_cons] at hweight
    rw [tokenWeight_cons, hweight]
    exact ⟨by simp [Token.weight, Waiting.weight], by simpa [Closes] using hclose⟩
  | case4 ws r ih =>
    obtain ⟨hweight, hclose⟩ := ih h
    rw [waitingWeight_cons] at hweight
    rw [tokenWeight_cons, hweight]
    exact ⟨by simp [Token.weight, Waiting.weight], by simpa [Closes] using hclose⟩
  | case5 ws op r released =>
    rename_i ih
    obtain ⟨q, hq, rfl⟩ := map_eq_ok h
    obtain ⟨hweight, hclose⟩ := ih hq
    have hreleased : programWeight released.1 + waitingWeight released.2 = waitingWeight ws := (release_weight op ws).1
    have hopen : released.2.count .opening = ws.count .opening := (release_weight op ws).2
    rw [waitingWeight_cons] at hweight
    rw [programWeight_append, tokenWeight_cons, hweight]
    simp only [Token.weight, Waiting.weight]
    refine ⟨by omega, ?_⟩
    rw [← hopen]
    simpa [Closes] using hclose
  | case6 => simp at h
  | case7 ws r released hgroup ih =>
    obtain ⟨q, hq, rfl⟩ := map_eq_ok h
    obtain ⟨hweight, hclose⟩ := ih hq
    obtain ⟨hreleased, hopen⟩ := closeGroup?_weight hgroup
    rw [programWeight_append, tokenWeight_cons, hweight, hopen]
    simp only [Token.weight]
    exact ⟨by omega, hclose⟩

private theorem cons_eq_ok {β : Type} {t : β} {m : Except Error (List β)} {ts : List β}
    (h : (do return t :: (← m)) = Except.ok ts) : ∃ r, m = .ok r ∧ ts = t :: r := by
  obtain ⟨r, hr, h⟩ := bind_eq_ok h
  exact ⟨r, hr, (Except.ok.inj h).symm⟩

/-- Where operands are parted, there is at most one more of them than there are operators. -/
theorem tokenWeight_le {due : Bool} {ls : List Lexeme} {ts : List (Token α)} (h : tokensAt num due ls = .ok ts)
    (hls : Parted due ls) : tokenWeight ts ≤ if due then 1 else 0 := by
  fun_induction tokensAt num due ls generalizing ts with
  | case1 due =>
    obtain rfl := Except.ok.inj h
    cases due <;> simp [tokenWeight]
  | case2 due l r ih =>
    obtain ⟨x, -, h⟩ := bind_eq_ok h
    obtain ⟨us, hus, rfl⟩ := cons_eq_ok h
    obtain ⟨rfl, hr⟩ := hls
    have := ih hus hr
    rw [tokenWeight_cons]
    simp only [Token.weight, Bool.false_eq_true, if_false, if_true] at this ⊢
    omega
  | case3 l r ih =>
    obtain ⟨x, -, h⟩ := bind_eq_ok h
    obtain ⟨us, hus, rfl⟩ := cons_eq_ok h
    have := ih hus hls.2
    rw [tokenWeight_cons]
    simp only [Token.weight, Bool.false_eq_true, if_false, if_true] at this ⊢
    omega
  | case4 r _ ih =>
    obtain ⟨us, hus, rfl⟩ := cons_eq_ok h
    have := ih hus hls
    rw [tokenWeight_cons]
    simp only [Token.weight, if_true] at this ⊢
    omega
  | case5 due op r _ _ ih =>
    obtain ⟨us, hus, rfl⟩ := cons_eq_ok h
    have := ih hus hls
    rw [tokenWeight_cons]
    cases due <;> simp only [Token.weight, Bool.false_eq_true, if_false, if_true] at this ⊢ <;> omega
  | case6 due r ih =>
    obtain ⟨us, hus, rfl⟩ := cons_eq_ok h
    obtain ⟨rfl, hr⟩ := hls
    have := ih hus hr
    rw [tokenWeight_cons]
    simp only [Token.weight, if_true] at this ⊢
    omega
  | case7 due r ih =>
    obtain ⟨us, hus, rfl⟩ := cons_eq_ok h
    have := ih hus hls
    rw [tokenWeight_cons]
    cases due <;> simp only [Token.weight, Bool.false_eq_true, if_false, if_true] at this ⊢ <;> omega

/-! ### From counts to derivations -/

/-- A text behind which an operand may come, with a number of groups open. -/
inductive Opened : Nat → Text → Prop where
  | start : Opened 0 []
  | negate {n : Nat} {a : Text} (h : Opened n a) : Opened n (a ++ ['-'])
  | parenthesis {n : Nat} {a : Text} (h : Opened n a) : Opened (n + 1) (a ++ ['('])
  | operator {n : Nat} {a s : Text} (h : Opened n a) (hs : Derives s) (op : Operator) :
      Opened n (a ++ s ++ [op.symbol])

/-- A text that ends with an operand. -/
def Filled (n : Nat) (a : Text) : Prop :=
  ∃ b s, a = b ++ s ∧ Opened n b ∧ Derives s

/-- The last operand takes what stands before it up to the innermost open group, which a parenthesis closes. -/
theorem Filled.close {n : Nat} {a : Text} (h : Filled (n + 1) a) : Filled n (a ++ [')']) := by
  obtain ⟨b, s, rfl, hb, hs⟩ := h
  generalize hm : n + 1 = m at hb
  induction hb generalizing s with
  | start => omega
  | @negate _ a _ ih =>
    have hfilled := ih _ (.negate hs) hm
    simpa using hfilled
  | @parenthesis k a ha _ =>
    obtain rfl : n = k := by omega
    exact ⟨a, _, by simp, ha, .parentheses hs⟩
  | @operator _ a u _ hu op ih =>
    have hfilled := ih _ (.binary op hu hs) hm
    simpa using hfilled

theorem Filled.derives {a : Text} (h : Filled 0 a) : Derives a := by
  obtain ⟨b, s, rfl, hb, hs⟩ := h
  generalize hm : 0 = m at hb
  induction hb generalizing s with
  | start => exact hs
  | @negate _ a _ ih =>
    have hderives := ih _ (.negate hs) hm
    simpa using hderives
  | parenthesis => omega
  | @operator _ a u _ hu op ih =>
    have hderives := ih _ (.binary op hu hs) hm
    simpa using hderives

theorem Opened.fill {n : Nat} {a s : Text} (h : Opened n a) (hs : Derives s) : Filled n (a ++ s) :=
  ⟨a, s, rfl, h, hs⟩

theorem Filled.operator {n : Nat} {a : Text} (h : Filled n a) (op : Operator) : Opened n (a ++ [op.symbol]) := by
  obtain ⟨b, s, rfl, hb, hs⟩ := h
  exact .operator hb hs op

/-- A text of which the rest is to complete an expression. -/
def Unfinished (due : Bool) (n : Nat) (a : Text) : Prop :=
  if due then Opened n a else Filled n a

/-- Parted lexemes with as many operands as possible, whose groups are closed, complete an expression. -/
theorem Unfinished.derives {due : Bool} {ls : List Lexeme} {ts : List (Token α)}
    (hnum : ∀ l, .literal l ∈ ls → ∀ x, readLiteral num l = .ok x → IsLiteral l) (h : tokensAt num due ls = .ok ts)
    (hls : Parted due ls) {n : Nat} (hclose : Closes n ts) (hweight : tokenWeight ts = if due then 1 else 0)
    {a : Text} (ha : Unfinished due n a) : Derives (a ++ ls.flatMap Lexeme.text) := by
  fun_induction tokensAt num due ls generalizing ts n a with
  | case1 due =>
    obtain rfl := Except.ok.inj h
    cases due with
    | true => simp [tokenWeight] at hweight
    | false =>
      obtain rfl : n = 0 := hclose
      simpa using Filled.derives ha
  | case2 due l r ih =>
    obtain ⟨x, hx, h⟩ := bind_eq_ok h
    obtain ⟨us, hus, rfl⟩ := cons_eq_ok h
    obtain ⟨rfl, hr⟩ := hls
    have hl := hnum l List.mem_cons_self x hx
    have hfilled : Filled n (a ++ l) := Opened.fill ha (.literal hl)
    have hrest : tokenWeight us = 0 := by
      simp only [tokenWeight_cons, Token.weight, if_true] at hweight
      omega
    have hderives := ih (fun l' hl' => hnum l' (List.mem_cons_of_mem _ hl')) hus hr hclose hrest hfilled
    simpa [Lexeme.text] using hderives
  | case3 l r ih =>
    obtain ⟨x, hx, h⟩ := bind_eq_ok h
    obtain ⟨us, hus, rfl⟩ := cons_eq_ok h
    have hl := hnum l (by simp) x hx
    have hfilled : Filled n (a ++ '-' :: l) := Opened.fill ha (.negate (.literal hl))
    have hrest : tokenWeight us = 0 := by
      simp only [tokenWeight_cons, Token.weight, if_true] at hweight
      omega
    have hderives := ih (fun l' hl' => hnum l' (by simp [hl'])) hus hls.2 hclose hrest hfilled
    simpa [Lexeme.text, Operator.symbol] using hderives
  | case4 r _ ih =>
    obtain ⟨us, hus, rfl⟩ := cons_eq_ok h
    have hrest : tokenWeight us = 1 := by
      simp only [tokenWeight_cons, Token.weight, if_true] at hweight
      omega
    have hderives := ih (fun l' hl' => hnum l' (List.mem_cons_of_mem _ hl')) hus hls hclose hrest (Opened.negate ha)
    simpa [Lexeme.text, Operator.symbol] using hderives
  | case5 due op r _ _ ih =>
    obtain ⟨us, hus, rfl⟩ := cons_eq_ok h
    have hle := tokenWeight_le hus hls
    simp only [tokenWeight_cons, Token.weight, if_true] at hweight hle
    cases due with
    | true =>
      -- the operator lacks an operand, which no other operand makes up for
      simp only [if_true] at hweight
      omega
    | false =>
      simp only [Bool.false_eq_true, if_false] at hweight
      have hderives := ih (fun l' hl' => hnum l' (List.mem_cons_of_mem _ hl')) hus hls hclose
        (by simp only [if_true]; omega) (Filled.operator ha op)
      simpa [Lexeme.text] using hderives
  | case6 due r ih =>
    obtain ⟨us, hus, rfl⟩ := cons_eq_ok h
    obtain ⟨rfl, hr⟩ := hls
    have hrest : tokenWeight us = 1 := by
      simp only [tokenWeight_cons, Token.weight, if_true] at hweight
      omega
    have hderives := ih (fun l' hl' => hnum l' (List.mem_cons_of_mem _ hl')) hus hr hclose hrest (Opened.parenthesis ha)
    simpa [Lexeme.text] using hderives
  | case7 due r ih =>
    obtain ⟨us, hus, rfl⟩ := cons_eq_ok h
    have hle := tokenWeight_le hus hls
    simp only [tokenWeight_cons, Token.weight, Bool.false_eq_true, if_false] at hweight hle
    cases due with
    | true =>
      -- nothing stands between the parentheses, or an operator lacks its operand
      simp only [if_true] at hweight
      omega
    | false =>
      simp only [Bool.false_eq_true, if_false] at hweight
      cases n with
      | zero => exact hclose.elim
      | succ n =>
        have hderives := ih (fun l' hl' => hnum l' (List.mem_cons_of_mem _ hl')) hus hls hclose
          (by simp only [Bool.false_eq_true, if_false]; omega) (Filled.close ha)
        simpa [Lexeme.text] using hderives

/-! ### Texts without words -/

private theorem evaluateNumber_of_letterless (hletter : ∀ c ∈ s, c.isAlpha = false) :
    evaluateNumber num s = evaluateArithmetic num s := by
  have hnone : findCall? s = none := findCall?_eq_none fun c hc =>
    startsName_eq_false (P := fun d => !d.isAlpha) (by decide) (by simp [hletter c hc])
  rw [evaluateNumber, substituteCalls_of_none hnone]
  rfl

/-- A single word without letters and ranges is arithmetic. -/
theorem evaluate?_eq_map (hblank : ∀ c ∈ s, isBlank c = false) (hletter : ∀ c ∈ s, c.isAlpha = false)
    (hrange : ¬ (".." : Text) <:+: s) : evaluate? num s = (evaluateArithmetic num s).map num.text := by
  rw [evaluate?, Text.trim_of_not_isBlank hblank, Text.splitAll_of_not_infix hrange]
  simp only [evaluateNumber_of_letterless hletter]

theorem compact_of_not_isBlank (hblank : ∀ c ∈ s, isBlank c = false) : compact s = s :=
  List.filter_eq_self.2 fun c hc => by simp [hblank c hc]

/-- An accepted text in which no operands stand side by side derives from the grammar. -/
theorem derives_of_evaluateArithmetic {x : Float} (h : evaluateArithmetic binary64 s = .ok x)
    (hblank : ∀ c ∈ s, isBlank c = false) (hs : ¬ Juxtaposed s) : Derives s := by
  obtain ⟨ls, ts, p, hls, hts, hp, hrun⟩ := evaluateArithmetic_eq_ok h
  rw [compact_of_not_isBlank hblank] at hls
  have hliteral : ∀ l, .literal l ∈ ls → ∀ x, readLiteral binary64 l = .ok x → IsLiteral l := by
    intro l hl x hx
    refine (isSome_read?_iff (isLiteralChar_of_lexemes hls hl)).1 ?_
    unfold readLiteral at hx
    split at hx
    · rename_i y hy
      exact Option.isSome_iff_exists.2 ⟨y, hy⟩
    · simp at hx
  obtain ⟨hweight, hclose⟩ := programFrom_weight hp
  have hone := weight_of_run hrun
  have hderives := Unfinished.derives hliteral hts (parted_of_lexemes hls hs (by simp)) (n := 0) hclose
    (by
      simp only [List.length_nil, waitingWeight, List.map_nil, List.foldr_nil] at hweight hone
      simp only [if_true]
      omega) (a := []) Opened.start
  rwa [List.nil_append, flatMap_text_of_lexemes hls] at hderives

/-- Of the accepted texts just those derive in which no operands stand side by side; so a text that does not derive is
told as an error, or two of its operands stand side by side. -/
theorem derives_iff_of_evaluate?_eq_ok (hblank : ∀ c ∈ s, isBlank c = false) (hletter : ∀ c ∈ s, c.isAlpha = false)
    (hrange : ¬ (".." : Text) <:+: s) :
    (∀ v, evaluate? binary64 s = .ok v → (Derives s ↔ ¬ Juxtaposed s)) ∧
      (¬ Derives s → ¬ Juxtaposed s → ∃ e : Error, evaluate binary64 s = "ERROR: " ++ e.message) := by
  have haccepted : ∀ v, evaluate? binary64 s = .ok v → ¬ Juxtaposed s → Derives s := by
    intro v hv hs
    rw [evaluate?_eq_map hblank hletter hrange] at hv
    obtain ⟨x, hx, -⟩ := map_eq_ok hv
    exact derives_of_evaluateArithmetic hx hblank hs
  refine ⟨fun v hv => ⟨Derives.not_juxtaposed, haccepted v hv⟩, fun hno hs => ?_⟩
  unfold evaluate
  cases hv : evaluate? binary64 s with
  | ok v => exact absurd (haccepted v hv hs) hno
  | error e => exact ⟨e, rfl⟩

/-- An expression that is accepted, and an empty group that is not. -/
theorem derives_iff_of_evaluate?_eq_ok_groups :
    (∃ v, evaluate? binary64 "-(2)*3" = .ok v ∧ (Derives "-(2)*3" ↔ ¬ Juxtaposed "-(2)*3")) ∧
      ∃ e : Error, evaluate binary64 "()" = "ERROR: " ++ e.message := by
  have hnone {p : Char → Bool} {s : Text} (h : s.any p = false) : ∀ c ∈ s, p c = false :=
    fun c hc => by simpa using List.any_eq_false.1 h c hc
  refine ⟨⟨_, rfl, (derives_iff_of_evaluate?_eq_ok (hnone rfl) (hnone rfl) (by decide)).1 _ rfl⟩, ?_⟩
  refine (derives_iff_of_evaluate?_eq_ok (hnone rfl) (hnone rfl) (by decide)).2 (fun h => ?_) ?_
  · obtain ⟨c, hc, hliteral⟩ := h.exists_literalChar
    have hno : isLiteralChar c = false := hnone rfl c hc
    rw [hliteral] at hno
    exact absurd hno (by decide)
  · rintro ⟨c, d, ⟨hc, -⟩, hs⟩
    obtain rfl : c = '(' := (List.cons_eq_cons.1 (hs.eq_of_length rfl)).1
    exact absurd hc (by decide)

/-- Two groups side by side are added by an operator behind them. -/
theorem evaluate?_juxtaposed_groups :
    evaluate? binary64 "(1)(2)+" = .ok (floatText (Binary64.ofDecimal false 1 0 + Binary64.ofDecimal false 2 0)) ∧
      ¬ Derives "(1)(2)+" := by
  have hs : Juxtaposed "(1)(2)+" := ⟨')', '(', ⟨rfl, rfl, by decide⟩, ['(', '1'], ['2', ')', '+'], rfl⟩
  exact ⟨rfl, fun h => h.not_juxtaposed hs⟩

end DirectiveEngine.Arithmetic
