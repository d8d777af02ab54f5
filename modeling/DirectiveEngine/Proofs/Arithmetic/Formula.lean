import DirectiveEngine.Proofs.Arithmetic.Call
import DirectiveEngine.Proofs.Arithmetic.Error
import DirectiveEngine.Proofs.Arithmetic.Printed

/-!
# Formulas

A formula is an expression tree with calls.  Its value is that of a tree in which the printed value of each call is
read again (`Formula.value`).  The evaluator works on the text instead: it puts printed values where calls stand,
innermost first, and then evaluates what is left (`Formula.Written.evaluateNumber_eq`).

The proof replaces one call after the other inside a text that stays what it is on both sides (`Becomes`).  In front
there may be the names of calls that are still open, and none of them is found before the calls in its argument are
gone (`Leads`).
-/

namespace DirectiveEngine.Arithmetic

variable {α : Type} {num : Numbers α} {c : Char} {a b p q s s' s'' t u w : Text} {k l n : Nat}

/-! ### Trees with calls -/

inductive Formula where
  | literal (l : Literal)
  | negate (t : Formula)
  | binary (op : Operator) (left right : Formula)
  | call (f : Function) (argument : Formula)

/-- The number that a printed number is read as. -/
def Numbers.reread? (num : Numbers α) (x : α) : Option α :=
  (printed? (num.text x)).bind fun e => (e.value num).toOption

namespace Formula

/-- The value of a tree, in which calls are printed and read again. -/
def value (num : Numbers α) : Formula → Option α
  | literal l => num.read? l.1
  | negate t => (t.value num).map num.neg
  | binary .add l r => do return num.add (← l.value num) (← r.value num)
  | binary .sub l r => do return num.sub (← l.value num) (← r.value num)
  | binary .mul l r => do return num.mul (← l.value num) (← r.value num)
  | binary .pow l r => do return num.pow (← l.value num) (← r.value num)
  | binary .div l r => do
    let x ← l.value num
    let y ← r.value num
    if num.isZero y then none else some (num.div x y)
  | binary .mod l r => do
    let x ← l.value num
    let y ← r.value num
    if num.isZero y then none else some (num.rem x y)
  | call .sqrt t => do num.reread? (num.sqrt (← t.value num))
  | call .int t => do num.reread? (num.trunc (← t.value num))
  | call .round t => do num.reread? (num.round (← t.value num))

/-- The evaluator applies the operation of the tree. -/
theorem value_binary (op : Operator) (l r : Formula) :
    (binary op l r).value num =
      l.value num >>= fun x => r.value num >>= fun y => (num.binary op x y).toOption := by
  cases op
  case div | mod =>
    simp only [value, Numbers.binary]
    congr! 4
    split <;> rfl
  all_goals rfl

/-- The evaluator calls the function of the tree. -/
theorem value_call (f : Function) (t : Formula) :
    (call f t).value num = t.value num >>= fun x => num.reread? (num.call f x) := by
  cases f <;> rfl

/-- All subformulas, each behind its operands. -/
def postorder : Formula → List Formula
  | literal l => [literal l]
  | negate t => t.postorder ++ [negate t]
  | binary op l r => l.postorder ++ r.postorder ++ [binary op l r]
  | call f t => t.postorder ++ [call f t]

/-- Both operands have values, and the operation at the root divides by zero. -/
def DividesByZero (num : Numbers α) : Formula → Prop
  | binary op l r =>
    (op = .div ∨ op = .mod) ∧ (l.value num).isSome ∧ ∃ y, r.value num = some y ∧ num.isZero y = true
  | _ => False

/-- The number of calls. -/
def calls : Formula → Nat
  | literal _ => 0
  | negate t => t.calls
  | binary _ l r => l.calls + r.calls
  | call _ t => t.calls + 1

/-- The expression that is left when all calls are replaced. -/
def replaced (num : Numbers α) : Formula → Option Expression
  | literal l => some (.literal l)
  | negate t => (t.replaced num).map .negate
  | binary op l r => do
    let el ← l.replaced num
    let er ← r.replaced num
    some (.binary op el er)
  | call f t => do
    let e ← t.replaced num
    let x ← (e.value num).toOption
    printed? (num.text (num.call f x))

/-- Replacing the calls does not change the value. -/
theorem value_eq (t : Formula) : t.value num = (t.replaced num).bind fun e => (e.value num).toOption := by
  induction t with
  | literal l =>
    rw [value, replaced, Option.bind_some, Expression.value, readLiteral]
    cases num.read? l.1 <;> rfl
  | negate t ih =>
    rw [value, replaced, ih]
    cases t.replaced num with
    | none => rfl
    | some e =>
      simp only [Option.bind_some, Option.map_some, Expression.value]
      cases e.value num <;> rfl
  | binary op l r ihl ihr =>
    rw [value_binary, replaced, ihl, ihr]
    cases l.replaced num with
    | none => rfl
    | some el =>
      cases r.replaced num with
      | none => cases hl : el.value num <;> simp [hl, Except.toOption]
      | some er =>
        simp only [Option.bind_eq_bind, Option.bind_some, Expression.value_binary]
        cases el.value num <;> cases er.value num <;> rfl
  | call f t ih =>
    rw [value_call, replaced, ih]
    cases t.replaced num with
    | none => rfl
    | some e =>
      simp only [Option.bind_eq_bind, Option.bind_some]
      cases e.value num <;> rfl

/-- A tree has a value if its calls have printable ones and no operation divides by zero. -/
theorem isSome_value (hnum : num.ReadsLiterals) {t : Formula}
    (hcall : ∀ f u x, call f u ∈ t.postorder → u.value num = some x → (num.reread? (num.call f x)).isSome)
    (hzero : ∀ u ∈ t.postorder, ¬ u.DividesByZero num) : (t.value num).isSome := by
  induction t with
  | literal l => exact hnum l.1 l.2
  | negate t ih =>
    simp only [postorder, List.mem_append] at hcall hzero
    rw [value, Option.isSome_map]
    exact ih (fun f u x hu => hcall f u x (.inl hu)) fun u hu => hzero u (.inl hu)
  | binary op l r ihl ihr =>
    simp only [postorder, List.mem_append] at hcall hzero
    obtain ⟨x, hx⟩ := Option.isSome_iff_exists.1
      (ihl (fun f u x hu => hcall f u x (.inl (.inl hu))) fun u hu => hzero u (.inl (.inl hu)))
    obtain ⟨y, hy⟩ := Option.isSome_iff_exists.1
      (ihr (fun f u x hu => hcall f u x (.inl (.inr hu))) fun u hu => hzero u (.inl (.inr hu)))
    have hdivides := hzero (binary op l r) (.inr (List.mem_singleton.2 rfl))
    have hnonzero : op = .div ∨ op = .mod → num.isZero y = false := fun hop => by
      by_contra hy0
      exact hdivides ⟨hop, Option.isSome_of_eq_some hx, y, hy, Bool.not_eq_false _ ▸ hy0⟩
    rw [value_binary, hx, hy]
    cases op <;> simp_all [Numbers.binary, Except.toOption]
  | call f t ih =>
    simp only [postorder, List.mem_append] at hcall hzero
    obtain ⟨x, hx⟩ := Option.isSome_iff_exists.1
      (ih (fun f u x hu => hcall f u x (.inl hu)) fun u hu => hzero u (.inl hu))
    rw [value_call, hx]
    exact hcall f t x (.inr (List.mem_singleton.2 rfl)) hx

/-- A tree has a value only if all its parts have. -/
theorem isSome_value_of_mem_postorder {t u : Formula} (h : (t.value num).isSome) (hu : u ∈ t.postorder) :
    (u.value num).isSome := by
  induction t with
  | literal l => rwa [List.mem_singleton.1 hu]
  | negate t ih =>
    rcases List.mem_append.1 hu with hu | hu
    · exact ih (by simpa [value] using h) hu
    · rwa [List.mem_singleton.1 hu]
  | binary op l r ihl ihr =>
    simp only [postorder, List.mem_append, List.mem_singleton] at hu
    obtain ⟨v, hv⟩ := Option.isSome_iff_exists.1 h
    rw [value_binary] at hv
    obtain ⟨x, hx, hv⟩ := Option.bind_eq_some_iff.1 hv
    obtain ⟨y, hy, -⟩ := Option.bind_eq_some_iff.1 hv
    rcases hu with (hu | hu) | rfl
    · exact ihl (Option.isSome_of_eq_some hx) hu
    · exact ihr (Option.isSome_of_eq_some hy) hu
    · exact h
  | call f t ih =>
    rcases List.mem_append.1 hu with hu | hu
    · obtain ⟨v, hv⟩ := Option.isSome_iff_exists.1 h
      rw [value_call] at hv
      obtain ⟨x, hx, -⟩ := Option.bind_eq_some_iff.1 hv
      exact ih (Option.isSome_of_eq_some hx) hu
    · rwa [List.mem_singleton.1 hu]

end Formula

/-! ### Written formulas -/

/-- A text for a formula, where only operators of a level or above may stand without parentheses.  In the argument of
a call, which is told by `inside`, no parentheses but those of calls may stand. -/
inductive Formula.Written : Bool → Nat → Formula → Text → Prop where
  | literal {inside : Bool} {n : Nat} (l : Literal) : Formula.Written inside n (.literal l) l.1
  | negate {inside : Bool} {n : Nat} {t : Formula} {s : Text} (h : Formula.Written inside operandLevel t s) :
      Formula.Written inside n (.negate t) ('-' :: s)
  | binary {inside : Bool} {n : Nat} {op : Operator} {l r : Formula} {s u : Text} (hn : n ≤ op.level)
      (hl : Formula.Written inside op.level l s) (hr : Formula.Written inside (op.level + 1) r u) :
      Formula.Written inside n (.binary op l r) (s ++ op.symbol :: u)
  | parentheses {n : Nat} {t : Formula} {s : Text} (h : Formula.Written false 0 t s) :
      Formula.Written false n t ('(' :: (s ++ [')']))
  | call {inside : Bool} {n : Nat} {f : Function} {t : Formula} {w s : Text} (hw : Text.isBlankText w = true)
      (h : Formula.Written true 0 t s) : Formula.Written inside n (.call f t) (f.name ++ (w ++ '(' :: (s ++ [')'])))
  | blankBefore {inside : Bool} {n : Nat} {t : Formula} {s : Text} {c : Char} (hc : isBlank c = true)
      (h : Formula.Written inside n t s) : Formula.Written inside n t (c :: s)
  | blankBehind {inside : Bool} {n : Nat} {t : Formula} {s : Text} {c : Char} (hc : isBlank c = true)
      (h : Formula.Written inside n t s) : Formula.Written inside n t (s ++ [c])

/-- The calls of a text that formulas are written with are no more than the parentheses in it. -/
theorem Formula.Written.calls_le {inside : Bool} {t : Formula} (h : t.Written inside n s) : t.calls ≤ s.count '(' := by
  induction h with
  | literal l => exact Nat.zero_le _
  | negate _ ih | blankBefore _ _ ih => exact Nat.le_trans ih (List.Sublist.count_le _ (List.sublist_cons_self _ _))
  | binary _ _ _ ihl ihr =>
    rw [Formula.calls, List.count_append]
    exact Nat.add_le_add ihl (Nat.le_trans ihr (List.Sublist.count_le _ (List.sublist_cons_self _ _)))
  | parentheses _ ih | blankBehind _ _ ih =>
    simp only [List.count_cons, List.count_append]
    omega
  | call _ _ ih =>
    simp only [Formula.calls, List.count_append, List.count_cons_self]
    omega

/-! ### Texts without calls -/

/-- The first parenthesis in the text opens a group. -/
def Opens (u : Text) : Prop :=
  ∃ v r, Ungrouped v ∧ u = v ++ '(' :: r

theorem Opens.prepend (ha : Ungrouped a) (hu : Opens u) : Opens (a ++ u) := by
  obtain ⟨v, r, hv, rfl⟩ := hu
  exact ⟨a ++ v, r, ha.append hv, (List.append_assoc ..).symm⟩

theorem Opens.append (ha : Opens a) (u : Text) : Opens (a ++ u) := by
  obtain ⟨v, r, hv, rfl⟩ := ha
  exact ⟨v, r ++ u, hv, by simp⟩

theorem opens_group (s : Text) : Opens ('(' :: s) :=
  ⟨[], s, by simp [Ungrouped], rfl⟩

private theorem ungrouped_of_isLiteralChar (h : ∀ c ∈ s, isLiteralChar c = true) : Ungrouped s := by
  intro c hc
  have hchar := h c hc
  constructor
  all_goals
    rintro rfl
    exact absurd hchar (by decide)

private theorem ungrouped_symbol (op : Operator) : Ungrouped [op.symbol] := by
  cases op <;> decide

private theorem ungrouped_blank (hc : isBlank c = true) : Ungrouped [c] :=
  ungrouped_of_isBlankText (by simpa [Text.isBlankText] using hc)

/-- No parenthesis is closed before one is opened. -/
theorem Written.ungrouped_or_opens {e : Expression} (h : Written n e s) : Ungrouped s ∨ Opens s := by
  have happend {a b : Text} (ha : Ungrouped a ∨ Opens a) (hb : Ungrouped b ∨ Opens b) :
      Ungrouped (a ++ b) ∨ Opens (a ++ b) := by
    rcases ha with ha | ha
    · exact hb.imp ha.append (Opens.prepend ha)
    · exact .inr (ha.append b)
  induction h with
  | literal l => exact .inl (ungrouped_of_isLiteralChar l.2.chars)
  | negate _ ih => exact happend (a := ['-']) (.inl (by decide)) ih
  | @binary _ op _ _ _ _ _ _ _ ihl ihr =>
    exact happend ihl (happend (a := [op.symbol]) (.inl (ungrouped_symbol op)) ihr)
  | parentheses _ _ => exact .inr (opens_group _)
  | blankBefore hc _ ih => exact happend (a := [_]) (.inl (ungrouped_blank hc)) ih
  | blankBehind hc _ ih => exact happend ih (.inl (ungrouped_blank hc))

theorem Written.ne_nil {e : Expression} (h : Written n e s) : s ≠ [] := by
  cases h with
  | literal l => exact l.2.ne_nil
  | _ => simp

private theorem startsName_symbol (op : Operator) : startsName op.symbol = false := by
  cases op <;> rfl

/-- An expression holds no letter. -/
theorem Written.startsName {e : Expression} (h : Written n e s) : ∀ c ∈ s, startsName c = false := by
  induction h with
  | literal l => exact fun c hc => startsName_eq_false (by decide) (l.2.chars c hc)
  | negate _ ih => exact List.forall_mem_cons.2 ⟨rfl, ih⟩
  | binary _ _ _ ihl ihr => exact List.forall_mem_append.2 ⟨ihl, List.forall_mem_cons.2 ⟨startsName_symbol _, ihr⟩⟩
  | parentheses _ ih =>
    exact List.forall_mem_cons.2 ⟨rfl, List.forall_mem_append.2 ⟨ih, List.forall_mem_singleton.2 rfl⟩⟩
  | blankBefore hc _ ih => exact List.forall_mem_cons.2 ⟨startsName_eq_false (by decide) hc, ih⟩
  | blankBehind hc _ ih =>
    exact List.forall_mem_append.2 ⟨ih, List.forall_mem_singleton.2 (startsName_eq_false (by decide) hc)⟩

/-! ### In front of a call -/

/-- No call starts in `p` if the next parenthesis behind it is an opening one. -/
def Leads (p : Text) : Prop :=
  ∀ u, Opens u → findCall? (p ++ u) = (findCall? u).map fun r => (p ++ r.1, r.2)

/-- What may be put behind a text that leads to a call. -/
def Extends (a : Text) : Prop :=
  ∀ p, Leads p → Leads (p ++ a)

theorem leads_nil : Leads [] := by
  intro u _
  simp

theorem extends_nil : Extends [] := by
  intro p hp
  rwa [List.append_nil]

private theorem Leads.append (hp : Leads p) (ha : Leads a) (hopens : ∀ u, Opens u → Opens (a ++ u)) :
    Leads (p ++ a) := by
  intro u hu
  rw [List.append_assoc, hp _ (hopens u hu), ha u hu, Option.map_map]
  congr 1
  funext r
  simp

/-- A text without letters may be put there if it closes no parenthesis of those in front. -/
theorem extends_of_startsName (hname : ∀ c ∈ a, startsName c = false) (ha : Ungrouped a ∨ Opens a) : Extends a :=
  fun _ hp => hp.append (fun u _ => findCall?_append_of_startsName hname u) fun u hu =>
    ha.elim (fun h => Opens.prepend h hu) fun h => h.append u

/-- Behind characters that are no parentheses the first parenthesis is found. -/
private theorem dropWhile_ungrouped (ha : Ungrouped a) (hc : c = '(' ∨ c = ')') (u : Text) :
    (a ++ c :: u).dropWhile (fun d => d != '(' && d != ')') = c :: u := by
  rw [List.dropWhile_append_of_pos fun d hd => by simpa using ha d hd]
  rcases hc with rfl | rfl <;> simp

/-- What opens a parenthesis before it closes one is no argument. -/
private theorem callAt?_of_opens (ha : Ungrouped a) (hu : Opens u) : callAt? (a ++ '(' :: u) = none := by
  refine Option.eq_none_iff_forall_ne_some.2 fun ⟨call, rest⟩ hcall => ?_
  obtain ⟨w, hw, heq, -, hplain⟩ := callAt?_eq_some_iff.1 hcall
  obtain ⟨v, r, hv, rfl⟩ := hu
  have hname : Ungrouped (call.function.name ++ w) := (ungrouped_name _).append (ungrouped_of_isBlankText hw)
  have hcall : a ++ '(' :: (v ++ '(' :: r) = (call.function.name ++ w) ++ '(' :: (call.argument ++ ')' :: rest) := by
    simpa [Call.written] using heq
  have hfirst := congrArg (List.dropWhile fun d => d != '(' && d != ')') hcall
  rw [dropWhile_ungrouped ha (.inl rfl), dropWhile_ungrouped hname (.inl rfl)] at hfirst
  have hsecond := congrArg (List.dropWhile fun d => d != '(' && d != ')') (List.cons.inj hfirst).2
  rw [dropWhile_ungrouped hv (.inl rfl), dropWhile_ungrouped hplain (.inr rfl)] at hsecond
  exact absurd (List.cons.inj hsecond).1 (by decide)

/-- The name of a call may be put there, up to its parenthesis. -/
theorem extends_name (f : Function) (hw : Text.isBlankText w = true) : Extends (f.name ++ (w ++ ['('])) := by
  have hname : Ungrouped (f.name ++ w) := (ungrouped_name f).append (ungrouped_of_isBlankText hw)
  refine fun p hp => hp.append (fun u hu => findCall?_append fun q hq hsuffix => ?_) fun u _ => ?_
  · rw [← List.append_assoc, List.suffix_concat_iff] at hsuffix
    obtain ⟨q', rfl, hq'⟩ := hsuffix.resolve_left hq
    rw [List.append_assoc]
    exact callAt?_of_opens (fun c hc => hname c (hq'.mem hc)) hu
  · rw [List.append_assoc, List.append_assoc]
    exact Opens.prepend (ungrouped_name f) (Opens.prepend (ungrouped_of_isBlankText hw) (opens_group u))

/-! ### Calls in their places -/

/-- In `k` rounds the text becomes another one, wherever it stands. -/
def Becomes (num : Numbers α) (k : Nat) (s s' : Text) : Prop :=
  ∀ p q m, Leads p → substituteCalls num (k + m) (p ++ (s ++ q)) = substituteCalls num m (p ++ (s' ++ q))

/-- In `k` rounds or more no text with this one in it gets a value. -/
def Fails (num : Numbers α) (k : Nat) (s : Text) : Prop :=
  ∀ p q m, Leads p → ∃ e, (substituteCalls num (k + m) (p ++ (s ++ q))).bind (evaluateArithmetic num) = .error e

namespace Becomes

theorem refl (num : Numbers α) (s : Text) : Becomes num 0 s s := by
  intro p q m _
  rw [Nat.zero_add]

theorem trans (h : Becomes num k s s') (h' : Becomes num l s' s'') : Becomes num (k + l) s s'' := by
  intro p q m hp
  rw [Nat.add_assoc, h p q (l + m) hp, h' p q m hp]

theorem frame (h : Becomes num k s s') (ha : Extends a) (b : Text) :
    Becomes num k (a ++ (s ++ b)) (a ++ (s' ++ b)) := by
  intro p q m hp
  have hframe := h (p ++ a) (b ++ q) m (ha p hp)
  simpa only [List.append_assoc] using hframe

theorem fails (h : Becomes num k s s') (h' : Fails num l s') : Fails num (k + l) s := by
  intro p q m hp
  rw [Nat.add_assoc, h p q (l + m) hp]
  exact h' p q m hp

end Becomes

namespace Fails

theorem frame (h : Fails num k s) (ha : Extends a) (b : Text) : Fails num k (a ++ (s ++ b)) := by
  intro p q m hp
  have hframe := h (p ++ a) (b ++ q) m (ha p hp)
  simpa only [List.append_assoc] using hframe

theorem mono (h : Fails num k s) (l : Nat) : Fails num (k + l) s := by
  intro p q m hp
  rw [Nat.add_assoc]
  exact h p q (l + m) hp

end Fails

/-- A call is the first one that is found in its place. -/
private theorem substituteCalls_call {call : Call} (hw : Text.isBlankText w = true) (hne : call.argument ≠ [])
    (hplain : Ungrouped call.argument) (hp : Leads p) (q : Text) (m : Nat) :
    substituteCalls num (1 + m) (p ++ (call.written w ++ q)) = (evaluateArithmetic num call.argument).bind fun x =>
      substituteCalls num m (p ++ (num.text (num.call call.function x) ++ q)) := by
  have hopens : Opens (call.written w ++ q) := by
    rw [Call.written, List.append_assoc, List.append_assoc]
    exact Opens.prepend (ungrouped_name _) (Opens.prepend (ungrouped_of_isBlankText hw) (opens_group _))
  have hfind := hp _ hopens
  rw [findCall?_of_callAt? (callAt?_written hw hne hplain q), Option.map_some, List.append_nil] at hfind
  rw [Nat.add_comm, substituteCalls_of_some hfind]
  simp only [List.append_assoc]

theorem becomes_call {call : Call} {x : α} (hw : Text.isBlankText w = true) (hne : call.argument ≠ [])
    (hplain : Ungrouped call.argument) (hx : evaluateArithmetic num call.argument = .ok x) :
    Becomes num 1 (call.written w) (num.text (num.call call.function x)) := by
  intro p q m hp
  rw [substituteCalls_call hw hne hplain hp, hx]
  rfl

theorem fails_call {call : Call} {e : Error} (hw : Text.isBlankText w = true) (hne : call.argument ≠ [])
    (hplain : Ungrouped call.argument) (he : evaluateArithmetic num call.argument = .error e) :
    Fails num 1 (call.written w) := by
  intro p q m hp
  rw [substituteCalls_call hw hne hplain hp, he]
  exact ⟨e, rfl⟩

private theorem evaluateArithmetic_of_isStray (num : Numbers α) (hc : IsStray c) (hmem : c ∈ t) :
    ∃ e, evaluateArithmetic num t = .error e := by
  cases ht : evaluateArithmetic num t with
  | error e => exact ⟨e, rfl⟩
  | ok x =>
    obtain ⟨hliteral, hsymbol, hblank, -⟩ := hc
    obtain ⟨ls, -, -, hls, -⟩ := evaluateArithmetic_eq_ok ht
    have hcompact : c ∈ ls.flatMap Lexeme.text := by
      rw [flatMap_text_of_lexemes hls]
      exact List.mem_filter.2 ⟨hmem, by simp [hblank]⟩
    obtain ⟨x, hx, hcx⟩ := List.mem_flatMap.1 hcompact
    cases x with
    | literal l => simp [isLiteralChar_of_lexemes hls hx c hcx] at hliteral
    | operator op =>
      rw [List.mem_singleton.1 hcx, symbol?_symbol] at hsymbol
      cases hsymbol
    | opening | closing =>
      rw [List.mem_singleton.1 hcx] at hsymbol
      cases hsymbol

private theorem IsStray.not_mem_written {call : Call} (hc : IsStray c) (hw : Text.isBlankText w = true)
    (hargument : c ∉ call.argument) : c ∉ call.written w := by
  obtain ⟨-, hsymbol, hblank, hname⟩ := hc
  have hblanks : c ∉ w := fun hmem => by
    rw [List.all_eq_true.1 hw c hmem] at hblank
    cases hblank
  have hopening : c ≠ '(' := by
    rintro rfl
    cases hsymbol
  have hclosing : c ≠ ')' := by
    rintro rfl
    cases hsymbol
  simp [Call.written, hname, hblanks, hargument, hopening, hclosing]

/-- Replacing calls leaves a stray character where it is, or evaluates an argument with it. -/
theorem substituteCalls_of_isStray (hc : IsStray c) (m : Nat) (hmem : c ∈ t) :
    ∃ e, (substituteCalls num m t).bind (evaluateArithmetic num) = .error e := by
  induction m generalizing t with
  | zero => exact evaluateArithmetic_of_isStray num hc hmem
  | succ m ih =>
    cases hcall : findCall? t with
    | none =>
      rw [substituteCalls_of_none hcall]
      exact evaluateArithmetic_of_isStray num hc hmem
    | some r =>
      obtain ⟨before, call, rest⟩ := r
      rw [substituteCalls_of_some hcall]
      cases hx : evaluateArithmetic num call.argument with
      | error e => exact ⟨e, rfl⟩
      | ok x =>
        have hargument : c ∉ call.argument := fun hmem => by
          obtain ⟨e, he⟩ := evaluateArithmetic_of_isStray num hc hmem
          rw [hx] at he
          cases he
        obtain ⟨w, hw, rfl, -⟩ := eq_of_findCall? hcall
        refine ih ?_
        simp only [List.mem_append, hc.not_mem_written hw hargument, false_or] at hmem
        simp only [List.mem_append]
        exact hmem.imp_left .inl

theorem fails_of_isStray (hc : IsStray c) (hmem : c ∈ s) : Fails num 0 s := fun _ _ _ _ =>
  substituteCalls_of_isStray hc _ (List.mem_append_right _ (List.mem_append_left _ hmem))

/-! ### The value of a written formula -/

private theorem ungrouped_of_printed? {e : Expression} (h : printed? s = some e) : Ungrouped s := by
  intro c hc
  rcases char_of_printed? h hc with rfl | hchar
  · decide
  · exact ungrouped_of_isLiteralChar (s := [c]) (by simpa using hchar) c (List.mem_singleton.2 rfl)

/-- Where the text of a formula stands, the text of an expression without calls comes out, or nothing does. -/
structure Formula.Settles (num : Numbers α) (inside : Bool) (n : Nat) (t : Formula) (s : Text) : Prop where
  becomes : ∀ e, t.replaced num = some e →
    ∃ s', Arithmetic.Written n e s' ∧ (inside = true → Ungrouped s') ∧ Becomes num t.calls s s'
  fails : t.replaced num = none → Fails num t.calls s

namespace Formula.Settles

variable {inside : Bool} {l r : Formula} {op : Operator}

theorem literal (l : Literal) : Settles num inside n (.literal l) l.1 where
  becomes e he := by
    obtain rfl := Option.some.inj he
    exact ⟨l.1, .literal l, fun _ => ungrouped_of_isLiteralChar l.2.chars, .refl num l.1⟩
  fails hnone := by simp [replaced] at hnone

theorem negate {t : Formula} (h : Settles num inside operandLevel t s) :
    Settles num inside n (.negate t) ('-' :: s) := by
  have hminus : Extends ['-'] := extends_of_startsName (List.forall_mem_singleton.2 rfl) (.inl (by decide))
  constructor
  · intro e he
    obtain ⟨e, het, rfl⟩ := Option.map_eq_some_iff.1 he
    obtain ⟨s', hs', hplain, hbecomes⟩ := h.becomes e het
    refine ⟨'-' :: s', .negate hs', fun hin => Ungrouped.append (t := ['-']) (by decide) (hplain hin), ?_⟩
    simpa [calls] using hbecomes.frame hminus []
  · intro hnone
    simpa [calls] using (h.fails (Option.map_eq_none_iff.1 hnone)).frame hminus []

/-- The left operand is gone through first. -/
theorem binary (hn : n ≤ op.level) (hl : Settles num inside op.level l s)
    (hr : Settles num inside (op.level + 1) r u) : Settles num inside n (.binary op l r) (s ++ op.symbol :: u) := by
  cases hel : l.replaced num with
  | none =>
    refine ⟨by simp [replaced, hel], fun _ => ?_⟩
    exact ((hl.fails hel).frame extends_nil (op.symbol :: u)).mono r.calls
  | some el =>
    obtain ⟨s', hs', hplains, hbecomes⟩ := hl.becomes el hel
    have hleft : Becomes num l.calls (s ++ op.symbol :: u) (s' ++ op.symbol :: u) := hbecomes.frame extends_nil _
    have hsymbol : Extends (s' ++ [op.symbol]) := by
      have hname := List.forall_mem_append.2 ⟨hs'.startsName, List.forall_mem_singleton.2 (startsName_symbol op)⟩
      refine extends_of_startsName hname ?_
      exact hs'.ungrouped_or_opens.imp (fun h => h.append (ungrouped_symbol op)) fun h => h.append _
    cases her : r.replaced num with
    | none =>
      refine ⟨by simp [replaced, her], fun _ => hleft.fails ?_⟩
      simpa using (hr.fails her).frame hsymbol []
    | some er =>
      obtain ⟨u', hu', hplainu, hbecomesu⟩ := hr.becomes er her
      refine ⟨fun e he => ?_, by simp [replaced, hel, her]⟩
      obtain rfl : Expression.binary op el er = e := by simpa [replaced, hel, her] using he
      refine ⟨s' ++ op.symbol :: u', .binary hn hs' hu', fun hin => ?_, hleft.trans ?_⟩
      · exact (hplains hin).append (Ungrouped.append (t := [op.symbol]) (ungrouped_symbol op) (hplainu hin))
      · simpa using hbecomesu.frame hsymbol []

theorem parentheses {t : Formula} (h : Settles num false 0 t s) : Settles num false n t ('(' :: (s ++ [')'])) := by
  have hopening : Extends ['('] := extends_of_startsName (List.forall_mem_singleton.2 rfl) (.inr (opens_group []))
  constructor
  · intro e he
    obtain ⟨s', hs', -, hbecomes⟩ := h.becomes e he
    exact ⟨_, .parentheses hs', by simp, hbecomes.frame hopening [')']⟩
  · exact fun hnone => (h.fails hnone).frame hopening [')']

/-- The argument is gone through first, and then the call itself is found. -/
theorem call (hnum : num.ReadsLiterals) (hprints : num.Prints) {f : Function} {t : Formula}
    (hw : Text.isBlankText w = true) (h : Settles num true 0 t s) :
    Settles num inside n (.call f t) (f.name ++ (w ++ '(' :: (s ++ [')']))) := by
  have hwritten (s : Text) : f.name ++ (w ++ ['(']) ++ (s ++ [')']) = Call.written ⟨f, s⟩ w := by
    simp [Call.written]
  have hname := extends_name f hw
  change Settles num inside n (.call f t) (Call.written ⟨f, s⟩ w)
  cases ht : t.replaced num with
  | none =>
    refine ⟨by simp [replaced, ht], fun _ => ?_⟩
    have hfails := (h.fails ht).frame hname [')']
    rw [hwritten] at hfails
    exact hfails.mono 1
  | some e =>
    obtain ⟨s', hs', hplain, hbecomes⟩ := h.becomes e ht
    have hargument := hbecomes.frame hname [')']
    rw [hwritten, hwritten] at hargument
    have hvalue := hs'.evaluateArithmetic_eq hnum
    cases hx : e.value num with
    | error err =>
      refine ⟨by simp [replaced, ht, hx, Except.toOption], fun _ => hargument.fails ?_⟩
      exact fails_call hw hs'.ne_nil (hplain rfl) (hvalue.trans hx)
    | ok x =>
      have hcall := hargument.trans (becomes_call hw hs'.ne_nil (hplain rfl) (hvalue.trans hx))
      have hreplaced : (Formula.call f t).replaced num = printed? (num.text (num.call f x)) := by
        simp [replaced, ht, hx, Except.toOption]
      constructor
      · intro e' he'
        rw [hreplaced] at he'
        exact ⟨_, written_of_printed? he' n, fun _ => ungrouped_of_printed? he', hcall⟩
      · intro hnone
        rw [hreplaced] at hnone
        obtain ⟨c, hc, hstray⟩ := (hprints (num.call f x)).resolve_left (by simp [hnone])
        exact hcall.fails (fails_of_isStray hstray hc)

theorem blankBefore {t : Formula} (hc : isBlank c = true) (h : Settles num inside n t s) :
    Settles num inside n t (c :: s) := by
  have hblank : Extends [c] := extends_of_startsName
    (List.forall_mem_singleton.2 (startsName_eq_false (by decide) hc)) (.inl (ungrouped_blank hc))
  constructor
  · intro e he
    obtain ⟨s', hs', hplain, hbecomes⟩ := h.becomes e he
    refine ⟨c :: s', .blankBefore hc hs', fun hin => (ungrouped_blank hc).append (hplain hin), ?_⟩
    simpa using hbecomes.frame hblank []
  · intro hnone
    simpa using (h.fails hnone).frame hblank []

theorem blankBehind {t : Formula} (hc : isBlank c = true) (h : Settles num inside n t s) :
    Settles num inside n t (s ++ [c]) := by
  constructor
  · intro e he
    obtain ⟨s', hs', hplain, hbecomes⟩ := h.becomes e he
    exact ⟨_, .blankBehind hc hs', fun hin => (hplain hin).append (ungrouped_blank hc),
      hbecomes.frame extends_nil [c]⟩
  · exact fun hnone => (h.fails hnone).frame extends_nil [c]

end Formula.Settles

theorem Formula.Written.settles (hnum : num.ReadsLiterals) (hprints : num.Prints) {inside : Bool} {t : Formula}
    (h : t.Written inside n s) : t.Settles num inside n s := by
  induction h with
  | literal l => exact .literal l
  | negate _ ih => exact ih.negate
  | binary hn _ _ ihl ihr => exact .binary hn ihl ihr
  | parentheses _ ih => exact ih.parentheses
  | call hw _ ih => exact ih.call hnum hprints hw
  | blankBefore hc _ ih => exact ih.blankBefore hc
  | blankBehind hc _ ih => exact ih.blankBehind hc

/-- The evaluator finds the value of a formula, or an error if there is none. -/
theorem Formula.Written.evaluateNumber_eq (hnum : num.ReadsLiterals) (hprints : num.Prints) {inside : Bool}
    {t : Formula} (h : t.Written inside n s) : (evaluateNumber num s).toOption = t.value num := by
  obtain ⟨m, hm⟩ := Nat.exists_eq_add_of_le h.calls_le
  rw [t.value_eq, evaluateNumber, hm]
  cases ht : t.replaced num with
  | none =>
    obtain ⟨e, he⟩ := (h.settles hnum hprints).fails ht [] [] m leads_nil
    rw [List.nil_append, List.append_nil] at he
    change ((substituteCalls num (t.calls + m) s).bind (evaluateArithmetic num)).toOption = none
    rw [he]
    rfl
  | some e =>
    obtain ⟨s', hs', -, hbecomes⟩ := (h.settles hnum hprints).becomes e ht
    have hsubstitute := hbecomes [] [] m leads_nil
    rw [List.nil_append, List.append_nil, List.nil_append, List.append_nil,
      substituteCalls_of_none (findCall?_eq_none hs'.startsName)] at hsubstitute
    rw [hsubstitute, Option.bind_some, ← hs'.evaluateArithmetic_eq hnum]
    rfl

/-- The finite doubles are those that are read again. -/
theorem isSome_reread?_iff {x : Float} : (binary64.reread? x).isSome ↔ Binary64.IsFinite x := by
  rw [← isSome_printed?_iff]
  constructor
  · intro h
    obtain ⟨y, hy⟩ := Option.isSome_iff_exists.1 h
    obtain ⟨e, he, -⟩ := Option.bind_eq_some_iff.1 hy
    exact Option.isSome_of_eq_some he
  · intro h
    obtain ⟨e, he⟩ := Option.isSome_iff_exists.1 h
    obtain ⟨y, hy⟩ := value_of_printed? binary64_readsLiterals he
    refine Option.isSome_iff_exists.2 ⟨y, Option.bind_eq_some_iff.2 ⟨e, he, ?_⟩⟩
    rw [hy, Except.toOption]

/-- However a formula is written, the evaluator finds its value if the values of its calls are finite and nothing
divides by zero, and it fails if a call has no finite value.  On any text the calls are replaced in as many rounds as
there are parentheses. -/
theorem evaluateNumber_written {t : Formula} (h : t.Written false n s) :
    ((∀ f u x, .call f u ∈ t.postorder → u.value binary64 = some x → Binary64.IsFinite (binary64.call f x)) →
      (∀ u ∈ t.postorder, ¬ u.DividesByZero binary64) →
      ∃ v, t.value binary64 = some v ∧ evaluateNumber binary64 s = .ok v) ∧
    (∀ f u, .call f u ∈ t.postorder →
      (∀ x, u.value binary64 = some x → ¬ Binary64.IsFinite (binary64.call f x)) →
      ∃ e, evaluateNumber binary64 s = .error e) ∧
    ∀ (a : Text) (m : Nat), a.count '(' ≤ m →
      substituteCalls binary64 m a = substituteCalls binary64 (a.count '(') a ∧
        ∀ a', substituteCalls binary64 m a = .ok a' → findCall? a' = none := by
  have hvalue := h.evaluateNumber_eq binary64_readsLiterals binary64_prints
  refine ⟨fun hfinite hzero => ?_, fun f u hu hinfinite => ?_, fun a m hm => ?_⟩
  · have hsome := Formula.isSome_value binary64_readsLiterals
      (fun f u x hu hx => isSome_reread?_iff.2 (hfinite f u x hu hx)) hzero
    obtain ⟨v, hv⟩ := Option.isSome_iff_exists.1 hsome
    refine ⟨v, hv, ?_⟩
    rw [hv] at hvalue
    cases hs : evaluateNumber binary64 s with
    | error e => simp [hs, Except.toOption] at hvalue
    | ok y => simpa [hs, Except.toOption] using hvalue
  · have hnone : (u.value binary64 |>.bind fun x => binary64.reread? (binary64.call f x)) = none := by
      refine Option.eq_none_iff_forall_ne_some.2 fun y hy => ?_
      obtain ⟨x, hx, hy⟩ := Option.bind_eq_some_iff.1 hy
      exact hinfinite x hx (isSome_reread?_iff.1 (Option.isSome_of_eq_some hy))
    cases hs : evaluateNumber binary64 s with
    | error e => exact ⟨e, rfl⟩
    | ok y =>
      rw [hs] at hvalue
      have hcall := Formula.isSome_value_of_mem_postorder (Option.isSome_of_eq_some hvalue.symm) hu
      simp [Formula.value_call, hnone] at hcall
  · exact substituteCalls_of_count_le (fun x => not_mem_floatText (by decide) (by decide) x) hm

/-- A call in a call, and one behind a minus sign. -/
theorem evaluateNumber_written_roots :
    let four : Formula := .call .sqrt (.literal ⟨"16", by decide⟩)
    let negative : Formula := .negate (.call .sqrt (.literal ⟨"2.25", by decide⟩))
    let t : Formula := .binary .sub (.literal ⟨"1", by decide⟩) (.binary .mul (.call .sqrt four) negative)
    t.Written false 0 "1-sqrt( sqrt(16))*-sqrt (2.25)" ∧
      ∃ v, t.value binary64 = some v ∧ evaluateNumber binary64 "1-sqrt( sqrt(16))*-sqrt (2.25)" = .ok v := by
  intro four negative t
  have hfour : four.Written true 0 "sqrt(16)" := .call (w := []) rfl (.literal _)
  have hroot : (Formula.call .sqrt four).Written false Operator.mul.level "sqrt( sqrt(16))" :=
    .call (w := []) rfl (.blankBefore rfl hfour)
  have hnegative : negative.Written false (Operator.mul.level + 1) "-sqrt (2.25)" :=
    .negate (.call (w := [' ']) rfl (.literal _))
  have h : t.Written false 0 "1-sqrt( sqrt(16))*-sqrt (2.25)" :=
    .binary (Nat.zero_le _) (.literal _) (.binary (by decide) hroot hnegative)
  have hparts {f : Function} {u : Formula} {parts : Binary64.Parts}
      (hu : (u.value binary64).map (fun x => Binary64.parts (binary64.call f x)) = some parts) {x : Float}
      (hx : u.value binary64 = some x) : Binary64.parts (binary64.call f x) = parts := by
    rw [hx] at hu
    exact Option.some.inj hu
  refine ⟨h, (evaluateNumber_written h).1 (fun f u x hu hx => ?_) fun u hu hzero => ?_⟩
  · simp only [t, four, negative, Formula.postorder, List.mem_append, List.mem_singleton, Formula.call.injEq,
      reduceCtorEq, or_false, false_or] at hu
    rcases hu with (⟨rfl, rfl⟩ | ⟨rfl, rfl⟩) | ⟨rfl, rfl⟩
    · exact ⟨false, 0x10000000000000, -50, hparts (by decide +kernel) hx⟩
    · exact ⟨false, 0x10000000000000, -51, hparts (by decide +kernel) hx⟩
    · exact ⟨false, 0x18000000000000, -52, hparts (by decide +kernel) hx⟩
  · simp only [t, four, negative, Formula.postorder, List.mem_append, List.mem_singleton, or_assoc] at hu
    rcases hu with rfl | rfl | rfl | rfl | rfl | rfl | rfl | rfl | rfl
    all_goals simp [Formula.DividesByZero] at hzero

end DirectiveEngine.Arithmetic
