import DirectiveEngine.Arithmetic.Evaluate
import DirectiveEngine.Proofs.Except
import DirectiveEngine.Proofs.Text.Search
import Mathlib.Data.List.TakeWhile

/-!
# Calls in a text

A call is written as a name, blanks and an argument in parentheses (`callAt?_eq_some_iff`).  The search for the first
one goes over what stands in front of it (`findCall?_append`), and replacing a call takes a parenthesis away, so as
many rounds as there are parentheses leave no call (`substituteCalls_of_count_le`).
-/

namespace DirectiveEngine.Arithmetic

variable {α : Type} {num : Numbers α} {c : Char} {t u p g w before rest : Text} {call : Call}

/-! ### A call at the start -/

/-- A text without parentheses. -/
def Ungrouped (t : Text) : Prop :=
  ∀ c ∈ t, c ≠ '(' ∧ c ≠ ')'

instance (t : Text) : Decidable (Ungrouped t) :=
  List.decidableBAll (fun c => c ≠ '(' ∧ c ≠ ')') t

theorem Ungrouped.append (ht : Ungrouped t) (hu : Ungrouped u) : Ungrouped (t ++ u) :=
  fun c hc => (List.mem_append.1 hc).elim (ht c) (hu c)

theorem Ungrouped.count_eq_zero (h : Ungrouped t) : t.count '(' = 0 :=
  List.count_eq_zero.2 fun hmem => (h _ hmem).1 rfl

theorem ungrouped_name (f : Function) : Ungrouped f.name := by
  cases f <;> decide

theorem ungrouped_of_isBlankText (h : Text.isBlankText w = true) : Ungrouped w := by
  intro c hc
  have hblank := List.all_eq_true.1 h c hc
  constructor
  all_goals
    rintro rfl
    exact absurd hblank (by decide)

/-- A call with blanks behind its name. -/
def Call.written (call : Call) (w : Text) : Text :=
  call.function.name ++ (w ++ '(' :: (call.argument ++ [')']))

/-- The call of a function that a text starts with. -/
private def callOf? (f : Function) (t : Text) : Option (Call × Text) := do
  let r ← Text.stripPrefix? f.name t
  match Text.trimStart r with
  | '(' :: r =>
    let argument := r.takeWhile fun c => c != '(' && c != ')'
    match argument, r.drop argument.length with
    | _ :: _, ')' :: rest => some (⟨f, argument⟩, rest)
    | _, _ => none
  | _ => none

private theorem callAt?_eq (t : Text) : callAt? t = [Function.sqrt, .int, .round].findSome? (callOf? · t) :=
  rfl

private theorem takeWhile_argument {a : Text} (ha : Ungrouped a) (rest : Text) :
    (a ++ ')' :: rest).takeWhile (fun c => c != '(' && c != ')') = a := by
  rw [List.takeWhile_append_of_pos fun c hc => by simpa using ha c hc]
  simp

private theorem callOf?_written (hw : Text.isBlankText w = true) (hne : call.argument ≠ [])
    (hcall : Ungrouped call.argument) (rest : Text) :
    callOf? call.function (call.written w ++ rest) = some (call, rest) := by
  obtain ⟨f, a⟩ := call
  have hstrip : Text.stripPrefix? f.name (Call.written ⟨f, a⟩ w ++ rest) = some (w ++ '(' :: (a ++ ')' :: rest)) := by
    have hshape : Call.written ⟨f, a⟩ w ++ rest = f.name ++ (w ++ '(' :: (a ++ ')' :: rest)) := by
      simp [Call.written]
    rw [Text.stripPrefix?, hshape]
    exact Text.isPrefixOf?_append_self f.name _
  have htrim : Text.trimStart (w ++ '(' :: (a ++ ')' :: rest)) = '(' :: (a ++ ')' :: rest) := by
    rw [Text.trimStart, List.dropWhile_append_of_pos (List.all_eq_true.1 hw), List.dropWhile_cons_of_neg (by decide)]
  obtain ⟨c, a', rfl⟩ := List.exists_cons_of_ne_nil hne
  rw [callOf?, hstrip, Option.bind_eq_bind, Option.bind_some, htrim]
  simp only [takeWhile_argument hcall, List.drop_left]

private theorem eq_of_callOf? {f : Function} (h : callOf? f t = some (call, rest)) :
    ∃ w, Text.isBlankText w = true ∧ t = call.written w ++ rest ∧ call.argument ≠ [] ∧ Ungrouped call.argument := by
  obtain ⟨r, hr, h⟩ := Option.bind_eq_some_iff.1 h
  simp only at h
  split at h
  · rename_i r' htrim
    have hcut := List.prefix_iff_eq_append.1 (List.takeWhile_prefix (l := r') fun c => c != '(' && c != ')')
    have hplain : Ungrouped (r'.takeWhile fun c => c != '(' && c != ')') := fun d hd => by
      simpa using List.mem_takeWhile_imp hd
    generalize r'.takeWhile (fun c => c != '(' && c != ')') = a at h hcut hplain
    split at h
    · rename_i rest' hrest
      simp only [Option.some.injEq, Prod.mk.injEq] at h
      obtain ⟨rfl, rfl⟩ := h
      refine ⟨r.takeWhile isBlank, List.all_takeWhile, ?_, List.cons_ne_nil _ _, hplain⟩
      rw [Text.eq_append_of_isPrefixOf? hr, ← List.takeWhile_append_dropWhile (p := isBlank) (l := r)]
      change _ ++ (_ ++ Text.trimStart r) = _
      rw [htrim, ← hcut, hrest]
      simp [Call.written]
    · simp at h
  · simp at h

theorem callAt?_eq_some_iff :
    callAt? t = some (call, rest) ↔
      ∃ w, Text.isBlankText w = true ∧ t = call.written w ++ rest ∧ call.argument ≠ [] ∧ Ungrouped call.argument := by
  constructor
  · intro h
    obtain ⟨f, -, h⟩ := List.exists_of_findSome?_eq_some h
    exact eq_of_callOf? h
  · rintro ⟨w, hw, rfl, hne, hcall⟩
    have hsome := callOf?_written hw hne hcall rest
    -- no name starts another one
    have hnone : ∀ f ≠ call.function, callOf? f (call.written w ++ rest) = none := by
      intro f hf
      have hstrip : Text.stripPrefix? f.name (call.written w ++ rest) = none := by
        refine Text.isPrefixOf?_eq_none fun hp => hf ?_
        revert hp
        rw [Call.written]
        cases f <;> cases call.function <;> simp [Function.name]
      rw [callOf?, hstrip]
      rfl
    rw [callAt?_eq]
    cases hf : call.function <;> simp_all [List.findSome?]

theorem callAt?_written (hw : Text.isBlankText w = true) (hne : call.argument ≠ []) (hcall : Ungrouped call.argument)
    (rest : Text) : callAt? (call.written w ++ rest) = some (call, rest) :=
  callAt?_eq_some_iff.2 ⟨w, hw, rfl, hne, hcall⟩

/-- A name has one of three letters in front. -/
def startsName (c : Char) : Bool :=
  c ∈ ['s', 'i', 'r']

theorem startsName_eq_false {P : Char → Bool} (hP : (['s', 'i', 'r'].all fun d => !P d) = true) (hc : P c = true) :
    startsName c = false :=
  decide_eq_false fun hmem => by
    have hnone := List.all_eq_true.1 hP c hmem
    rw [hc] at hnone
    cases hnone

theorem callAt?_of_startsName (h : startsName c = false) (t : Text) : callAt? (c :: t) = none := by
  refine Option.eq_none_iff_forall_ne_some.2 fun ⟨call, rest⟩ hcall => ?_
  obtain ⟨w, -, heq, -⟩ := callAt?_eq_some_iff.1 hcall
  have hc : startsName c = true := by
    cases hf : call.function <;> simp_all [Call.written, Function.name, startsName]
  rw [h] at hc
  exact absurd hc (by decide)

/-- What stands behind a text is no part of a call that starts in it, if it closes no parenthesis. -/
theorem callAt?_append (hg : ')' ∉ g) (t : Text) :
    callAt? (t ++ g) = (callAt? t).map fun r => (r.1, r.2 ++ g) := by
  cases ht : callAt? t with
  | some r =>
    obtain ⟨w, hw, rfl, hne, hcall⟩ := callAt?_eq_some_iff.1 ht
    rw [List.append_assoc, callAt?_written hw hne hcall]
    rfl
  | none =>
    refine Option.eq_none_iff_forall_ne_some.2 fun ⟨call, rest⟩ hcall => ?_
    obtain ⟨w, hw, heq, hne, hplain⟩ := callAt?_eq_some_iff.1 hcall
    rcases List.append_eq_append_iff.1 heq with ⟨a, hwritten, hg'⟩ | ⟨a, rfl, -⟩
    · -- the closing parenthesis is the last character of what is written
      cases ha : a.getLast? with
      | none =>
        rw [List.getLast?_eq_none_iff.1 ha, List.append_nil] at hwritten
        rw [← hwritten, ← List.append_nil (call.written w), callAt?_written hw hne hplain] at ht
        cases ht
      | some c =>
        have hend : call.written w = call.function.name ++ (w ++ '(' :: call.argument) ++ [')'] := by
          simp [Call.written]
        have hlast := congrArg List.getLast? hwritten
        rw [List.getLast?_append, ha, hend, List.getLast?_concat] at hlast
        obtain rfl : c = ')' := (Option.some.inj hlast).symm
        exact hg (by rw [hg']; exact List.mem_append_left _ (List.mem_of_getLast? ha))
    · rw [callAt?_written hw hne hplain] at ht
      cases ht

/-! ### The first call -/

theorem findCall?_of_callAt? (h : callAt? t = some (call, rest)) : findCall? t = some ([], call, rest) := by
  cases t with
  | nil => cases h
  | cons c t => rw [findCall?, h]

/-- The search goes over a text in which no call starts. -/
theorem findCall?_append (h : ∀ q, q ≠ [] → q <:+ p → callAt? (q ++ u) = none) :
    findCall? (p ++ u) = (findCall? u).map fun r => (p ++ r.1, r.2) := by
  induction p with
  | nil => simp
  | cons c p ih =>
    have hstart : callAt? (c :: (p ++ u)) = none := h (c :: p) (List.cons_ne_nil _ _) List.suffix_rfl
    rw [List.cons_append, findCall?, hstart, ih fun q hq hp => h q hq (hp.trans (List.suffix_cons c p)), Option.map_map]
    rfl

theorem findCall?_append_of_startsName (h : ∀ c ∈ p, startsName c = false) (u : Text) :
    findCall? (p ++ u) = (findCall? u).map fun r => (p ++ r.1, r.2) := by
  refine findCall?_append fun q hq hp => ?_
  obtain ⟨c, q, rfl⟩ := List.exists_cons_of_ne_nil hq
  exact callAt?_of_startsName (h c (hp.subset List.mem_cons_self)) _

theorem findCall?_eq_none (h : ∀ c ∈ t, startsName c = false) : findCall? t = none := by
  have happend := findCall?_append_of_startsName h []
  rwa [List.append_nil] at happend

theorem findCall?_append_right (hg : ')' ∉ g) (hstart : ∀ c ∈ g, startsName c = false) (t : Text) :
    findCall? (t ++ g) = (findCall? t).map fun r => (r.1, r.2.1, r.2.2 ++ g) := by
  induction t with
  | nil => exact findCall?_eq_none hstart
  | cons c t ih =>
    have happend := callAt?_append hg (c :: t)
    rw [List.cons_append] at happend ⊢
    rw [findCall?, findCall?, happend, ih]
    cases callAt? (c :: t) <;> cases findCall? t <;> rfl

/-- What is found is written in the text. -/
theorem eq_of_findCall? (h : findCall? t = some (before, call, rest)) :
    ∃ w, Text.isBlankText w = true ∧ t = before ++ (call.written w ++ rest) ∧ call.argument ≠ [] ∧
      Ungrouped call.argument := by
  induction t generalizing before with
  | nil => simp [findCall?] at h
  | cons c t ih =>
    unfold findCall? at h
    split at h
    · rename_i call' rest' hcall
      simp only [Option.some.injEq, Prod.mk.injEq] at h
      obtain ⟨rfl, rfl, rfl⟩ := h
      exact callAt?_eq_some_iff.1 hcall
    · obtain ⟨⟨before', _, _⟩, hr, he⟩ := Option.map_eq_some_iff.1 h
      simp only [Prod.mk.injEq] at he
      obtain ⟨rfl, rfl, rfl⟩ := he
      obtain ⟨w, hw, rfl, hplain⟩ := ih hr
      exact ⟨w, hw, rfl, hplain⟩

theorem mem_of_findCall? (h : findCall? t = some (before, call, rest))
    (hc : c ∈ before ∨ c ∈ call.argument ∨ c ∈ rest) : c ∈ t := by
  obtain ⟨w, -, rfl, -⟩ := eq_of_findCall? h
  rcases hc with hc | hc | hc <;> simp [Call.written, hc]

/-! ### Rounds of replacing -/

theorem count_of_findCall? (h : findCall? t = some (before, call, rest)) :
    t.count '(' = before.count '(' + rest.count '(' + 1 := by
  obtain ⟨w, hw, rfl, -, hplain⟩ := eq_of_findCall? h
  simp only [Call.written, List.count_append, List.count_cons, (ungrouped_name _).count_eq_zero,
    (ungrouped_of_isBlankText hw).count_eq_zero, hplain.count_eq_zero, List.count_nil]
  simp
  omega

theorem substituteCalls_of_none (h : findCall? t = none) (n : Nat) : substituteCalls num n t = .ok t := by
  cases n with
  | zero => rfl
  | succ n => rw [substituteCalls, h]

theorem substituteCalls_of_some (h : findCall? t = some (before, call, rest)) (n : Nat) :
    substituteCalls num (n + 1) t = (evaluateArithmetic num call.argument).bind fun x =>
      substituteCalls num n (before ++ num.text (num.call call.function x) ++ rest) := by
  rw [substituteCalls, h]
  rfl

/-- With a round for each opening parenthesis no call is left, and more rounds change nothing. -/
theorem substituteCalls_of_count_le (htext : ∀ x, '(' ∉ num.text x) {n : Nat} (h : t.count '(' ≤ n) :
    substituteCalls num n t = substituteCalls num (t.count '(') t ∧
      ∀ t', substituteCalls num n t = .ok t' → findCall? t' = none := by
  induction n generalizing t with
  | zero =>
    have hnone : findCall? t = none := by
      refine Option.eq_none_iff_forall_ne_some.2 fun ⟨before, call, rest⟩ hcall => ?_
      have hcount := count_of_findCall? hcall
      omega
    rw [substituteCalls_of_none hnone, substituteCalls_of_none hnone]
    exact ⟨rfl, fun t' ht => Except.ok.inj ht ▸ hnone⟩
  | succ n ih =>
    cases hcall : findCall? t with
    | none =>
      rw [substituteCalls_of_none hcall, substituteCalls_of_none hcall]
      exact ⟨rfl, fun t' ht => Except.ok.inj ht ▸ hcall⟩
    | some r =>
      obtain ⟨before, call, rest⟩ := r
      have hcount := count_of_findCall? hcall
      have hnext (x : α) : (before ++ num.text x ++ rest).count '(' = before.count '(' + rest.count '(' := by
        simp [List.count_eq_zero.2 (htext x)]
      have ih (x : α) := ih (t := before ++ num.text x ++ rest) (by rw [hnext]; omega)
      rw [hcount, substituteCalls_of_some hcall, substituteCalls_of_some hcall]
      cases evaluateArithmetic num call.argument with
      | error e => exact ⟨rfl, by simp [Except.bind]⟩
      | ok x =>
        have hround := ih (num.call call.function x)
        rw [hnext] at hround
        exact hround

end DirectiveEngine.Arithmetic
