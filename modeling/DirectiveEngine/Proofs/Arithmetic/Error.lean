import DirectiveEngine.Proofs.Arithmetic.Call
import DirectiveEngine.Proofs.Arithmetic.Lexeme
import DirectiveEngine.Proofs.Number
import DirectiveEngine.Proofs.Text.Search

/-!
# The characters of computed values

The value of an expression holds a NUL only where the evaluator reports that very character
(`Arithmetic.evaluate_of_nul_mem`), which it does not do unless the expression holds one.
-/

namespace DirectiveEngine

variable {t : Text} {c : Char}

namespace Arithmetic

variable {α : Type} {num : Numbers α} {e : Error}

/-- An error tells of a NUL only as the unexpected character of the text. -/
def Error.QuotesFrom (t : Text) (e : Error) : Prop :=
  '\x00' ∈ e.message → e = .unexpectedCharacter '\x00' ∧ '\x00' ∈ t

private theorem lexemes_error (h : lexemes t = .error e) : ∃ c ∈ t, e = .unexpectedCharacter c := by
  induction t with
  | nil => simp [lexemes] at h
  | cons c t ih =>
    unfold lexemes at h
    split at h
    · obtain ⟨d, hd, he⟩ := ih (map_eq_error h)
      exact ⟨d, List.mem_cons_of_mem _ hd, he⟩
    · split at h
      · obtain ⟨d, hd, he⟩ := ih (map_eq_error h)
        exact ⟨d, List.mem_cons_of_mem _ hd, he⟩
      · exact ⟨c, List.mem_cons_self, by simpa using h.symm⟩

private theorem readLiteral_error {l : Text} (h : readLiteral num l = .error e) : e = .invalidNumber l := by
  unfold readLiteral at h
  split at h <;> simp_all

private theorem tokensAt_error {b : Bool} {ls : List Lexeme} (h : tokensAt num b ls = .error e) :
    ∃ l, .literal l ∈ ls ∧ e = .invalidNumber l := by
  have hcons {β : Type} {x : β} {r : List Lexeme} (y : Lexeme) {ts : Except Error (List β)}
      (ih : ts = .error e → ∃ l, .literal l ∈ r ∧ e = .invalidNumber l)
      (h : (do return x :: (← ts)) = Except.error e) : ∃ l, .literal l ∈ y :: r ∧ e = .invalidNumber l := by
    rcases bind_eq_error h with h | ⟨_, _, h⟩
    · obtain ⟨l, hl, he⟩ := ih h
      exact ⟨l, List.mem_cons_of_mem _ hl, he⟩
    · simp [pure, Except.pure] at h
  fun_induction tokensAt num b ls with
  | case1 => simp at h
  | case2 _ l r ih =>
    rcases bind_eq_error h with h | ⟨x, _, h⟩
    · exact ⟨l, List.mem_cons_self, readLiteral_error h⟩
    · exact hcons _ ih h
  | case3 l r ih =>
    rcases bind_eq_error h with h | ⟨x, _, h⟩
    · exact ⟨l, by simp, readLiteral_error h⟩
    · obtain ⟨l', hl, he⟩ := hcons (.literal l) ih h
      exact ⟨l', List.mem_cons_of_mem _ hl, he⟩
  | case4 r _ ih => exact hcons _ ih h
  | case5 _ op r _ _ ih => exact hcons _ ih h
  | case6 _ r ih => exact hcons _ ih h
  | case7 _ r ih => exact hcons _ ih h

private theorem releaseAll_error {ws : List Waiting}
    (h : releaseAll ws = (.error e : Except Error (List (Instruction α)))) :
    e = .mismatchedParenthesis := by
  induction ws with
  | nil => simp [releaseAll] at h
  | cons w ws ih =>
    cases w with
    | opening => simpa [releaseAll] using h.symm
    | negate => exact ih (map_eq_error h)
    | operator op => exact ih (map_eq_error h)

private theorem programFrom_error {ws : List Waiting} {ts : List (Token α)} (h : programFrom ws ts = .error e) :
    e = .mismatchedParenthesis := by
  fun_induction programFrom ws ts with
  | case1 => exact releaseAll_error h
  | case2 _ _ _ ih => exact ih (map_eq_error h)
  | case3 _ _ ih => exact ih h
  | case4 _ _ ih => exact ih h
  | case5 _ _ _ _ ih => exact ih (map_eq_error h)
  | case6 => simpa using h.symm
  | case7 _ _ _ _ ih => exact ih (map_eq_error h)

private theorem run_error {stack : List α} {p : List (Instruction α)} (h : run num stack p = .error e) :
    e = .invalid ∨ e = .divisionByZero ∨ e = .moduloByZero := by
  fun_induction run num stack p with
  | case1 => simp at h
  | case2 => simp_all
  | case3 _ _ _ ih => exact ih h
  | case4 _ _ _ ih => exact ih h
  | case5 y x stack op p ih =>
    rcases bind_eq_error h with h | ⟨a, _, h⟩
    · cases op <;> simp only [Numbers.binary] at h
      case div | mod => split at h <;> simp_all
      all_goals simp at h
    · exact ih a h
  | case6 => simp_all

private theorem tokens_error (h : tokens num t = .error e) : e.QuotesFrom t := by
  intro hnul
  unfold tokens at h
  rcases bind_eq_error h with h | ⟨ls, hls, h⟩
  · obtain ⟨c, hc, rfl⟩ := lexemes_error h
    rcases List.mem_append.1 hnul with hnul | hnul
    · exact absurd hnul (by decide)
    · obtain rfl := List.mem_singleton.1 hnul
      exact ⟨rfl, hc⟩
  · obtain ⟨l, hl, rfl⟩ := tokensAt_error h
    rcases List.mem_append.1 hnul with hnul | hnul
    · exact absurd hnul (by decide)
    · exact absurd (isLiteralChar_of_lexemes hls hl _ hnul) (by decide)

private theorem evaluateArithmetic_error (h : evaluateArithmetic num t = .error e) : e.QuotesFrom t := by
  intro hnul
  unfold evaluateArithmetic at h
  simp only at h
  split at h
  · rw [← Except.error.inj h] at hnul
    exact absurd hnul (by decide)
  · rcases bind_eq_error h with h | ⟨ts, _, h⟩
    · exact (tokens_error h hnul).imp_right fun hc => (List.mem_filter.1 hc).1
    · rcases bind_eq_error h with h | ⟨p, _, h⟩
      · rw [programFrom_error h] at hnul
        exact absurd hnul (by decide)
      · rcases run_error h with rfl | rfl | rfl <;> exact absurd hnul (by decide)

/-- Neither the text with its calls replaced nor an error of a call brings in a NUL. -/
private theorem substituteCalls_nul (hnum : ∀ x, '\x00' ∉ num.text x) (n : Nat) (t : Text) :
    (∀ t', substituteCalls num n t = .ok t' → '\x00' ∈ t' → '\x00' ∈ t) ∧
      ∀ e, substituteCalls num n t = .error e → e.QuotesFrom t := by
  induction n generalizing t with
  | zero => simp [substituteCalls]
  | succ n ih =>
    unfold substituteCalls
    split
    · simp
    · rename_i before call rest hcall
      have hnew : ∀ x, '\x00' ∈ before ++ num.text (num.call call.function x) ++ rest → '\x00' ∈ t := by
        intro x hx
        simp only [List.mem_append, hnum, or_false] at hx
        exact mem_of_findCall? hcall (hx.imp id .inr)
      constructor
      · intro t' h hnul
        obtain ⟨x, _, h⟩ := bind_eq_ok h
        exact hnew x ((ih _).1 t' h hnul)
      · intro e h hnul
        rcases bind_eq_error h with h | ⟨x, _, h⟩
        · exact (evaluateArithmetic_error h hnul).imp_right fun hc => mem_of_findCall? hcall (.inr (.inl hc))
        · exact ((ih _).2 e h hnul).imp_right (hnew x)

private theorem evaluateNumber_error (hnum : ∀ x, '\x00' ∉ num.text x) (h : evaluateNumber num t = .error e) :
    e.QuotesFrom t := by
  intro hnul
  unfold evaluateNumber at h
  rcases bind_eq_error h with h | ⟨t', ht', h⟩
  · exact (substituteCalls_nul hnum _ t).2 e h hnul
  · exact (evaluateArithmetic_error h hnul).imp_right ((substituteCalls_nul hnum _ t).1 t' ht')

private theorem nul_not_mem_rangeText {a b : Int} {t : Text} (h : rangeText a b = .ok t) : '\x00' ∉ t := by
  unfold rangeText at h
  simp only at h
  split at h
  · simp at h
  · rw [← Except.ok.inj h]
    intro hnul
    rcases Text.mem_of_mem_join hnul with hnul | ⟨part, hp, hnul⟩
    · exact absurd hnul (by decide)
    · obtain ⟨i, _, rfl⟩ := List.mem_map.1 hp
      exact isForeign_nul.not_mem_intText i hnul

private theorem evaluate?_error (hnum : ∀ x, '\x00' ∉ num.text x) (h : evaluate? num t = .error e) :
    e.QuotesFrom t := by
  intro hnul
  have htrim : ∀ part ∈ Text.splitAll ".." t.trim, '\x00' ∈ part → '\x00' ∈ t :=
    fun part hp hc => Text.mem_of_mem_trim (Text.mem_of_mem_splitUpTo hp hc)
  unfold evaluate? at h
  simp only at h
  split at h
  · exact (evaluateNumber_error hnum (map_eq_error h) hnul).imp_right Text.mem_of_mem_trim
  · rename_i a b hab
    rw [hab] at htrim
    rcases bind_eq_error h with h | ⟨x, _, h⟩
    · exact (evaluateNumber_error hnum h hnul).imp_right (htrim a (by simp))
    · rcases bind_eq_error h with h | ⟨y, _, h⟩
      · exact (evaluateNumber_error hnum h hnul).imp_right (htrim b (by simp))
      · unfold rangeText at h
        simp only at h
        split at h
        · rw [← Except.error.inj h] at hnul
          rcases List.mem_append.1 hnul with hnul | hnul
          · rcases List.mem_append.1 hnul with hnul | hnul
            · exact absurd hnul (by decide)
            · exact absurd hnul (isForeign_nul.not_mem_natText _)
          · exact absurd hnul (by decide)
        · simp at h
  · rw [← Except.error.inj h] at hnul
    exact absurd hnul (by decide)

private theorem evaluate?_ok (hnum : ∀ x, '\x00' ∉ num.text x) {v : Text} (h : evaluate? num t = .ok v) :
    '\x00' ∉ v := by
  unfold evaluate? at h
  simp only at h
  split at h
  · obtain ⟨x, _, rfl⟩ := map_eq_ok h
    exact hnum x
  · obtain ⟨x, _, h⟩ := bind_eq_ok h
    obtain ⟨y, _, h⟩ := bind_eq_ok h
    exact nul_not_mem_rangeText h
  · simp at h

/-- The value of an expression holds a NUL only where the evaluator reports one that the expression holds. -/
theorem evaluate_of_nul_mem (hnum : ∀ x, '\x00' ∉ num.text x) (h : '\x00' ∈ evaluate num t) :
    evaluate num t = "ERROR: Unexpected character: \x00" ∧ '\x00' ∈ t := by
  unfold evaluate at h ⊢
  cases hv : evaluate? num t with
  | ok v =>
    rw [hv] at h
    exact absurd h (evaluate?_ok hnum hv)
  | error e =>
    rw [hv] at h
    rcases List.mem_append.1 h with h | h
    · exact absurd h (by decide)
    · obtain ⟨rfl, ht⟩ := evaluate?_error hnum hv h
      exact ⟨rfl, ht⟩

theorem not_mem_floatText (hc : IsForeign c) (hword : c ∉ ("Infinity" : Text)) (x : Float) : c ∉ floatText x := by
  unfold floatText
  split
  · exact fun hmem => (List.mem_append.1 hmem).elim (hc.not_mem_sign _) hword
  · split
    · rename_i n _ _ _
      have hzero := hc.not_mem_natText 0
      exact hzero
    · simpa using ⟨hc.not_mem_sign _, hc.not_mem_natText _⟩
  · exact hc.not_mem_plain x

theorem nul_not_mem_floatText (x : Float) : '\x00' ∉ floatText x :=
  not_mem_floatText isForeign_nul (by decide) x

end Arithmetic

end DirectiveEngine
