import DirectiveEngine.Text.Blank

/-!
# Delimited spans

The scanners that find placeholders.  A span runs from an opening text to the first closing text after it.
Replaced text is never scanned again, so a value that looks like a placeholder stays as it is.
-/

namespace DirectiveEngine

/-- Replaces the inside of each span, with its delimiters, by what `f` makes of it.  Where `f` declines, the
search goes on one character behind the start of the span, so overlapping spans are still found. -/
def replaceDelimited (opening closing : Text) (f : Text → Option Text) (t : Text) : Text :=
  match _h : Text.splitFirst? opening t with
  | none => t
  | some (before, after) =>
    match _h' : Text.splitFirst? closing after with
    | none => t
    | some (inner, rest) =>
      match f inner, opening with
      | some value, _ :: _ => before ++ value ++ replaceDelimited opening closing f rest
      | none, c :: opening' =>
        before ++ c :: replaceDelimited (c :: opening') closing f (opening' ++ after)
      | _, [] => t
termination_by t.length
decreasing_by
  all_goals
    have h₁ := Text.length_of_splitFirst? ‹Text.splitFirst? _ t = _›
    have h₂ := Text.length_of_splitFirst? ‹Text.splitFirst? closing after = _›
    simp_all
    try omega

/-- What stands before and after the parenthesis that closes a group with `depth + 1` open ones. -/
def splitGroup? : Nat → Text → Option (Text × Text)
  | _, [] => none
  | depth, c :: t =>
    if c = ')' then
      match depth with
      | 0 => some ([], t)
      | depth + 1 => (splitGroup? depth t).map fun r => (c :: r.1, r.2)
    else (splitGroup? (if c = '(' then depth + 1 else depth) t).map fun r => (c :: r.1, r.2)

theorem eq_of_splitGroup? {depth : Nat} {t a b : Text} (h : splitGroup? depth t = some (a, b)) :
    t = a ++ ')' :: b := by
  induction t generalizing depth a b with
  | nil => simp [splitGroup?] at h
  | cons c t ih =>
    unfold splitGroup? at h
    split at h
    · rename_i hc
      subst hc
      split at h
      · simp_all
      · obtain ⟨⟨x, y⟩, hxy, he⟩ := Option.map_eq_some_iff.1 h
        simp only [Prod.mk.injEq] at he
        obtain ⟨rfl, rfl⟩ := he
        simp [ih hxy]
    · obtain ⟨⟨x, y⟩, hxy, he⟩ := Option.map_eq_some_iff.1 h
      simp only [Prod.mk.injEq] at he
      obtain ⟨rfl, rfl⟩ := he
      simp [ih hxy]

/-- A file token ends before a blank, a quote, a comma or a closing bracket. -/
def endsToken (c : Char) : Bool :=
  isBlank c || c ∈ ['"', '\'', ',', ']', '\x7d', ')']

/-- A file token and what follows it. -/
def splitToken (t : Text) : Text × Text :=
  (t.takeWhile fun c => !endsToken c, t.dropWhile fun c => !endsToken c)

theorem splitToken_append (t : Text) : (splitToken t).1 ++ (splitToken t).2 = t :=
  List.takeWhile_append_dropWhile

end DirectiveEngine
