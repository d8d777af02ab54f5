import DirectiveEngine.Proofs.Directive.Form

/-!
# Requests for output

The first `>>` in the text of a host call is taken for a request to keep the output in a variable, and is cut out up to
the next space.  That is so as well if no name follows it, as in the shell where it appends to a file.  So a host call
that keeps no output has the whole text for its body just if there is no `>>` in it (`hostCall_body_kept_iff`).
-/

namespace DirectiveEngine.Directive

variable {raw t : Text}

/-- A text without `>>` is left as it is.  Otherwise the first one is cut out, with the word behind it, whatever that
is. -/
theorem splitCapture_cases (t : Text) :
    (¬ ">>" <:+: t ∧ splitCapture t = (t, none)) ∨
      ∃ before word after : Text, t = before ++ ">>" ++ (word ++ after) ∧ ' ' ∉ word ∧
        splitCapture t = (before ++ after, if word.trim = [] then none else some word.trim) := by
  unfold splitCapture
  cases h : Text.splitFirst? ">>" t with
  | none => exact .inl ⟨(Text.splitFirst?_eq_none_iff (by simp)).1 h, rfl⟩
  | some p =>
    obtain ⟨before, behind⟩ := p
    let word : Text := behind.takeWhile (· != ' ')
    let after : Text := behind.dropWhile (· != ' ')
    have hbehind : word ++ after = behind := List.takeWhile_append_dropWhile
    have hdrop : behind.drop word.length = after := by
      rw [← hbehind, List.drop_left]
    refine .inr ⟨before, word, after, ?_, ?_, ?_⟩
    · rw [hbehind]
      exact Text.eq_of_splitFirst? h
    · exact fun hmem => by simpa using List.mem_takeWhile_imp hmem
    · simp only [List.isEmpty_iff]
      rw [hdrop]

/-- The signs of a request are missing in the body. -/
theorem trim_splitCapture_eq_iff (t : Text) :
    Text.trim (splitCapture t).1 = t.trim ↔ ¬ ">>" <:+: t := by
  rcases splitCapture_cases t with ⟨hnone, h⟩ | ⟨before, word, after, ht, -, h⟩
  · rw [h]
    exact iff_of_true rfl hnone
  · have hsign : isBlank '>' = false := by decide
    have hcount : (splitCapture t).1.count '>' + 2 ≤ t.count '>' := by
      rw [h, ht]
      simp only [List.count_append]
      have : List.count '>' ">>".toList = 2 := by decide
      omega
    refine iff_of_false (fun heq => ?_) (not_not_intro ⟨before, word ++ after, ht.symm⟩)
    rw [← Text.count_trim hsign, ← Text.count_trim hsign t, heq] at hcount
    omega

/-- A host call that keeps no output has the whole text behind its mark for its body, trimmed, if and only if there is
no `>>` in it. -/
theorem hostCall_body_kept_iff (h : (parse raw).kind = .hostCall none) :
    ∃ rest, behindMarks (unmarked raw) = '$' :: rest ∧ ((parse raw).body = Text.trim rest ↔ ¬ ">>" <:+: rest) := by
  cases (parse_isRead raw).form with
  | hostCall rest text kind body => exact ⟨rest, text, by rw [body, trim_splitCapture_eq_iff]⟩
  | message _ _ kind | loop _ kind | assignment _ kind | webhook _ _ kind | command kind => cases h.symm.trans kind

/-- With every mark in front, and a single `>` in the text. -/
theorem hostCall_body_kept_iff_marked :
    (parse "[delay:5]!-$ echo a > b ").kind = .hostCall none ∧
      ∃ rest, behindMarks (unmarked "[delay:5]!-$ echo a > b ") = '$' :: rest ∧
        ((parse "[delay:5]!-$ echo a > b ").body = Text.trim rest ↔ ¬ ">>" <:+: rest) :=
  have hkind : (parse "[delay:5]!-$ echo a > b ").kind = .hostCall none := by decide +kernel
  ⟨hkind, hostCall_body_kept_iff hkind⟩

/-- A host call that appends to a file: no output is kept, and the shell is not asked to append. -/
theorem parse_append :
    (parse "$echo hi >> log.txt").kind = .hostCall none ∧ unmarked "$echo hi >> log.txt" = "$echo hi >> log.txt" ∧
      (parse "$echo hi >> log.txt").body = "echo hi  log.txt" := by
  decide +kernel

end DirectiveEngine.Directive
