import DirectiveEngine.Proofs.Condition
import DirectiveEngine.Proofs.Json.Quoted
import DirectiveEngine.Proofs.Text.Trim

/-!
# Paths in two parts

A path goes on from what its first part leads to, whatever the text is (`JsonPath.extract_append`).  The blanks around
the text are trimmed once, before the first key, and those around a value on the way are not.  This makes no difference
to the second part: each text that a path comes to either has no blank at its ends or holds no quote, and then no key
either (`JsonPath.isSettled_of_follow?`).
-/

namespace DirectiveEngine.JsonPath

variable {key : Text} {path : List Text} {json t v : Text}

/-! ### Where values end -/

/-- A value in brackets is the whole text, or ends with its closing bracket. -/
theorem balanced_eq_self_or (opening closing : Char) (depth : Nat) (t : Text) :
    balanced opening closing depth t = t ∨ (balanced opening closing depth t).getLast? = some closing := by
  have hcons {c : Char} {t u : Text} (h : u = t ∨ u.getLast? = some closing) :
      c :: u = c :: t ∨ (c :: u).getLast? = some closing := by
    rcases h with rfl | h
    · exact .inl rfl
    · exact .inr (by rw [List.getLast?_cons, h, Option.getD_some])
  fun_induction balanced opening closing depth t with
  | case1 => exact .inl rfl
  | case2 depth t ih => exact hcons ih
  | case3 depth t _ _ => exact .inr rfl
  | case4 depth t _ _ ih => exact hcons ih
  | case5 depth c t _ _ ih => exact hcons ih

theorem trim_balanced {opening closing : Char} (hopening : isBlank opening = false) (hclosing : isBlank closing = false)
    (hlast : ∀ c ∈ (opening :: t).getLast?, isBlank c = false) :
    (balanced opening closing 0 (opening :: t)).trim = balanced opening closing 0 (opening :: t) := by
  refine Text.trim_eq_self_iff.2 ⟨fun c hc => ?_, fun c hc => ?_⟩
  · rw [balanced, if_pos rfl] at hc
    exact Option.some.inj hc ▸ hopening
  · rcases balanced_eq_self_or opening closing 0 (opening :: t) with hself | hend
    · exact hlast c (hself ▸ hc)
    · rw [hend] at hc
      exact Option.some.inj hc ▸ hclosing

/-! ### Texts on the way -/

/-- A text in which a search finds the same before and after it is trimmed: nothing is trimmed, or nothing is found. -/
def IsSettled (t : Text) : Prop :=
  t.trim = t ∨ '"' ∉ t

theorem step?_of_quote_not_mem (h : '"' ∉ t) (key : Text) : step? t key = none := by
  have hempty := JsonText.step?_append h [] key
  rw [List.append_nil] at hempty
  exact hempty

/-- A value that does not end in blanks is settled once it is cut out. -/
theorem isSettled_of_value? (hlast : ∀ c ∈ t.getLast?, isBlank c = false) (h : value? t = some v) : IsSettled v := by
  unfold value? at h
  split at h
  · cases h
  · -- the text of a string ends before the next quote
    rename_i r
    obtain ⟨⟨text, rest⟩, hcut, rfl⟩ := Option.map_eq_some_iff.1 h
    have hnone : ¬ ['"'] <:+: text ++ [] := Text.not_infix_of_splitFirst? (List.cons_ne_nil _ _) hcut
    refine .inr fun hmem => hnone ?_
    obtain ⟨a, b, rfl⟩ := List.append_of_mem hmem
    exact ⟨a, b, by simp⟩
  · cases h
    exact .inl (trim_balanced (by decide) (by decide) hlast)
  · cases h
    exact .inl (trim_balanced (by decide) (by decide) hlast)
  · cases h
    exact .inl (Text.trim_trim _)

/-- A step from a settled text comes to a settled one. -/
theorem isSettled_of_step? (ht : IsSettled t) (h : step? t key = some v) : IsSettled v := by
  rcases ht with htrim | hquote
  · simp only [step?, Option.bind_eq_bind, Option.bind_eq_some_iff] at h
    obtain ⟨⟨before, after⟩, hkey, ⟨skipped, rest⟩, hcolon, hvalue⟩ := h
    have hsuffix : rest.trimStart <:+ t := by
      refine (List.dropWhile_suffix isBlank).trans ?_
      rw [Text.eq_of_splitFirst? hkey, List.append_assoc, Text.eq_of_splitFirst? hcolon]
      exact (List.suffix_append _ rest).trans (List.suffix_append before _)
    refine isSettled_of_value? (fun c hc => ?_) hvalue
    obtain ⟨front, rfl⟩ := hsuffix
    refine (Text.trim_eq_self_iff.1 htrim).2 c ?_
    rw [List.getLast?_append, Option.mem_def.1 hc, Option.some_or, Option.mem_some_iff]
  · rw [step?_of_quote_not_mem hquote] at h
    cases h

/-- From a settled text a path comes to settled texts only. -/
theorem isSettled_of_follow? (ht : IsSettled t) (h : follow? path t = some v) : IsSettled v := by
  induction path generalizing t with
  | nil => exact Option.some.inj h ▸ ht
  | cons key keys ih =>
    obtain ⟨u, hstep, hrest⟩ := Option.bind_eq_some_iff.1 h
    exact ih (isSettled_of_step? ht hstep) hrest

/-- Trimming a settled text does not change where a path leads from there. -/
theorem follow?_trim (ht : IsSettled t) (hpath : path ≠ []) : follow? path t.trim = follow? path t := by
  obtain ⟨key, keys, rfl⟩ := List.exists_cons_of_ne_nil hpath
  rcases ht with htrim | hquote
  · rw [htrim]
  · have htrimmed : '"' ∉ t.trim := fun h => hquote (Text.mem_of_mem_trim h)
    rw [follow?, follow?, step?_of_quote_not_mem hquote, step?_of_quote_not_mem htrimmed]

/-! ### Two parts -/

theorem follow?_append (front back : List Text) (t : Text) :
    follow? (front ++ back) t = (follow? front t).bind (follow? back) := by
  induction front generalizing t with
  | nil => rfl
  | cons key keys ih =>
    rw [List.cons_append, follow?, follow?, Option.bind_assoc]
    exact congrArg (step? t key).bind (funext ih)

/-- A path of two parts reads what the second one reads in what the first one reads. -/
theorem extract_append (json p q : Text) : extract json (p ++ '.' :: q) = extract (extract json p) q := by
  have hcut : (p ++ '.' :: q).splitOn '.' = p.splitOn '.' ++ q.splitOn '.' :=
    List.splitOn_append_cons_of_beq p q (beq_self_eq_true _)
  have hback : q.splitOn '.' ≠ [] := List.splitOn_ne_nil '.' q
  rw [extract, hcut, follow?_append]
  cases hfront : follow? (p.splitOn '.') json.trim with
  | none =>
    -- what is missing reads as empty, and nothing is found there
    have hmissing : extract json p = [] := by rw [extract, hfront, Option.getD_none]
    rw [hmissing, extract_nil, Option.bind_none, Option.getD_none]
  | some v =>
    have hread : extract json p = v := by rw [extract, hfront, Option.getD_some]
    have hsettled : IsSettled v := isSettled_of_follow? (.inl (Text.trim_trim json)) hfront
    rw [hread, extract, follow?_trim hsettled hback, Option.bind_some]

end DirectiveEngine.JsonPath
