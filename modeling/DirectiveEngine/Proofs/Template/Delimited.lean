import DirectiveEngine.Proofs.Text.Search
import DirectiveEngine.Template.Delimited

/-!
# Replacing delimited spans, step by step

One equation for each way in which the search for a span goes on.
-/

namespace DirectiveEngine

variable {opening closing t before after inner rest value : Text} {f : Text → Option Text} {c : Char}

theorem replaceDelimited_of_none (h : Text.splitFirst? opening t = none) :
    replaceDelimited opening closing f t = t := by
  rw [replaceDelimited]
  split <;> simp_all

theorem replaceDelimited_of_unclosed (h : Text.splitFirst? opening t = some (before, after))
    (h' : Text.splitFirst? closing after = none) : replaceDelimited opening closing f t = t := by
  rw [replaceDelimited]
  split
  · rfl
  · split <;> simp_all

theorem replaceDelimited_of_some (hne : opening ≠ []) (h : Text.splitFirst? opening t = some (before, after))
    (h' : Text.splitFirst? closing after = some (inner, rest)) (hf : f inner = some value) :
    replaceDelimited opening closing f t = before ++ value ++ replaceDelimited opening closing f rest := by
  obtain ⟨c, o, rfl⟩ := List.exists_cons_of_ne_nil hne
  rw [replaceDelimited]
  split
  · simp_all
  · split <;> simp_all

theorem replaceDelimited_of_declined (h : Text.splitFirst? (c :: opening) t = some (before, after))
    (h' : Text.splitFirst? closing after = some (inner, rest)) (hf : f inner = none) :
    replaceDelimited (c :: opening) closing f t =
      before ++ c :: replaceDelimited (c :: opening) closing f (opening ++ after) := by
  rw [replaceDelimited]
  split
  · simp_all
  · split <;> simp_all

/-- A character that starts no opening is passed over. -/
theorem replaceDelimited_cons (hne : opening ≠ []) (h : ¬ opening <+: c :: t) :
    replaceDelimited opening closing f (c :: t) = c :: replaceDelimited opening closing f t := by
  obtain ⟨d, o, rfl⟩ := List.exists_cons_of_ne_nil hne
  have hcons := Text.splitFirst?_cons h
  cases ht : Text.splitFirst? (d :: o) t with
  | none =>
    rw [ht] at hcons
    rw [replaceDelimited_of_none ht, replaceDelimited_of_none hcons]
  | some r =>
    rw [ht] at hcons
    cases hr : Text.splitFirst? closing r.2 with
    | none => rw [replaceDelimited_of_unclosed ht hr, replaceDelimited_of_unclosed hcons hr]
    | some q =>
      cases hf : f q.1 with
      | some v =>
        rw [replaceDelimited_of_some hne ht hr hf, replaceDelimited_of_some hne hcons hr hf]
        simp
      | none =>
        rw [replaceDelimited_of_declined ht hr hf, replaceDelimited_of_declined hcons hr hf]
        simp

/-- A text without an opening is passed over, up to a character that the opening lacks. -/
theorem replaceDelimited_append_cons {x : Char} {a b : Text} (hne : opening ≠ []) (ha : ¬ opening <:+: a)
    (hx : x ∉ opening) :
    replaceDelimited opening closing f (a ++ x :: b) = a ++ x :: replaceDelimited opening closing f b := by
  induction a with
  | nil =>
    have hstart : ¬ opening <+: [] ++ x :: b := fun h =>
      hne (List.prefix_nil.1 (Text.prefix_of_prefix_append_cons hx h))
    exact replaceDelimited_cons hne hstart
  | cons c a ih =>
    have hstart : ¬ opening <+: c :: (a ++ x :: b) := fun h =>
      ha (Text.prefix_of_prefix_append_cons (a := c :: a) hx h).isInfix
    rw [List.cons_append, replaceDelimited_cons hne hstart, ih fun h => ha (List.infix_cons h)]
    rfl

/-- What all characters of a text and of the values have in common. -/
theorem forall_mem_replaceDelimited {P : Char → Prop} (ht : ∀ c ∈ t, P c)
    (hf : ∀ inner v, (∀ c ∈ inner, P c) → f inner = some v → ∀ c ∈ v, P c) :
    ∀ c ∈ replaceDelimited opening closing f t, P c := by
  have hsplit {sep t a b : Text} (ht : ∀ c ∈ t, P c) (h : Text.splitFirst? sep t = some (a, b)) :
      (∀ c ∈ a, P c) ∧ ∀ c ∈ b, P c :=
    ⟨fun c hc => ht c (Text.mem_of_splitFirst? h (.inl hc)), fun c hc => ht c (Text.mem_of_splitFirst? h (.inr hc))⟩
  fun_induction replaceDelimited opening closing f t with
  | case1 => exact ht
  | case2 => exact ht
  | case3 t before after inner rest hrest value c opening hafter hvalue _ ih =>
    obtain ⟨hbefore, hafter⟩ := hsplit ht hafter
    obtain ⟨hinner, hrest⟩ := hsplit hafter hrest
    exact List.forall_mem_append.2 ⟨List.forall_mem_append.2 ⟨hbefore, hf _ _ hinner hvalue⟩, ih hrest⟩
  | case4 t before after inner rest hrest c opening hafter hvalue _ ih =>
    rw [Text.eq_of_splitFirst? hafter] at ht
    simp only [List.append_assoc, List.cons_append, List.forall_mem_append, List.forall_mem_cons] at ht
    obtain ⟨hbefore, hc, htail⟩ := ht
    exact List.forall_mem_append.2 ⟨hbefore, List.forall_mem_cons.2 ⟨hc, ih (List.forall_mem_append.2 htail)⟩⟩
  | case5 => exact ht

end DirectiveEngine
