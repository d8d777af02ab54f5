import DirectiveEngine.Proofs.Template.Percent

/-!
# Passes over spans of their own

A pass that replaces spans between percent signs goes over a text without such signs, and over a span with no letter
behind its closing sign, as if nothing else were there (`Spanwise`).  Passes that are so make one that is.
-/

namespace DirectiveEngine

variable {p : Text → Prop} {r : Text → Text → Prop} {P Q : Text → Text} {b o t new : Text}

/-- A percent sign in front of such a text opens no span. -/
def EndsSpan (t : Text) : Prop :=
  ∀ c ∈ t.head?, c.isAlpha = false ∧ c ≠ '%'

instance (t : Text) : Decidable (EndsSpan t) :=
  decidable_of_iff (t.head?.all (fun c => !c.isAlpha && c != '%') = true) (by cases t <;> simp [EndsSpan])

theorem endsSpan_nil : EndsSpan [] := by
  simp [EndsSpan]

/-- A name of a placeholder, or what such names start with. -/
structure IsOpening (o : Text) : Prop where
  sign : '%' ∉ o
  letter : ∃ c ∈ o.head?, c.isAlpha = true

instance (o : Text) : Decidable (IsOpening o) :=
  decidable_of_iff ('%' ∉ o ∧ o.head?.any Char.isAlpha = true)
    ⟨fun h => ⟨h.1, (Option.any_eq_true _ _).1 h.2⟩, fun h => ⟨h.sign, (Option.any_eq_true _ _).2 h.letter⟩⟩

theorem IsOpening.append {r : Text} (ho : IsOpening o) (hr : '%' ∉ r) : IsOpening (o ++ r) := by
  obtain ⟨c, hc, hletter⟩ := ho.letter
  refine ⟨by simp [ho.sign, hr], c, ?_, hletter⟩
  rw [List.head?_append, Option.mem_def.1 hc]
  rfl

theorem IsOpening.opensNone (ho : IsOpening o) (ht : EndsSpan t) : OpensNone o t := by
  rintro - ⟨s, rfl⟩
  obtain ⟨c, hc, hletter⟩ := ho.letter
  have hhead : c ∈ (o ++ s).head? := by
    rw [List.head?_append, Option.mem_def.1 hc]
    rfl
  rw [(ht c hhead).1] at hletter
  exact absurd hletter (by decide)

/-! ### A span alone -/

theorem replaceAll_only (ho : IsOpening o) (hb : '%' ∉ b) :
    Text.replaceAll ('%' :: (o ++ ['%'])) new ('%' :: (b ++ ['%'])) = if b = o then new else '%' :: (b ++ ['%']) := by
  split
  · subst_vars
    rw [replaceAll_span_self, Text.replaceAll_nil, List.append_nil]
  · rename_i hne
    rw [replaceAll_span hb ho.sign hne, replaceAll_closing (opensNone_nil o), Text.replaceAll_nil]

theorem replaceDelimited_only {f : Text → Option Text} (ho : IsOpening o) (hb : '%' ∉ b) :
    replaceDelimited ('%' :: o) ['%'] f ('%' :: (b ++ ['%'])) =
      ((Text.stripPrefix? o b).bind f).getD ('%' :: (b ++ ['%'])) := by
  have hnil : replaceDelimited ('%' :: o) ['%'] f [] = [] := replaceDelimited_of_none (Text.splitFirst?_nil (by simp))
  cases hv : (Text.stripPrefix? o b).bind f with
  | none =>
    rw [replaceDelimited_span_of_none hb ho.sign hv, replaceDelimited_closing (opensNone_nil o), hnil]
    rfl
  | some v =>
    rw [replaceDelimited_span_of_some hb hv, hnil, List.append_nil]
    rfl

/-! ### A span among others -/

/-- Whatever stands around them, text without percent signs stays, and a span with a body of a certain kind becomes what
it becomes alone: itself, or a text without percent signs that the body may become. -/
structure Spanwise (p : Text → Prop) (r : Text → Text → Prop) (P : Text → Text) : Prop where
  nil : P [] = []
  append : ∀ {a t}, '%' ∉ a → P (a ++ t) = a ++ P t
  span : ∀ {b t}, '%' ∉ b → p b → EndsSpan t → P ('%' :: (b ++ '%' :: t)) = P ('%' :: (b ++ ['%'])) ++ P t
  value : ∀ {b}, '%' ∉ b → p b →
    P ('%' :: (b ++ ['%'])) = '%' :: (b ++ ['%']) ∨ '%' ∉ P ('%' :: (b ++ ['%'])) ∧ r b (P ('%' :: (b ++ ['%'])))

namespace Spanwise

theorem self (h : Spanwise p r P) (ht : '%' ∉ t) : P t = t := by
  have happend := h.append (t := []) ht
  rwa [h.nil, List.append_nil] at happend

theorem endsSpan (h : Spanwise p r P) (ht : EndsSpan t) : EndsSpan (P t) := by
  cases t with
  | nil => rwa [h.nil]
  | cons c t =>
    obtain ⟨hletter, hsign⟩ := ht c rfl
    have hcons : P ([c] ++ t) = [c] ++ P t := h.append (by simpa using hsign.symm)
    rw [← List.singleton_append, hcons]
    exact fun d hd => Option.some.inj hd ▸ ⟨hletter, hsign⟩

theorem comp (h : Spanwise p r P) (h' : Spanwise p r Q) : Spanwise p r (Q ∘ P) where
  nil := by rw [Function.comp, h.nil, h'.nil]
  append ha := by rw [Function.comp, h.append ha, h'.append ha]; rfl
  span {b t} hb hp ht := by
    rw [Function.comp, h.span hb hp ht]
    rcases h.value hb hp with hself | ⟨hvalue, -⟩
    · have hwhole : '%' :: (b ++ ['%']) ++ P t = '%' :: (b ++ '%' :: P t) := by simp
      rw [hself, hwhole, h'.span hb hp (h.endsSpan ht), Function.comp, hself]
      rfl
    · rw [h'.append hvalue, Function.comp, h'.self hvalue]
      rfl
  value {b} hb hp := by
    rw [Function.comp]
    rcases h.value hb hp with hself | hvalue
    · rw [hself]
      exact h'.value hb hp
    · rw [h'.self hvalue.1]
      exact .inr hvalue

theorem id : Spanwise p r fun t => t where
  nil := rfl
  append _ := rfl
  span _ _ _ := by simp
  value _ _ := .inl rfl

/-! ### Single passes -/

theorem replaceAll (ho : IsOpening o) (hnew : p o → '%' ∉ new ∧ r o new) :
    Spanwise p r (Text.replaceAll ('%' :: (o ++ ['%'])) new) where
  nil := Text.replaceAll_nil _ _
  append ha := Text.replaceAll_append ha _ _ _
  span {b t} hb _ ht := by
    rw [replaceAll_only ho hb]
    split
    · subst_vars
      exact replaceAll_span_self
    · rename_i hne
      rw [replaceAll_span hb ho.sign hne, replaceAll_closing (ho.opensNone ht)]
      simp
  value {b} hb hp := by
    rw [replaceAll_only ho hb]
    split
    · subst_vars
      exact .inr (hnew hp)
    · exact .inl rfl

theorem replaceDelimited {f : Text → Option Text} (ho : IsOpening o)
    (hf : ∀ inner v, p (o ++ inner) → '%' ∉ inner → f inner = some v → '%' ∉ v ∧ r (o ++ inner) v) :
    Spanwise p r (DirectiveEngine.replaceDelimited ('%' :: o) ['%'] f) where
  nil := replaceDelimited_of_none (Text.splitFirst?_nil (by simp))
  append := replaceDelimited_append
  span {b t} hb _ ht := by
    rw [replaceDelimited_only ho hb]
    cases hv : (Text.stripPrefix? o b).bind f with
    | none =>
      rw [replaceDelimited_span_of_none hb ho.sign hv, replaceDelimited_closing (ho.opensNone ht)]
      simp
    | some v => exact replaceDelimited_span_of_some hb hv t
  value {b} hb hp := by
    rw [replaceDelimited_only ho hb]
    cases hv : (Text.stripPrefix? o b).bind f with
    | none => exact .inl rfl
    | some v =>
      obtain ⟨inner, hinner, hvalue⟩ := Option.bind_eq_some_iff.1 hv
      obtain rfl := Text.eq_append_of_isPrefixOf? hinner
      exact .inr (hf inner v hp (fun hmem => hb (List.mem_append_right _ hmem)) hvalue)

theorem replaceNested {value : Text → Text} (ho : IsOpening o) (hp : ¬ p o) :
    Spanwise p r (DirectiveEngine.replaceNested ('%' :: o) value) := by
  have hnil : DirectiveEngine.replaceNested ('%' :: o) value [] = [] :=
    replaceNested_of_none (Text.splitFirst?_nil (by simp))
  have hclosing {t : Text} (ht : EndsSpan t) : DirectiveEngine.replaceNested ('%' :: o) value ('%' :: t) =
      '%' :: DirectiveEngine.replaceNested ('%' :: o) value t := replaceNested_closing (ho.opensNone ht)
  have hspan {b t : Text} (hb : '%' ∉ b) (hpb : p b) (ht : EndsSpan t) :
      DirectiveEngine.replaceNested ('%' :: o) value ('%' :: (b ++ '%' :: t)) =
        '%' :: (b ++ '%' :: DirectiveEngine.replaceNested ('%' :: o) value t) := by
    rw [replaceNested_span hb ho.sign fun heq => hp (heq ▸ hpb), hclosing ht]
  refine ⟨hnil, replaceNested_append, fun {b t} hb hpb ht => ?_, fun {b} hb hpb => .inl ?_⟩
  · rw [hspan hb hpb ht, hspan hb hpb endsSpan_nil, hnil]
    simp
  · rw [hspan hb hpb endsSpan_nil, hnil]

/-- Passes one after the other. -/
theorem foldl {α : Type} {pass : α → Text → Text} {as : List α} (h : ∀ a ∈ as, Spanwise p r (pass a)) :
    Spanwise p r fun t => as.foldl (fun t a => pass a t) t := by
  induction as with
  | nil => exact id
  | cons a as ih =>
    exact (h a List.mem_cons_self).comp (ih fun b hb => h b (List.mem_cons_of_mem _ hb))

end Spanwise

end DirectiveEngine
