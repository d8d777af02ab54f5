import DirectiveEngine.Proofs.Template.Delimited

/-!
# Cutting a text into spans

Replacing delimited spans cuts a text into pieces and accepted spans: no piece has an accepted span that starts in it
(`Cut.IsExact`).  Each text has such a cut (`exists_isExact`), and putting the values in its spans is what the scanner
does (`Cut.IsExact.replaceDelimited`).  A cut depends on what is accepted, not on the values, so these are not scanned.
-/

namespace DirectiveEngine

variable {opening closing inner rest t u a b : Text} {accepts : Text → Prop} {f : Text → Option Text} {c : Char}

/-! ### Spans in a text -/

/-- The text starts with a span: an opening, what is inside, and the first closing behind the opening. -/
structure IsSpan (opening closing inner rest t : Text) : Prop where
  eq : t = opening ++ (inner ++ (closing ++ rest))
  first : ¬ closing <:+: inner ++ closing.dropLast

/-- No accepted span starts in the first text, if the second one stands behind it. -/
def Skips (opening closing : Text) (accepts : Text → Prop) (a b : Text) : Prop :=
  ∀ u v inner rest, a = u ++ v → v ≠ [] → IsSpan opening closing inner rest (v ++ b) → ¬ accepts inner

theorem skips_nil : Skips opening closing accepts [] b := by
  intro u v inner rest h hv
  exact absurd (List.append_eq_nil_iff.1 h.symm).2 hv

theorem skips_cons_iff :
    Skips opening closing accepts (c :: a) b ↔
      (∀ inner rest, IsSpan opening closing inner rest (c :: (a ++ b)) → ¬ accepts inner) ∧
        Skips opening closing accepts a b := by
  constructor
  · intro h
    refine ⟨fun inner rest => h [] (c :: a) inner rest rfl (List.cons_ne_nil c a), ?_⟩
    rintro u v inner rest rfl hv
    exact h (c :: u) v inner rest rfl hv
  · rintro ⟨hhere, hbehind⟩ u v inner rest h hv
    cases u with
    | nil =>
      obtain rfl : v = c :: a := h.symm
      exact hhere inner rest
    | cons d u => exact hbehind u v inner rest (List.cons.inj h).2 hv

/-- Whatever stands behind an opening is a span if a closing is found in it. -/
theorem isSpan_of_splitFirst? (hc : closing ≠ []) (h : Text.splitFirst? closing t = some (inner, rest)) :
    IsSpan opening closing inner rest (opening ++ t) where
  eq := by rw [Text.eq_of_splitFirst? h, List.append_assoc]
  first := Text.not_infix_of_splitFirst? hc h

/-! ### One step of the scanner -/

theorem replaceDelimited_isSpan (ho : opening ≠ []) (h : IsSpan opening closing inner rest t) {value : Text}
    (hf : f inner = some value) :
    replaceDelimited opening closing f t = value ++ replaceDelimited opening closing f rest := by
  have hopen := Text.splitFirst?_append_self ho (inner ++ (closing ++ rest))
  rw [← h.eq] at hopen
  exact replaceDelimited_of_some ho hopen (Text.splitFirst?_of_front h.first rest) hf

/-- Where an opening is not closed, no later one is. -/
private theorem replaceDelimited_behind_unclosed (hc : closing ≠ []) (h : Text.splitFirst? closing t = none)
    (a : Text) : replaceDelimited (c :: a) closing f (a ++ t) = a ++ t := by
  cases hnext : Text.splitFirst? (c :: a) (a ++ t) with
  | none => exact replaceDelimited_of_none hnext
  | some r =>
    have hlen := Text.length_of_splitFirst? hnext
    rw [List.length_append, List.length_cons] at hlen
    have hsuffix : r.2 <:+ t := by
      refine List.suffix_of_suffix_length_le ?_ (List.suffix_append a t) (by omega)
      rw [Text.eq_of_splitFirst? hnext]
      exact List.suffix_append _ _
    have hclosed : ¬ closing <:+: t := (Text.splitFirst?_eq_none_iff hc).1 h
    exact replaceDelimited_of_unclosed hnext
      ((Text.splitFirst?_eq_none_iff hc).2 fun hclosing => hclosed (hclosing.trans hsuffix.isInfix))

/-- A character that starts no accepted span is passed over. -/
theorem replaceDelimited_cons_of_declined (ho : opening ≠ []) (hc : closing ≠ [])
    (h : ∀ inner rest, IsSpan opening closing inner rest (c :: t) → f inner = none) :
    replaceDelimited opening closing f (c :: t) = c :: replaceDelimited opening closing f t := by
  by_cases hstart : opening <+: c :: t
  · obtain ⟨d, o, rfl⟩ := List.exists_cons_of_ne_nil ho
    obtain ⟨rfl, after, rfl⟩ := List.cons_prefix_cons.1 hstart
    have hopen : Text.splitFirst? (d :: o) (d :: (o ++ after)) = some ([], after) :=
      Text.splitFirst?_append_self ho after
    cases hclose : Text.splitFirst? closing after with
    | none =>
      rw [replaceDelimited_of_unclosed hopen hclose, replaceDelimited_behind_unclosed hc hclose]
    | some r => exact replaceDelimited_of_declined hopen hclose (h r.1 r.2 (isSpan_of_splitFirst? hc hclose))
  · exact replaceDelimited_cons ho hstart

/-- A text in which no accepted span starts is passed over. -/
theorem replaceDelimited_skips (ho : opening ≠ []) (hc : closing ≠ [])
    (h : Skips opening closing (fun inner => f inner ≠ none) a b) :
    replaceDelimited opening closing f (a ++ b) = a ++ replaceDelimited opening closing f b := by
  induction a with
  | nil => rfl
  | cons c a ih =>
    obtain ⟨hhere, hbehind⟩ := skips_cons_iff.1 h
    rw [List.cons_append, replaceDelimited_cons_of_declined ho hc fun inner rest hspan =>
      Classical.not_not.1 (hhere inner rest hspan), ih hbehind]
    rfl

theorem replaceDelimited_of_skips (ho : opening ≠ []) (hc : closing ≠ [])
    (h : Skips opening closing (fun inner => f inner ≠ none) t []) : replaceDelimited opening closing f t = t := by
  have hpass := replaceDelimited_skips ho hc h
  rwa [replaceDelimited_of_none (Text.splitFirst?_nil ho), List.append_nil] at hpass

/-! ### Cuts -/

/-- The inside of a span, and the piece of text in front of the span. -/
structure Span where
  before : Text
  inner : Text

/-- Spans with the pieces between them, and the piece behind the last one. -/
structure Cut where
  spans : List Span
  last : Text

namespace Cut

/-- The pieces with texts in the places of the spans. -/
def fill (x : Cut) (values : List Text) : Text :=
  (List.zipWith (fun s value => s.before ++ value) x.spans values).flatten ++ x.last

/-- The pieces with the spans between them. -/
def written (x : Cut) (opening closing : Text) : Text :=
  x.fill (x.spans.map fun s => opening ++ s.inner ++ closing)

theorem fill_nil (last : Text) (values : List Text) : fill ⟨[], last⟩ values = last := by
  simp [fill]

theorem fill_cons (s : Span) (spans : List Span) (last value : Text) (values : List Text) :
    fill ⟨s :: spans, last⟩ (value :: values) = s.before ++ (value ++ fill ⟨spans, last⟩ values) := by
  simp [fill]

theorem written_cons (s : Span) (spans : List Span) (last : Text) :
    written ⟨s :: spans, last⟩ opening closing =
      s.before ++ (opening ++ s.inner ++ closing ++ written ⟨spans, last⟩ opening closing) :=
  fill_cons s spans last _ _

/-- The text is cut at accepted spans, and no accepted span starts in a piece. -/
inductive IsExact (opening closing : Text) (accepts : Text → Prop) : Cut → Text → Prop
  | last {t : Text} : Skips opening closing accepts t [] → IsExact opening closing accepts ⟨[], t⟩ t
  | span {s : Span} {spans : List Span} {last rest t : Text} : Skips opening closing accepts s.before t →
    IsSpan opening closing s.inner rest t → accepts s.inner → IsExact opening closing accepts ⟨spans, last⟩ rest →
    IsExact opening closing accepts ⟨s :: spans, last⟩ (s.before ++ t)

namespace IsExact

variable {x : Cut}

theorem written (h : IsExact opening closing accepts x t) : x.written opening closing = t := by
  induction h with
  | last => exact fill_nil _ _
  | @span s spans last rest t _ hspan _ _ ih =>
    rw [written_cons, ih, hspan.eq]
    simp

theorem replaceDelimited (h : IsExact opening closing accepts x t) (ho : opening ≠ []) (hc : closing ≠ [])
    (hf : ∀ inner, f inner ≠ none ↔ accepts inner) :
    ∃ values, x.spans.map (fun s => f s.inner) = values.map some ∧
      replaceDelimited opening closing f t = x.fill values := by
  obtain rfl : (fun inner => f inner ≠ none) = accepts := funext fun inner => propext (hf inner)
  induction h with
  | last hskips => exact ⟨[], rfl, by rw [replaceDelimited_of_skips ho hc hskips, fill_nil]⟩
  | span hskips hspan haccepted _ ih =>
    obtain ⟨values, hvalues, hrest⟩ := ih
    obtain ⟨value, hvalue⟩ := Option.ne_none_iff_exists'.1 haccepted
    refine ⟨value :: values, by rw [List.map_cons, List.map_cons, hvalue, hvalues], ?_⟩
    rw [replaceDelimited_skips ho hc hskips, replaceDelimited_isSpan ho hspan hvalue, hrest, fill_cons]

/-- The values are put in if each accepted text has its own. -/
theorem replaceDelimited_map (h : IsExact opening closing accepts x t) (ho : opening ≠ []) (hc : closing ≠ [])
    (hf : ∀ inner, f inner ≠ none ↔ accepts inner) {value : Text → Text}
    (hvalue : ∀ inner v, f inner = some v → value inner = v) :
    DirectiveEngine.replaceDelimited opening closing f t = x.fill (x.spans.map fun s => value s.inner) := by
  obtain ⟨values, hvalues, hfill⟩ := h.replaceDelimited ho hc hf
  have heq : values = x.spans.map fun s => value s.inner := by
    refine (List.map_inj_right fun _ _ => Option.some.inj).1 (hvalues.symm.trans ?_)
    rw [List.map_map]
    refine List.map_congr_left fun s hs => ?_
    have hmem : f s.inner ∈ values.map some := hvalues ▸ List.mem_map_of_mem hs
    obtain ⟨v, -, hv⟩ := List.mem_map.1 hmem
    rw [Function.comp, hvalue s.inner v hv.symm, hv]
  rw [hfill, heq]

/-- A character in which no accepted span starts is a part of the first piece. -/
theorem cons (h : IsExact opening closing accepts x t)
    (hc : ∀ inner rest, IsSpan opening closing inner rest (c :: t) → ¬ accepts inner) :
    ∃ x, IsExact opening closing accepts x (c :: t) := by
  cases h with
  | last hskips =>
    refine ⟨⟨[], c :: t⟩, .last (skips_cons_iff.2 ⟨?_, hskips⟩)⟩
    rwa [List.append_nil]
  | @span s spans last rest t hskips hspan haccepted hrest =>
    exact ⟨⟨⟨c :: s.before, s.inner⟩ :: spans, last⟩, .span (skips_cons_iff.2 ⟨hc, hskips⟩) hspan haccepted hrest⟩

end IsExact

theorem exists_isExact (ho : opening ≠ []) (closing : Text) (accepts : Text → Prop) (t : Text) :
    ∃ x, IsExact opening closing accepts x t := by
  induction hn : t.length using Nat.strongRecOn generalizing t with
  | _ n ih =>
    cases t with
    | nil => exact ⟨⟨[], []⟩, .last skips_nil⟩
    | cons c t =>
      by_cases hhere : ∃ inner rest, IsSpan opening closing inner rest (c :: t) ∧ accepts inner
      · obtain ⟨inner, rest, hspan, haccepted⟩ := hhere
        have hlen := congrArg List.length hspan.eq
        have hpos := List.length_pos_iff.2 ho
        simp only [List.length_append] at hlen
        obtain ⟨x, hx⟩ := ih rest.length (by omega) rest rfl
        exact ⟨⟨⟨[], inner⟩ :: x.spans, x.last⟩, .span skips_nil hspan haccepted hx⟩
      · obtain ⟨x, hx⟩ := ih t.length (by rw [← hn]; exact Nat.lt_succ_self _) t rfl
        exact hx.cons fun inner rest hspan haccepted => hhere ⟨inner, rest, hspan, haccepted⟩

end Cut

/-! ### What the scanner does -/

/-- Every text has a cut into pieces and accepted spans that misses none.  Whatever the values of these are, they are
put in between the pieces.  So a text stays if each span is declined or becomes itself. -/
theorem replaceDelimited_eq_fill (ho : opening ≠ []) (hc : closing ≠ []) (f : Text → Option Text) (t : Text) :
    (∃ x : Cut, x.written opening closing = t ∧ x.IsExact opening closing (fun inner => f inner ≠ none) t ∧
      ∀ g : Text → Option Text, (∀ inner, g inner = none ↔ f inner = none) →
        ∃ values, x.spans.map (fun s => g s.inner) = values.map some ∧
          replaceDelimited opening closing g t = x.fill values) ∧
      ((∀ inner, f inner = none ∨ f inner = some (opening ++ inner ++ closing)) →
        replaceDelimited opening closing f t = t) := by
  obtain ⟨x, hx⟩ := Cut.exists_isExact ho closing (fun inner => f inner ≠ none) t
  refine ⟨⟨x, hx.written, hx, fun g hg => hx.replaceDelimited ho hc fun inner => not_congr (hg inner)⟩, fun hself => ?_⟩
  have hvalue (inner v : Text) (hv : f inner = some v) : opening ++ inner ++ closing = v := by
    rcases hself inner with hnone | hsome
    · cases hnone.symm.trans hv
    · exact Option.some.inj (hsome.symm.trans hv)
  rw [hx.replaceDelimited_map ho hc (fun _ => Iff.rfl) hvalue]
  exact hx.written

/-- A span that starts within a declined one, with a value that looks like it. -/
theorem replaceDelimited_eq_fill_overlapping :
    let f : Text → Option Text := fun inner => if inner = "x" then some "aaxb!" else none
    ("aa" : Text) ≠ [] ∧ ("b" : Text) ≠ [] ∧ replaceDelimited "aa" "b" f "aaaxbc" = "aaaxb!c" ∧
      ∃ x : Cut, x.written "aa" "b" = "aaaxbc" ∧ ∃ values, x.spans.map (fun s => f s.inner) = values.map some ∧
        replaceDelimited "aa" "b" f "aaaxbc" = x.fill values := by
  intro f
  have hopening : ("aa" : Text) ≠ [] := by decide
  have hclosing : ("b" : Text) ≠ [] := by decide
  obtain ⟨x, hwritten, -, hfill⟩ := (replaceDelimited_eq_fill hopening hclosing f "aaaxbc").1
  exact ⟨hopening, hclosing, by decide +kernel, x, hwritten, hfill f fun _ => Iff.rfl⟩

end DirectiveEngine
