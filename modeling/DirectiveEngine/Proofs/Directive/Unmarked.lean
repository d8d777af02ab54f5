import DirectiveEngine.Directive.Parse
import DirectiveEngine.Proofs.Text.Search
import DirectiveEngine.Proofs.Text.Trim

/-!
# Text without markers

A marker is taken out exactly where the text has a section for it, from its opening to a closing bracket
(`takeMarker?_eq_none_iff`), so an action without sections and marks is a command, word by word.  The opening of a random
marker is written without its end, so that any section that starts with it counts as well: such a text is altered, and
no other (`parse_unmarked_iff`).
-/

namespace DirectiveEngine

/-! ### Sections -/

/-- Somewhere in the text `opening` is written, and a closing bracket behind it. -/
def HasSection (opening t : Text) : Prop :=
  ∃ inner, opening ++ inner ++ [']'] <:+: t

variable {opening t raw : Text}

theorem takeMarker?_eq_some {inner rest : Text} (h : takeMarker? opening t = some (inner, rest)) :
    ∃ before after, t = before ++ (opening ++ inner ++ [']']) ++ after ∧ rest = before ++ after := by
  simp only [takeMarker?, Option.bind_eq_bind, Option.bind_eq_some_iff] at h
  obtain ⟨⟨before, behind⟩, hopening, ⟨inner', after⟩, hclosing, heq⟩ := h
  cases heq
  refine ⟨before, after, ?_, rfl⟩
  have hbehind : behind = inner' ++ [']'] ++ after := Text.eq_of_splitFirst? hclosing
  rw [Text.eq_of_splitFirst? hopening, hbehind]
  simp only [List.append_assoc]

/-- What stands behind an occurrence stands behind the first one. -/
private theorem suffix_of_splitFirst? {before behind a b : Text} (hne : opening ≠ [])
    (h : Text.splitFirst? opening t = some (before, behind)) (ht : t = a ++ opening ++ b) : b <:+ behind := by
  have hlen : before.length ≤ a.length := by
    refine Nat.le_of_not_lt fun hlt => Text.not_infix_of_splitFirst? hne h ?_
    -- an occurrence further in front would begin in `before` and end before the first one does
    have hearlier : a ++ opening <+: t := ⟨b, ht.symm⟩
    have hfirst : before ++ opening.dropLast <+: t := by
      rw [Text.eq_of_splitFirst? h, List.append_assoc]
      exact (List.prefix_append_right_inj before).2 ((List.dropLast_prefix opening).trans (List.prefix_append _ _))
    have hshort : (a ++ opening).length ≤ (before ++ opening.dropLast).length := by
      have := List.length_pos_iff.2 hne
      simp only [List.length_append, List.length_dropLast]
      omega
    exact (List.suffix_append a opening).isInfix.trans
      (List.prefix_of_prefix_length_le hearlier hfirst hshort).isInfix
  have hbehind : behind <:+ t := ⟨before ++ opening, (Text.eq_of_splitFirst? h).symm⟩
  have hb : b <:+ t := ⟨a ++ opening, ht.symm⟩
  have hsum := congrArg List.length ht
  have hsum' := Text.length_of_splitFirst? h
  simp only [List.length_append] at hsum
  exact List.suffix_of_suffix_length_le hb hbehind (by omega)

/-- A marker is found if and only if the text has a section for it. -/
theorem takeMarker?_eq_none_iff (hne : opening ≠ []) : takeMarker? opening t = none ↔ ¬ HasSection opening t := by
  constructor
  · rintro hnone ⟨inner, before, after, ht⟩
    have hopening : opening <:+: t := ⟨before, inner ++ [']'] ++ after, by rw [← ht]; simp only [List.append_assoc]⟩
    obtain ⟨⟨first, behind⟩, hfirst⟩ := Option.isSome_iff_exists.1 ((Text.contains_iff hne).2 hopening)
    have hsuffix : inner ++ [']'] ++ after <:+ behind :=
      suffix_of_splitFirst? hne hfirst (a := before) (by rw [← ht]; simp only [List.append_assoc])
    have hclosing : [']'] <:+: behind := (List.infix_append inner [']'] after).trans hsuffix.isInfix
    obtain ⟨p, hp⟩ := Option.isSome_iff_exists.1 ((Text.contains_iff (by simp)).2 hclosing)
    simp [takeMarker?, hfirst, hp] at hnone
  · intro hsection
    cases h : takeMarker? opening t with
    | none => rfl
    | some p =>
      obtain ⟨before, after, ht, -⟩ := takeMarker?_eq_some h
      exact absurd ⟨p.1, before, after, ht.symm⟩ hsection

/-- Trimming takes no section away. -/
theorem hasSection_trim_iff (h : opening.head? = some '[') : HasSection opening t.trim ↔ HasSection opening t := by
  obtain ⟨o, rfl⟩ := List.head?_eq_some_iff.1 h
  refine exists_congr fun inner => Text.infix_trim_iff (by simp) (fun c hc => ?_) fun c hc => ?_
  · obtain rfl : '[' = c := Option.some.inj hc
    decide
  · obtain rfl : ']' = c := Option.some.inj (List.getLast?_concat.symm.trans hc)
    decide

/-! ### Plain actions -/

/-- The text has no section of one of the forms that markers are written in. -/
structure IsUnmarked (t : Text) : Prop where
  loop : ¬ HasSection "[foreach:" t
  delay : ¬ HasSection "[delay:" t
  whenever : ¬ HasSection "[if:" t
  elseWhen : ¬ HasSection "[else if:" t
  otherwise : ¬ "[else]" <:+: t
  random : ¬ "[random]" <:+: t
  weight : ¬ HasSection "[random:" t

private theorem IsUnmarked.trim (h : IsUnmarked raw) : IsUnmarked raw.trim where
  loop := (hasSection_trim_iff rfl).not.2 h.loop
  delay := (hasSection_trim_iff rfl).not.2 h.delay
  whenever := (hasSection_trim_iff rfl).not.2 h.whenever
  elseWhen := (hasSection_trim_iff rfl).not.2 h.elseWhen
  otherwise hin := h.otherwise (hin.trans (Text.trim_isInfix raw))
  random hin := h.random (hin.trans (Text.trim_isInfix raw))
  weight := (hasSection_trim_iff rfl).not.2 h.weight

/-- The text starts with none of the marks that stand in front of a body. -/
structure StartsPlain (t : Text) : Prop where
  mark : ∀ c ∈ t.head?, c ∉ ['/', '!', '-', '+', '$', '%']
  message : ¬ "#message" <+: t

namespace Directive

/-- A command that runs at once, for whom it is invoked. -/
def ofCommand (line : Text) : Directive where
  raw := line
  delay := 0
  gate := .always
  asConsole := false
  quiet := false
  weight? := none
  kind := .command
  body := line

private theorem takeMark_of_startsPlain (h : StartsPlain t) (mark : Char) (hmark : mark ∈ ['/', '!', '-']) :
    takeMark mark t = (false, t) := by
  cases t with
  | nil => rfl
  | cons c t =>
    have hne : c ≠ mark := by
      rintro rfl
      exact h.mark c rfl (List.mem_append_left ['+', '$', '%'] hmark)
    simp [takeMark, hne]

private theorem parseMarked_of_startsPlain (h : StartsPlain t) (htrim : t.trim = t) :
    parseMarked t = (false, false, .command, t) := by
  have hhead {c : Char} {rest : Text} (hc : c ∈ ['/', '!', '-', '+', '$', '%']) : t ≠ c :: rest := by
    rintro rfl
    exact h.mark c rfl hc
  have hplain : parsePlain t = (.command, t) := by
    unfold parsePlain
    split
    · exact absurd rfl (hhead (by simp))
    · exact absurd rfl (hhead (by simp))
    · rw [htrim]
  unfold parseMarked
  simp only [takeMark_of_startsPlain h '!' (by simp), takeMark_of_startsPlain h '-' (by simp)]
  split
  · exact absurd rfl (hhead (by simp))
  · simp [hplain]

/-- The weight of a random section without a colon is the default. -/
private theorem parseWeight_of_isUnmarked (h : IsUnmarked t) {inner rest : Text}
    (htake : takeMarker? "[random" t = some (inner, rest)) : parseWeight inner = defaultWeight := by
  obtain ⟨before, after, ht, -⟩ := takeMarker?_eq_some htake
  unfold parseWeight
  split
  · rename_i w
    exact absurd ⟨w, before, after, ht.symm⟩ h.weight
  · rfl

/-- Nothing is taken out in front of the random markers. -/
private theorem takeGate_of_isUnmarked (h : IsUnmarked t) :
    takeLoop t = (none, t) ∧ takeDelay t = (0, t) ∧ takeGate t = (.always, t) := by
  refine ⟨?_, ?_, ?_⟩
  · rw [takeLoop, (takeMarker?_eq_none_iff (by simp)).2 h.loop]
  · rw [takeDelay, (takeMarker?_eq_none_iff (by simp)).2 h.delay]
  · rw [takeGate, (takeMarker?_eq_none_iff (by simp)).2 h.elseWhen,
      (Text.contains_eq_false_iff (by simp)).2 h.otherwise, (takeMarker?_eq_none_iff (by simp)).2 h.whenever]
    rfl

/-- Text without markers and marks is kept as it is, word by word, if and only if it has no section that starts like a
random marker.  With such a section it is taken for a member of the random group, with the default weight. -/
theorem parse_unmarked_iff (hforms : IsUnmarked raw) (hstart : StartsPlain raw.trim) :
    (parse raw = ofCommand raw.trim ↔ ¬ HasSection "[random" raw) ∧
      (HasSection "[random" raw → (parse raw).weight? = some defaultWeight) := by
  have hforms : IsUnmarked raw.trim := hforms.trim
  obtain ⟨hloop, hdelay, hgate⟩ := takeGate_of_isUnmarked hforms
  have hsection : HasSection "[random" raw.trim ↔ HasSection "[random" raw := hasSection_trim_iff rfl
  have hnone : takeMarker? "[random" raw.trim = none ↔ ¬ HasSection "[random" raw.trim :=
    takeMarker?_eq_none_iff (by simp)
  rw [← hsection]
  cases htake : takeMarker? "[random" raw.trim with
  | none =>
    have hweight : takeWeight raw.trim = (none, raw.trim) := by rw [takeWeight, htake]
    have hplain : parse raw = ofCommand raw.trim := by
      unfold parse
      simp only [hloop, hdelay, hgate, hweight, Text.trim_trim, takeMark_of_startsPlain hstart '/' (by simp),
        Text.stripPrefix?, Text.isPrefixOf?_eq_none hstart.message,
        parseMarked_of_startsPlain hstart (Text.trim_trim raw)]
      rfl
    exact ⟨iff_of_true hplain (hnone.1 htake), fun hsome => absurd hsome (hnone.1 htake)⟩
  | some p =>
    have hsome : HasSection "[random" raw.trim := by
      by_contra hnot
      cases htake.symm.trans (hnone.2 hnot)
    have hweight : takeWeight raw.trim = (some defaultWeight, p.2) := by
      rw [takeWeight, htake]
      simp only [parseWeight_of_isUnmarked hforms htake]
    have hrandom : (parse raw).weight? = some defaultWeight := by
      unfold parse
      simp only [hloop, hdelay, hgate, hweight]
      split <;> rfl
    refine ⟨iff_of_false (fun hplain => ?_) (not_not_intro hsome), fun _ => hrandom⟩
    cases hrandom.symm.trans (congrArg Directive.weight? hplain)

/-- Ordinary brackets, an opening that is never closed, and one that is cut off. -/
theorem parse_unmarked_brackets :
    parse "  say [1] ([x]) [delays:5] [if] [rand] ] [else [random [if:" =
      ofCommand "say [1] ([x]) [delays:5] [if] [rand] ] [else [random [if:" := by
  have hnone {opening : Text} (hne : opening ≠ [])
      (h : (takeMarker? opening "  say [1] ([x]) [delays:5] [if] [rand] ] [else [random [if:").isNone = true) :
      ¬ HasSection opening "  say [1] ([x]) [delays:5] [if] [rand] ] [else [random [if:" :=
    (takeMarker?_eq_none_iff hne).1 (Option.isNone_iff_eq_none.1 h)
  have hforms : IsUnmarked "  say [1] ([x]) [delays:5] [if] [rand] ] [else [random [if:" :=
    ⟨hnone (by decide) (by decide +kernel), hnone (by decide) (by decide +kernel), hnone (by decide) (by decide +kernel),
      hnone (by decide) (by decide +kernel), by decide +kernel, by decide +kernel, hnone (by decide) (by decide +kernel)⟩
  have htrim : Text.trim "  say [1] ([x]) [delays:5] [if] [rand] ] [else [random [if:" =
      "say [1] ([x]) [delays:5] [if] [rand] ] [else [random [if:" := by decide +kernel
  have hstart : StartsPlain (Text.trim "  say [1] ([x]) [delays:5] [if] [rand] ] [else [random [if:") := by
    have hhead : (Text.trim "  say [1] ([x]) [delays:5] [if] [rand] ] [else [random [if:").head? = some 's' := by
      decide +kernel
    refine ⟨fun c hc => ?_, by decide +kernel⟩
    cases hhead.symm.trans hc
    decide
  have hparse := (parse_unmarked_iff hforms hstart).1.2 (hnone (by decide) (by decide +kernel))
  rwa [htrim] at hparse

/-- A word in brackets that starts like a random marker. -/
theorem parse_randomly : parse "say [randomly] hi" =
    { ofCommand "say [randomly] hi" with weight? := some 100, body := "say  hi" } := by
  decide +kernel

end Directive

end DirectiveEngine
