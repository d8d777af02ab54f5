import DirectiveEngine.Text.Blank
import Mathlib.Data.List.TakeWhile

/-!
# Trimming

A text is trimmed if no blank stands at either end (`trim_eq_self_iff`), as it is once it was trimmed (`trim_trim`);
blanks around a text do not matter to trimming (`trim_append_left`, `trim_append_right`) and to its first word
(`firstWord_trim`).
-/

namespace DirectiveEngine.Text

variable {g t u : Text}

private theorem dropWhile_eq_self_iff_head? :
    t.dropWhile isBlank = t ↔ ∀ c ∈ t.head?, isBlank c = false := by
  cases t with
  | nil => simp
  | cons c t => simp [List.dropWhile_eq_self_iff]

theorem trim_eq_self_iff :
    trim t = t ↔ (∀ c ∈ t.head?, isBlank c = false) ∧ ∀ c ∈ t.getLast?, isBlank c = false := by
  have hstart : trimStart t = t ↔ ∀ c ∈ t.head?, isBlank c = false := dropWhile_eq_self_iff_head?
  have hend : trimEnd t = t ↔ ∀ c ∈ t.getLast?, isBlank c = false := by
    rw [trimEnd, ← List.head?_reverse, ← dropWhile_eq_self_iff_head?, List.reverse_eq_iff]
  rw [← hstart, ← hend]
  constructor
  · intro h
    have hlen := (List.dropWhile_sublist (l := (trimStart t).reverse) isBlank).length_le
    have hsub : (trimStart t).Sublist t := List.dropWhile_sublist _
    have hlen' := congrArg List.length h
    rw [trim, trimEnd, List.length_reverse] at hlen'
    rw [List.length_reverse, hlen'] at hlen
    have hs : trimStart t = t := hsub.eq_of_length_le hlen
    rw [trim, hs] at h
    exact ⟨hs, h⟩
  · rintro ⟨hs, he⟩
    rw [trim, hs, he]

private theorem not_isBlank_head?_dropWhile (t : Text) : ∀ c ∈ (t.dropWhile isBlank).head?, isBlank c = false := by
  intro c hc
  have := List.head?_dropWhile_not isBlank t
  rwa [Option.mem_def.1 hc] at this

/-- What trimming takes off the end is blank. -/
private theorem eq_trim_append (t : Text) : ∃ g, isBlankText g = true ∧ trimStart t = trim t ++ g := by
  refine ⟨((trimStart t).reverse.takeWhile isBlank).reverse, by simp [isBlankText], ?_⟩
  rw [trim, trimEnd, ← List.reverse_append, List.takeWhile_append_dropWhile, List.reverse_reverse]

theorem trim_isInfix (t : Text) : trim t <:+: t := by
  obtain ⟨g, -, hg⟩ := eq_trim_append t
  have hstart : trim t <+: trimStart t := ⟨g, hg.symm⟩
  exact hstart.isInfix.trans (List.dropWhile_suffix isBlank).isInfix

private theorem trimStart_trim (t : Text) : trimStart (trim t) = trim t := by
  refine dropWhile_eq_self_iff_head?.2 fun c hc => not_isBlank_head?_dropWhile t c ?_
  obtain ⟨g, -, hg⟩ := eq_trim_append t
  show c ∈ (trimStart t).head?
  rw [hg, List.head?_append, Option.mem_def.1 hc]
  rfl

theorem trim_trim (t : Text) : trim (trim t) = trim t := by
  refine trim_eq_self_iff.2 ⟨dropWhile_eq_self_iff_head?.1 (trimStart_trim t), fun c hc => ?_⟩
  rw [trim, trimEnd, List.getLast?_reverse] at hc
  exact not_isBlank_head?_dropWhile _ c hc

/-- Blanks around a text do not matter to its first word. -/
theorem firstWord_trim (t : Text) : firstWord (trim t) = firstWord t := by
  obtain ⟨g, hblank, hg⟩ := eq_trim_append t
  have hnone : g.takeWhile (fun c => !isBlank c) = [] := by
    refine List.takeWhile_eq_nil_iff.2 fun hlen => ?_
    have hhead := List.all_eq_true.1 hblank _ (List.get_mem g ⟨0, hlen⟩)
    rw [hhead]
    decide
  rw [firstWord, firstWord, trimStart_trim, hg, List.takeWhile_append, hnone, List.append_nil]
  split
  · rename_i hlen
    exact (List.takeWhile_prefix _).eq_of_length hlen
  · rfl

theorem trim_append_left (h : isBlankText g = true) (t : Text) : trim (g ++ t) = trim t := by
  rw [trim, trimStart, List.dropWhile_append_of_pos (List.all_eq_true.1 h)]
  rfl

theorem trim_eq_nil_iff : trim t = [] ↔ isBlankText t = true := by
  constructor
  · intro h
    obtain ⟨g, hblank, hg⟩ := eq_trim_append t
    rw [h, List.nil_append] at hg
    have hrest : (t.dropWhile isBlank).all isBlank = true := by
      show isBlankText (trimStart t) = true
      rwa [hg]
    rw [isBlankText, ← List.takeWhile_append_dropWhile (p := isBlank) (l := t), List.all_append, hrest,
      List.all_takeWhile]
    rfl
  · intro h
    have htrim := trim_append_left h []
    rwa [List.append_nil] at htrim

theorem trim_append_right (h : isBlankText g = true) (t : Text) : trim (t ++ g) = trim t := by
  have hg : ∀ c ∈ g.reverse, isBlank c = true := fun c hc => List.all_eq_true.1 h c (List.mem_reverse.1 hc)
  have hend (t : Text) : trimEnd (t ++ g) = trimEnd t := by
    rw [trimEnd, List.reverse_append, List.dropWhile_append_of_pos hg]
    rfl
  unfold trim trimStart
  rw [List.dropWhile_append]
  split
  · rename_i hnil
    rw [List.isEmpty_iff.1 hnil, List.dropWhile_eq_nil_iff.2 (List.all_eq_true.1 h)]
  · exact hend _

theorem trim_of_not_isBlank (h : ∀ c ∈ t, isBlank c = false) : trim t = t :=
  trim_eq_self_iff.2 ⟨fun c hc => h c (List.mem_of_head? hc), fun c hc => h c (List.mem_of_getLast? hc)⟩

/-- Only blanks are trimmed away. -/
theorem count_trim {c : Char} (hc : isBlank c = false) (t : Text) : (trim t).count c = t.count c := by
  have hblank {g : Text} (hg : isBlankText g = true) : g.count c = 0 := by
    refine List.count_eq_zero_of_not_mem fun hmem => ?_
    rw [List.all_eq_true.1 hg c hmem] at hc
    exact absurd hc (by decide)
  obtain ⟨g, hg, hstart⟩ := eq_trim_append t
  have hfront : isBlankText (t.takeWhile isBlank) = true := List.all_takeWhile
  calc (trim t).count c = (trimStart t).count c := by rw [hstart, List.count_append, hblank hg, Nat.add_zero]
    _ = (t.takeWhile isBlank ++ trimStart t).count c := by rw [List.count_append, hblank hfront, Nat.zero_add]
    _ = t.count c := by rw [trimStart, List.takeWhile_append_dropWhile]

theorem trim_cons {c : Char} (hc : isBlank c = false) (ht : trim t = t) : trim (c :: t) = c :: t := by
  refine trim_eq_self_iff.2 ⟨by simpa using hc, fun d hd => ?_⟩
  cases t with
  | nil => exact Option.some.inj hd ▸ hc
  | cons e t =>
    rw [List.getLast?_cons_cons] at hd
    exact (trim_eq_self_iff.1 ht).2 d hd

/-- A text that starts with no blank is its trimmed form with blanks behind. -/
theorem exists_eq_trim_append (ht : ∀ c ∈ t.head?, isBlank c = false) :
    ∃ g, isBlankText g = true ∧ t = trim t ++ g := by
  obtain ⟨g, hblank, hg⟩ := eq_trim_append t
  exact ⟨g, hblank, (dropWhile_eq_self_iff_head?.2 ht).symm.trans hg⟩

theorem head?_trim (ht : ∀ c ∈ t.head?, isBlank c = false) : (trim t).head? = t.head? := by
  obtain ⟨g, hblank, hg⟩ := exists_eq_trim_append ht
  cases t with
  | nil => rfl
  | cons c t =>
    cases h : trim (c :: t) with
    | nil =>
      have hc := List.all_eq_true.1 (trim_eq_nil_iff.1 h) c List.mem_cons_self
      rw [ht c rfl] at hc
      exact absurd hc (by decide)
    | cons d u =>
      rw [hg, h]
      rfl

theorem trim_ne_nil (ht : ∀ c ∈ t.head?, isBlank c = false) (hne : t ≠ []) : trim t ≠ [] := by
  rw [Ne, ← List.head?_eq_none_iff, head?_trim ht, List.head?_eq_none_iff]
  exact hne

theorem trim_cons_of_head {c : Char} (hc : isBlank c = false) (ht : ∀ d ∈ t.head?, isBlank d = false) :
    trim (c :: t) = c :: trim t := by
  obtain ⟨g, hblank, hg⟩ := exists_eq_trim_append ht
  rw [hg, ← List.cons_append, trim_append_right hblank, trim_append_right hblank, trim_trim,
    trim_cons hc (trim_trim t)]

/-- What stands before a trimmed text may end with blanks. -/
theorem trim_append (ht : ∀ c ∈ t.head?, isBlank c = false) (hu : trim u = u) (hne : u ≠ []) :
    trim (t ++ u) = t ++ u := by
  cases t with
  | nil => exact hu
  | cons c t =>
    refine trim_eq_self_iff.2 ⟨fun d hd => ht d hd, fun d hd => (trim_eq_self_iff.1 hu).2 d ?_⟩
    rwa [List.getLast?_append, List.getLast?_eq_some_getLast hne, Option.some_or,
      ← List.getLast?_eq_some_getLast hne] at hd

/-- Only the end of the last part is trimmed. -/
theorem trim_append_of_head (ht : ∀ c ∈ t.head?, isBlank c = false) (hu : ∀ c ∈ u.head?, isBlank c = false)
    (hne : u ≠ []) : trim (t ++ u) = t ++ trim u := by
  obtain ⟨g, hblank, hg⟩ := exists_eq_trim_append hu
  have hwhole : t ++ u = t ++ trim u ++ g := by rw [List.append_assoc, ← hg]
  rw [hwhole, trim_append_right hblank, trim_append ht (trim_trim u) (trim_ne_nil hu hne)]

/-- Nothing is trimmed in front of what ends without a blank. -/
theorem trimEnd_append (ht : ∀ c ∈ t.getLast?, isBlank c = false) (u : Text) :
    trimEnd (t ++ u) = t ++ trimEnd u := by
  have hstart : t.reverse.dropWhile isBlank = t.reverse :=
    dropWhile_eq_self_iff_head?.2 fun c hc => ht c (by rwa [List.head?_reverse] at hc)
  rw [trimEnd, trimEnd, List.reverse_append, List.dropWhile_append, hstart]
  split
  · rename_i hnil
    rw [List.isEmpty_iff.1 hnil]
    simp
  · simp

/-- Nothing is trimmed behind what starts without a blank. -/
theorem trimStart_append (hu : ∀ c ∈ u.head?, isBlank c = false) (t : Text) :
    trimStart (t ++ u) = trimStart t ++ u := by
  have hstart : u.dropWhile isBlank = u := dropWhile_eq_self_iff_head?.2 hu
  rw [trimStart, trimStart, List.dropWhile_append, hstart]
  split
  · rename_i hnil
    rw [List.isEmpty_iff.1 hnil, List.nil_append]
  · rfl

/-- What stands between two characters that are no blanks is not touched by trimming. -/
theorem infix_trim_iff (hne : u ≠ []) (hhead : ∀ c ∈ u.head?, isBlank c = false)
    (hlast : ∀ c ∈ u.getLast?, isBlank c = false) : u <:+: trim t ↔ u <:+: t := by
  refine ⟨fun h => h.trans (trim_isInfix t), ?_⟩
  rintro ⟨a, b, rfl⟩
  have hhead' : ∀ c ∈ (u ++ b).head?, isBlank c = false := by
    rwa [List.head?_append, List.head?_eq_some_head hne, Option.some_or, ← List.head?_eq_some_head hne]
  have hlast' : ∀ c ∈ (trimStart a ++ u).getLast?, isBlank c = false := by
    rwa [List.getLast?_append, List.getLast?_eq_some_getLast hne, Option.some_or, ← List.getLast?_eq_some_getLast hne]
  rw [trim, List.append_assoc, trimStart_append hhead', ← List.append_assoc, trimEnd_append hlast']
  exact ⟨trimStart a, trimEnd b, rfl⟩

theorem trimEnd_prefix (t : Text) : trimEnd t <+: t := by
  rw [← List.reverse_suffix, trimEnd, List.reverse_reverse]
  exact List.dropWhile_suffix isBlank

theorem trim_eq_trimEnd (ht : ∀ c ∈ t.head?, isBlank c = false) : trim t = trimEnd t := by
  rw [trim, trimStart, dropWhile_eq_self_iff_head?.2 ht]

/-- The parts of a list, the last of them without blanks behind. -/
def trimLast : List Text → List Text
  | [] => []
  | [part] => [trimEnd part]
  | part :: next :: parts => part :: trimLast (next :: parts)

theorem mem_of_mem_trimLast {parts : List Text} {part : Text} {c : Char} (h : part ∈ trimLast parts) (hc : c ∈ part) :
    ∃ p ∈ parts, c ∈ p := by
  induction parts with
  | nil => simp [trimLast] at h
  | cons p parts ih =>
    cases parts with
    | nil =>
      rw [trimLast, List.mem_singleton] at h
      rw [h, trimEnd, List.mem_reverse] at hc
      exact ⟨p, by simp, List.mem_reverse.1 ((List.dropWhile_sublist _).subset hc)⟩
    | cons next parts =>
      rcases List.mem_cons.1 h with rfl | h
      · exact ⟨part, by simp, hc⟩
      · obtain ⟨q, hq, hcq⟩ := ih h
        exact ⟨q, List.mem_cons_of_mem _ hq, hcq⟩

/-- Only the last part of a list is trimmed at its end, if no blank stands at the end of what is between them. -/
theorem trimEnd_join {sep : Text} (hne : sep ≠ []) (hsep : ∀ c ∈ sep.getLast?, isBlank c = false) (parts : List Text) :
    trimEnd (join sep parts) = join sep (trimLast parts) := by
  induction parts with
  | nil => rfl
  | cons part parts ih =>
    cases parts with
    | nil => simp [join, trimLast]
    | cons next parts =>
      have hfront : ∀ c ∈ (part ++ sep).getLast?, isBlank c = false := by
        rw [List.getLast?_append, List.getLast?_eq_some_getLast hne, Option.some_or,
          ← List.getLast?_eq_some_getLast hne]
        exact hsep
      obtain ⟨last, lasts, hlast⟩ : ∃ last lasts, trimLast (next :: parts) = last :: lasts := by
        cases parts <;> exact ⟨_, _, rfl⟩
      rw [trimLast, hlast]
      simp only [join, List.intercalate_cons_cons] at ih ⊢
      rw [trimEnd_append hfront, ih, hlast]

/-- The first word ends where the text does, or at a blank. -/
theorem firstWord_append (hne : t ≠ []) (ht : ∀ c ∈ t, isBlank c = false) (hu : ∀ c ∈ u.head?, isBlank c = true) :
    firstWord (t ++ u) = t := by
  have hstart : trimStart (t ++ u) = t ++ u := by
    refine dropWhile_eq_self_iff_head?.2 fun c hc => ht c ?_
    obtain ⟨d, s, rfl⟩ := List.exists_cons_of_ne_nil hne
    exact Option.some.inj hc ▸ List.mem_cons_self
  have hend : u.takeWhile (fun c => !isBlank c) = [] := by
    cases u with
    | nil => rfl
    | cons c u => exact List.takeWhile_cons_of_neg (by simp [hu c rfl])
  rw [firstWord, hstart, List.takeWhile_append_of_pos fun c hc => by simp [ht c hc], hend, List.append_nil]

end DirectiveEngine.Text
