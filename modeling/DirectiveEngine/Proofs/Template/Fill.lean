import DirectiveEngine.Proofs.Text.Search

/-!
# Words in a text

Words stand for values in a text and are all replaced at once, from the left (`fillWords`).  They are told apart from a
text and from each other if no word starts with a character of the text or is the start of another one (`Fresh`).  The
runs of one character that come out are hardly longer than those in the values (`runsLe_fillFrom`).
-/

namespace DirectiveEngine

variable {pairs : List (Text × Text)} {words values : List Text} {a o t u v w : Text} {c d x : Char} {k l m n : Nat}

/-- The text with its first `skip` characters left out, and each word in the rest replaced by its value. -/
def fillFrom (pairs : List (Text × Text)) : Nat → Text → Text
  | _, [] => []
  | skip + 1, _ :: t => fillFrom pairs skip t
  | 0, c :: t =>
    match pairs.find? fun p => p.1.isPrefixOf (c :: t) with
    | some p => p.2 ++ fillFrom pairs (p.1.length - 1) t
    | none => c :: fillFrom pairs 0 t

/-- Each word becomes its value. -/
def fillWords (pairs : List (Text × Text)) (t : Text) : Text :=
  fillFrom pairs 0 t

theorem fillWords_nil (pairs : List (Text × Text)) : fillWords pairs [] = [] :=
  rfl

theorem fillFrom_length (pairs : List (Text × Text)) (a t : Text) :
    fillFrom pairs a.length (a ++ t) = fillWords pairs t := by
  induction a with
  | nil => rfl
  | cons c a ih => exact ih

/-! ### Words of their own -/

/-- Words that cannot be mistaken for a part of the text or for one another. -/
structure Fresh (words : List Text) (t : Text) : Prop where
  absent : ∀ w ∈ words, ∃ c ∈ w.head?, c ∉ t
  apart : words.Pairwise fun w w' => ¬ w <+: w' ∧ ¬ w' <+: w

namespace Fresh

private theorem index_eq (h : Fresh words t) (hw : words[m]? = some w) (hu : words[n]? = some u) (hstart : w <+: u) :
    m = n := by
  obtain ⟨hm, rfl⟩ := List.getElem?_eq_some_iff.1 hw
  obtain ⟨hn, rfl⟩ := List.getElem?_eq_some_iff.1 hu
  have hapart := List.pairwise_iff_getElem.1 h.apart
  rcases Nat.lt_trichotomy m n with hlt | heq | hlt
  · exact absurd hstart (hapart m n hm hn hlt).1
  · exact heq
  · exact absurd hstart (hapart n m hn hm hlt).2

theorem cons (h : Fresh words t) (hc : c ∈ t) (values : List Text) (u : Text) :
    fillWords (words.zip values) (c :: u) = c :: fillWords (words.zip values) u := by
  have hnone : ((words.zip values).find? fun p => p.1.isPrefixOf (c :: u)) = none := by
    refine List.find?_eq_none.2 fun p hp hstart => ?_
    obtain ⟨d, hd, hdt⟩ := h.absent p.1 (List.of_mem_zip hp).1
    obtain ⟨s, hs⟩ := List.head?_eq_some_iff.1 hd
    rw [hs, List.isPrefixOf_iff_prefix, List.cons_prefix_cons] at hstart
    exact hdt (hstart.1 ▸ hc)
  rw [fillWords, fillFrom, hnone]
  rfl

/-- Text without words stays. -/
theorem append (h : Fresh words t) (ha : ∀ c ∈ a, c ∈ t) (values : List Text) (u : Text) :
    fillWords (words.zip values) (a ++ u) = a ++ fillWords (words.zip values) u := by
  induction a with
  | nil => rfl
  | cons c a ih =>
    obtain ⟨hc, ha⟩ := List.forall_mem_cons.1 ha
    rw [List.cons_append, h.cons hc, ih ha]
    rfl

theorem self (h : Fresh words t) (ha : ∀ c ∈ a, c ∈ t) (values : List Text) : fillWords (words.zip values) a = a := by
  have happend := h.append ha values []
  rwa [fillWords_nil, List.append_nil] at happend

/-- A word becomes its own value. -/
theorem word (h : Fresh words t) (hw : words[n]? = some w) (hv : values[n]? = some v) (u : Text) :
    fillWords (words.zip values) (w ++ u) = v ++ fillWords (words.zip values) u := by
  have hpair : (w, v) ∈ words.zip values := List.mem_of_getElem? (List.getElem?_zip_eq_some.2 ⟨hw, hv⟩)
  have hfind : ((words.zip values).find? fun p => p.1.isPrefixOf (w ++ u)) = some (w, v) := by
    have hsome : ((words.zip values).find? fun p => p.1.isPrefixOf (w ++ u)).isSome :=
      List.find?_isSome.2 ⟨_, hpair, List.isPrefixOf_iff_prefix.2 (List.prefix_append w u)⟩
    obtain ⟨⟨w', v'⟩, hp⟩ := Option.isSome_iff_exists.1 hsome
    have hstart : w' <+: w ++ u := by simpa using List.find?_some hp
    obtain ⟨i, hi⟩ := List.getElem?_of_mem (List.mem_of_find?_eq_some hp)
    obtain ⟨hw', hv'⟩ := List.getElem?_zip_eq_some.1 hi
    obtain rfl : i = n := (List.prefix_or_prefix_of_prefix hstart (List.prefix_append w u)).elim (h.index_eq hw' hw)
      fun hp => (h.index_eq hw hw' hp).symm
    obtain rfl := Option.some.inj (hw'.symm.trans hw)
    obtain rfl := Option.some.inj (hv'.symm.trans hv)
    exact hp
  obtain ⟨c, hc, -⟩ := h.absent w (List.mem_of_getElem? hw)
  obtain ⟨s, rfl⟩ := List.head?_eq_some_iff.1 hc
  rw [fillWords, List.cons_append, fillFrom, ← List.cons_append, hfind]
  simp only [List.length_cons, Nat.add_sub_cancel, fillFrom_length]

end Fresh

/-! ### Runs of one character -/

/-- The text starts with no run of the character that is longer than `p`, and holds none longer than `q`. -/
structure RunsLe (x : Char) (p q : Nat) (t : Text) : Prop where
  start : ∀ n, List.replicate n x <+: t → n ≤ p
  within : ∀ n, List.replicate n x <:+: t → n ≤ q

namespace RunsLe

variable {p p' q q' : Nat}

theorem nil (x : Char) : RunsLe x 0 0 [] where
  start n h := by simpa using h
  within n h := by simpa using h

theorem mono (h : RunsLe x p q t) (hp : p ≤ p') (hq : q ≤ q') : RunsLe x p' q' t where
  start n hn := Nat.le_trans (h.start n hn) hp
  within n hn := Nat.le_trans (h.within n hn) hq

theorem cons (h : RunsLe x p q t) (c : Char) : RunsLe x (p + 1) (max (p + 1) q) (c :: t) := by
  have hstart (n : Nat) (hn : List.replicate n x <+: c :: t) : n ≤ p + 1 := by
    cases n with
    | zero => exact Nat.zero_le _
    | succ n =>
      rw [List.replicate_succ, List.cons_prefix_cons] at hn
      exact Nat.succ_le_succ (h.start n hn.2)
  refine ⟨hstart, fun n hn => ?_⟩
  rcases List.infix_cons_iff.1 hn with hn | hn
  · exact Nat.le_trans (hstart n hn) (Nat.le_max_left ..)
  · exact Nat.le_trans (h.within n hn) (Nat.le_max_right ..)

/-- A run in front of the text may go on in it. -/
theorem replicate (h : RunsLe x p q t) (l : Nat) : RunsLe x (l + p) (max (l + p) q) (List.replicate l x ++ t) := by
  induction l with
  | zero => exact h.mono (Nat.le_of_eq (Nat.zero_add p).symm) (Nat.le_max_right ..)
  | succ l ih => exact (ih.cons x).mono (by omega) (by omega)

/-- What ends with a run, behind another character, starts none. -/
theorem value (h : RunsLe x p q t) (hx : x ∉ o) (hd : d ≠ x) (l : Nat) :
    RunsLe x 0 (max (l + p) q) (o ++ d :: (List.replicate l x ++ t)) := by
  have hmem (n : Nat) : x ∈ List.replicate (n + 1) x := List.mem_cons_self
  have hne (n : Nat) : d ∉ List.replicate n x := fun hmem => hd (List.eq_of_mem_replicate hmem)
  constructor
  · intro n hn
    cases n with
    | zero => exact Nat.le_refl 0
    | succ n => exact absurd ((Text.prefix_of_prefix_append_cons (hne _) hn).subset (hmem n)) hx
  · intro n hn
    cases n with
    | zero => exact Nat.zero_le _
    | succ n =>
      rw [Text.infix_append_cons_iff (List.ne_nil_of_mem (hmem n)) (hne _)] at hn
      rcases hn with hn | hn
      · exact absurd (hn.subset (hmem n)) hx
      · exact (h.replicate l).within _ hn

end RunsLe

/-- Where each value ends with a run of one character, behind others, no run is much longer than that. -/
theorem runsLe_fillFrom (hx : x ∉ o) (hd : d ≠ x) (hpairs : ∀ p ∈ pairs, p.2 = o ++ d :: List.replicate l x)
    (k : Nat) (t : Text) : RunsLe x t.length (l + t.length) (fillFrom pairs k t) := by
  induction t generalizing k with
  | nil =>
    rw [fillFrom.eq_def]
    exact (RunsLe.nil x).mono (Nat.zero_le _) (Nat.zero_le _)
  | cons c t ih =>
    rw [List.length_cons]
    cases k with
    | succ k => exact (ih k).mono (Nat.le_succ _) (Nat.le_succ _)
    | zero =>
      rw [fillFrom]
      split
      · rename_i p hp
        rw [hpairs p (List.mem_of_find?_eq_some hp), List.append_assoc, List.cons_append]
        exact ((ih (p.1.length - 1)).value hx hd l).mono (Nat.zero_le _) (by omega)
      · exact ((ih 0).cons c).mono (Nat.le_refl _) (by omega)

end DirectiveEngine
