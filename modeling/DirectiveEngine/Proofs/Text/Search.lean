import DirectiveEngine.Text.Blank

/-!
# Searching and replacing

Where a text is cut at an occurrence of another one.  A character that the searched text lacks keeps the
searches on its two sides apart (`splitFirst?_append_cons`, `replaceAll_append_cons`), and replacing works off
a text from left to right (`replaceAll_append_self`, `replaceAll_cons`).
-/

namespace DirectiveEngine.Text

variable {sep old new t a b : Text} {c x : Char}

/-! ### Prefixes -/

theorem isPrefixOf?_append_self (p t : Text) : p.isPrefixOf? (p ++ t) = some t := by
  induction p with
  | nil => rfl
  | cons c p ih => simp [isPrefixOf?_cons_cons, ih]

theorem isPrefixOf?_eq_none (h : ¬ sep <+: t) : sep.isPrefixOf? t = none := by
  cases hp : sep.isPrefixOf? t with
  | none => rfl
  | some rest => exact absurd ⟨rest, (eq_append_of_isPrefixOf? hp).symm⟩ h

/-- A prefix without a character does not reach beyond it. -/
theorem prefix_of_prefix_append_cons (hx : x ∉ sep) (h : sep <+: a ++ x :: b) : sep <+: a := by
  induction a generalizing sep with
  | nil =>
    cases sep with
    | nil => exact List.prefix_rfl
    | cons y s => exact absurd (List.cons_prefix_cons.1 h).1.symm (List.ne_of_not_mem_cons hx)
  | cons d a ih =>
    cases sep with
    | nil => exact List.nil_prefix
    | cons y s =>
      obtain ⟨hy, hs⟩ := List.cons_prefix_cons.1 h
      exact List.cons_prefix_cons.2 ⟨hy, ih (List.not_mem_of_not_mem_cons hx) hs⟩

/-- Of two texts that each end before their first `x`, one starts with the other only if they are equal. -/
theorem eq_of_prefix_append_cons {s t rest : Text} (hs : x ∉ s) (ht : x ∉ t) (h : s ++ [x] <+: t ++ x :: rest) :
    s = t := by
  induction s generalizing t with
  | nil =>
    cases t with
    | nil => rfl
    | cons d t => exact absurd (List.cons_prefix_cons.1 h).1 (List.ne_of_not_mem_cons ht)
  | cons c s ih =>
    cases t with
    | nil => exact absurd (List.cons_prefix_cons.1 h).1.symm (List.ne_of_not_mem_cons hs)
    | cons d t =>
      obtain ⟨rfl, h'⟩ := List.cons_prefix_cons.1 h
      rw [ih (List.not_mem_of_not_mem_cons hs) (List.not_mem_of_not_mem_cons ht) h']

/-! ### Cutting -/

theorem splitFirst?_nil (h : sep ≠ []) : splitFirst? sep [] = none := by
  simp [splitFirst?, h]

theorem splitFirst?_append_self (h : sep ≠ []) (t : Text) : splitFirst? sep (sep ++ t) = some ([], t) := by
  obtain ⟨c, s, rfl⟩ := List.exists_cons_of_ne_nil h
  rw [List.cons_append, splitFirst?, ← List.cons_append, isPrefixOf?_append_self]

theorem splitFirst?_cons (h : ¬ sep <+: c :: t) :
    splitFirst? sep (c :: t) = (splitFirst? sep t).map fun p => (c :: p.1, p.2) := by
  rw [splitFirst?, isPrefixOf?_eq_none h]

theorem splitFirst?_of_not_infix (h : ¬ sep <:+: t) : splitFirst? sep t = none := by
  cases hs : splitFirst? sep t with
  | none => rfl
  | some p => exact absurd ⟨p.1, p.2, (eq_of_splitFirst? hs).symm⟩ h

theorem contains_eq_false_iff (hsep : sep ≠ []) : contains sep t = false ↔ ¬ sep <:+: t := by
  rw [contains, Option.isSome_eq_false_iff, Option.isNone_iff_eq_none]
  refine ⟨fun h => ?_, splitFirst?_of_not_infix⟩
  induction t with
  | nil => simpa using hsep
  | cons c t ih =>
    have hstart : ¬ sep <+: c :: t := by
      rintro ⟨r, hr⟩
      rw [← hr, splitFirst?_append_self hsep] at h
      simp at h
    rw [splitFirst?_cons hstart, Option.map_eq_none_iff] at h
    exact fun hinfix => (List.infix_cons_iff.1 hinfix).elim hstart (ih h)

theorem contains_iff (hsep : sep ≠ []) : contains sep t = true ↔ sep <:+: t := by
  rw [← Bool.not_eq_false, contains_eq_false_iff hsep, Classical.not_not]

theorem splitFirst?_eq_none_iff (hsep : sep ≠ []) : splitFirst? sep t = none ↔ ¬ sep <:+: t := by
  rw [← contains_eq_false_iff hsep, contains, Option.isSome_eq_false_iff, Option.isNone_iff_eq_none]

/-- What is found is the first occurrence. -/
theorem not_infix_of_splitFirst? (hsep : sep ≠ []) (h : splitFirst? sep t = some (a, b)) :
    ¬ sep <:+: a ++ sep.dropLast := by
  have hlen : sep.dropLast.length < sep.length := by
    have := List.length_pos_iff.2 hsep
    rw [List.length_dropLast]
    omega
  induction t generalizing a with
  | nil => rw [splitFirst?_nil hsep] at h; cases h
  | cons c t ih =>
    by_cases hp : sep <+: c :: t
    · obtain ⟨r, hr⟩ := hp
      rw [← hr, splitFirst?_append_self hsep] at h
      cases h
      exact fun hinfix => absurd hinfix.length_le (Nat.not_le.2 hlen)
    · rw [splitFirst?_cons hp] at h
      obtain ⟨⟨a', b'⟩, htail, heq⟩ := Option.map_eq_some_iff.1 h
      cases heq
      rintro hinfix
      rcases List.infix_cons_iff.1 hinfix with hstart | hinfix
      · -- an occurrence that starts here would reach over the front of the one that is found
        refine hp (hstart.trans ?_)
        rw [eq_of_splitFirst? htail, List.append_assoc]
        exact List.cons_prefix_cons.2 ⟨rfl, (List.prefix_append_right_inj a').2
          ((List.dropLast_prefix sep).trans (List.prefix_append sep b'))⟩
      · exact ih htail hinfix

/-- What stands behind any separator stands behind the first one. -/
theorem exists_splitFirst? (hsep : sep ≠ []) (u w : Text) :
    ∃ a b, splitFirst? sep (u ++ (sep ++ w)) = some (a, b) ∧ w <:+ b := by
  induction u with
  | nil => exact ⟨[], w, splitFirst?_append_self hsep w, List.suffix_rfl⟩
  | cons c u ih =>
    by_cases hp : sep <+: c :: (u ++ (sep ++ w))
    · obtain ⟨r, hr⟩ := hp
      have hlen : w.length ≤ r.length := by
        have := congrArg List.length hr
        simp only [List.length_append, List.length_cons] at this
        omega
      have hw : w <:+ sep ++ r := hr ▸ ⟨c :: (u ++ sep), by simp⟩
      refine ⟨[], r, ?_, List.suffix_of_suffix_length_le hw (List.suffix_append sep r) hlen⟩
      rw [List.cons_append, ← hr, splitFirst?_append_self hsep]
    · obtain ⟨a, b, hsplit, hw⟩ := ih
      refine ⟨c :: a, b, ?_, hw⟩
      rw [List.cons_append, splitFirst?_cons hp, hsplit]
      rfl

/-- A separator is found where it was put, if it does not occur in front, nor begins to there. -/
theorem splitFirst?_of_front (h : ¬ sep <:+: a ++ sep.dropLast) (b : Text) :
    splitFirst? sep (a ++ (sep ++ b)) = some (a, b) := by
  have hsep : sep ≠ [] := by
    rintro rfl
    exact h (List.nil_infix)
  induction a with
  | nil => exact splitFirst?_append_self hsep b
  | cons c a ih =>
    have hstart : ¬ sep <+: c :: (a ++ (sep ++ b)) := by
      intro hp
      have hfront : c :: a ++ sep.dropLast <+: c :: (a ++ (sep ++ b)) :=
        (List.prefix_append_right_inj (c :: a)).2 ((List.dropLast_prefix sep).trans (List.prefix_append sep b))
      have hlen : sep.length ≤ (c :: a ++ sep.dropLast).length := by
        simp only [List.length_append, List.length_cons, List.length_dropLast]
        omega
      exact h (List.prefix_of_prefix_length_le hp hfront hlen).isInfix
    rw [List.cons_append, splitFirst?_cons hstart, ih fun hinfix => h (List.infix_cons hinfix)]
    rfl

/-- A pair of one character does not begin in a text that does not end with it. -/
theorem splitFirst?_pair (h : ¬ [x, x] <:+: a) (hlast : a.getLast? ≠ some x) (b : Text) :
    splitFirst? [x, x] (a ++ x :: x :: b) = some (a, b) := by
  refine splitFirst?_of_front (fun hinfix => ?_) b
  rcases List.infix_concat_iff.1 hinfix with hsuffix | hinfix
  · have hpart : [x] <:+ a := (List.suffix_append_inj_of_length_eq rfl).1 hsuffix |>.1
    obtain ⟨r, rfl⟩ := hpart
    exact hlast (by simp)
  · exact h hinfix

theorem splitFirst?_eq_none (hx : x ∈ sep) (ht : x ∉ t) : splitFirst? sep t = none :=
  splitFirst?_of_not_infix fun h => ht (h.subset hx)

theorem infix_of_infix_append {s a b : Text} (hx : x ∉ a) (h : x :: s <:+: a ++ b) : x :: s <:+: b := by
  induction a with
  | nil => exact h
  | cons c a ih =>
    rcases List.infix_cons_iff.1 h with h | h
    · exact absurd (List.mem_cons.2 (.inl (List.cons_prefix_cons.1 h).1)) hx
    · exact ih (fun hmem => hx (List.mem_cons_of_mem _ hmem)) h

/-- A text that lacks the first character of the separator is passed over. -/
theorem splitFirst?_append (hx : c ∉ a) (s b : Text) :
    splitFirst? (c :: s) (a ++ b) = (splitFirst? (c :: s) b).map fun p => (a ++ p.1, p.2) := by
  induction a with
  | nil => simp
  | cons d a ih =>
    have hd : ¬ c :: s <+: d :: (a ++ b) := by
      intro h
      exact hx (by simp [(List.cons_prefix_cons.1 h).1])
    rw [List.cons_append, splitFirst?_cons hd, ih fun h => hx (by simp [h]), Option.map_map]
    rfl

theorem splitFirst?_of_not_mem (hx : c ∉ a) (s b : Text) :
    splitFirst? (c :: s) (a ++ (c :: s ++ b)) = some (a, b) := by
  rw [splitFirst?_append hx, splitFirst?_append_self (by simp)]
  simp

/-- A character that the separator lacks keeps the searches on its sides apart. -/
theorem splitFirst?_append_cons (h : sep ≠ []) (hx : x ∉ sep) (a b : Text) :
    splitFirst? sep (a ++ x :: b) =
      ((splitFirst? sep a).map fun p => (p.1, p.2 ++ x :: b)).or
        ((splitFirst? sep b).map fun p => (a ++ x :: p.1, p.2)) := by
  induction a with
  | nil =>
    have hp : ¬ sep <+: x :: b := fun hp => h (List.prefix_nil.1 (prefix_of_prefix_append_cons (a := []) hx hp))
    rw [List.nil_append, splitFirst?_cons hp, splitFirst?_nil h]
    rfl
  | cons c a ih =>
    by_cases hp : sep <+: c :: a
    · obtain ⟨r, hr⟩ := hp
      rw [← hr, splitFirst?_append_self h, List.append_assoc, splitFirst?_append_self h]
      rfl
    · have hp' : ¬ sep <+: c :: (a ++ x :: b) := fun hp' => hp (prefix_of_prefix_append_cons (a := c :: a) hx hp')
      rw [List.cons_append, splitFirst?_cons hp', ih, splitFirst?_cons hp]
      cases splitFirst? sep a <;> cases splitFirst? sep b <;> rfl

/-- What is found in a text with such a character in it is found on one of its sides. -/
theorem infix_append_cons_iff (h : sep ≠ []) (hx : x ∉ sep) :
    sep <:+: a ++ x :: b ↔ sep <:+: a ∨ sep <:+: b := by
  simp only [← contains_iff h, contains, splitFirst?_append_cons h hx, Option.isSome_or, Option.isSome_map,
    Bool.or_eq_true]

theorem splitUpTo_ne_nil (sep : Text) (n : Nat) (t : Text) : splitUpTo sep n t ≠ [] := by
  cases n with
  | zero => exact List.cons_ne_nil t []
  | succ n =>
    rw [splitUpTo]
    split <;> exact List.cons_ne_nil _ _

theorem splitUpTo_of_not_infix (h : ¬ sep <:+: t) (n : Nat) : splitUpTo sep n t = [t] := by
  cases n with
  | zero => rfl
  | succ n => rw [splitUpTo, splitFirst?_of_not_infix h]

/-- What stands in front of the first cut has no separator in it. -/
theorem not_infix_headD_splitUpTo (hsep : sep ≠ []) (n : Nat) (t : Text) :
    ¬ sep <:+: (splitUpTo sep (n + 1) t).headD [] := by
  rw [splitUpTo]
  cases h : splitFirst? sep t with
  | none => exact (splitFirst?_eq_none_iff hsep).1 h
  | some p => exact fun hin => not_infix_of_splitFirst? hsep h (hin.trans (List.prefix_append _ _).isInfix)

theorem splitAll_of_not_infix (h : ¬ sep <:+: t) : splitAll sep t = [t] :=
  splitUpTo_of_not_infix h _

/-- A listing is cut where it was joined. -/
theorem splitAll_join {parts : List Text} (hne : parts ≠ []) (h : ∀ part ∈ parts, x ∉ part) :
    splitAll [x] (join [x] parts) = parts := by
  suffices hcut : ∀ n, (join [x] parts).length ≤ n → splitUpTo [x] n (join [x] parts) = parts from
    hcut _ (Nat.le_refl _)
  induction parts with
  | nil => exact absurd rfl hne
  | cons part parts ih =>
    have hpart : x ∉ part := h part List.mem_cons_self
    intro n hn
    cases parts with
    | nil =>
      have hnone : splitFirst? [x] part = none := splitFirst?_eq_none List.mem_cons_self hpart
      rw [join, List.intercalate_singleton]
      cases n with
      | zero => rfl
      | succ n => rw [splitUpTo, hnone]
    | cons next parts =>
      have hjoin : join [x] (part :: next :: parts) = part ++ ([x] ++ join [x] (next :: parts)) := by
        simp [join, List.intercalate_cons_cons]
      rw [hjoin] at hn ⊢
      simp only [List.length_append, List.length_singleton] at hn
      obtain ⟨n, rfl⟩ : ∃ m, n = m + 1 := ⟨n - 1, by omega⟩
      rw [splitUpTo, splitFirst?_of_not_mem hpart]
      simp only [List.cons.injEq, true_and]
      exact ih (by simp) (fun p hp => h p (List.mem_cons_of_mem _ hp)) n (by omega)

/-! ### Replacing -/

theorem replaceAll_of_splitFirst? (h : splitFirst? old t = some (a, b)) (hold : old ≠ []) :
    replaceAll old new t = a ++ new ++ replaceAll old new b := by
  rw [replaceAll, if_neg (by simpa using hold)]
  split <;> simp_all

theorem replaceAll_of_none (h : splitFirst? old t = none) : replaceAll old new t = t := by
  rw [replaceAll]
  split
  · rfl
  · split <;> simp_all

theorem replaceAll_nil (old new : Text) : replaceAll old new [] = [] := by
  by_cases h : old = []
  · simp [replaceAll, h]
  · exact replaceAll_of_none (splitFirst?_nil h)

theorem replaceAll_append_self (h : old ≠ []) (t : Text) :
    replaceAll old new (old ++ t) = new ++ replaceAll old new t := by
  have hreplace : replaceAll old new (old ++ t) = [] ++ new ++ replaceAll old new t :=
    replaceAll_of_splitFirst? (splitFirst?_append_self h t) h
  rwa [List.nil_append] at hreplace

theorem replaceAll_cons (h : ¬ old <+: c :: t) : replaceAll old new (c :: t) = c :: replaceAll old new t := by
  have hold : old ≠ [] := by
    rintro rfl
    exact h List.nil_prefix
  cases ht : splitFirst? old t with
  | none => rw [replaceAll_of_none ht, replaceAll_of_none (by rw [splitFirst?_cons h, ht]; rfl)]
  | some p =>
    rw [replaceAll_of_splitFirst? ht hold,
      replaceAll_of_splitFirst? (a := c :: p.1) (b := p.2) (by rw [splitFirst?_cons h, ht]; rfl) hold]
    rfl

/-- A text that lacks the first character of the searched one stays. -/
theorem replaceAll_append (hc : c ∉ a) (old new b : Text) :
    replaceAll (c :: old) new (a ++ b) = a ++ replaceAll (c :: old) new b := by
  induction a with
  | nil => rfl
  | cons d a ih =>
    have hd : ¬ c :: old <+: d :: (a ++ b) := fun h => hc (by simp [(List.cons_prefix_cons.1 h).1])
    rw [List.cons_append, replaceAll_cons hd, ih fun h => hc (by simp [h])]
    rfl

theorem replaceAll_append_cons (hx : x ∉ old) (a b : Text) :
    replaceAll old new (a ++ x :: b) = replaceAll old new a ++ x :: replaceAll old new b := by
  by_cases hold : old = []
  · subst hold
    simp [replaceAll]
  induction hn : a.length using Nat.strongRecOn generalizing a with
  | _ n ih =>
    cases ha : splitFirst? old a with
    | some p =>
      -- what is found on the left is found first, and what remains there is shorter
      have hlen := length_of_splitFirst? ha
      have hold' : old.length ≠ 0 := by simpa using hold
      have hs : splitFirst? old (a ++ x :: b) = some (p.1, p.2 ++ x :: b) := by
        rw [splitFirst?_append_cons hold hx, ha]
        rfl
      rw [replaceAll_of_splitFirst? ha hold, replaceAll_of_splitFirst? hs hold, ih p.2.length (by omega) p.2 rfl]
      simp
    | none =>
      rw [replaceAll_of_none ha]
      cases hb : splitFirst? old b with
      | some q =>
        have hs : splitFirst? old (a ++ x :: b) = some (a ++ x :: q.1, q.2) := by
          rw [splitFirst?_append_cons hold hx, ha, hb]
          rfl
        rw [replaceAll_of_splitFirst? hs hold, replaceAll_of_splitFirst? hb hold]
        simp
      | none =>
        have hs : splitFirst? old (a ++ x :: b) = none := by
          rw [splitFirst?_append_cons hold hx, ha, hb]
          rfl
        rw [replaceAll_of_none hs, replaceAll_of_none hb]

/-- Between texts that lack its first character, what is searched for is found where it was put. -/
theorem replaceAll_join {parts : List Text} (h : ∀ part ∈ parts, c ∉ part) (old new : Text) :
    replaceAll (c :: old) new (join (c :: old) parts) = join new parts := by
  induction parts with
  | nil => exact replaceAll_nil _ _
  | cons part parts ih =>
    have hpart := h part List.mem_cons_self
    have ih := ih fun p hp => h p (List.mem_cons_of_mem _ hp)
    cases parts with
    | nil =>
      have hnil := replaceAll_append hpart old new []
      rw [replaceAll_nil, List.append_nil] at hnil
      simpa [join] using hnil
    | cons next parts =>
      simp only [join, List.intercalate_cons_cons, List.append_assoc] at ih ⊢
      rw [replaceAll_append hpart, replaceAll_append_self (by simp), ih]

theorem forall_mem_replaceAll {P : Char → Prop} (ht : ∀ c ∈ t, P c) (hnew : ∀ c ∈ new, P c) :
    ∀ c ∈ replaceAll old new t, P c := by
  fun_induction replaceAll old new t with
  | case1 => exact ht
  | case2 => exact ht
  | case3 t _ a b hs ih =>
    rw [eq_of_splitFirst? hs] at ht
    simp only [List.forall_mem_append] at ht ⊢
    exact ⟨⟨ht.1.1, hnew⟩, ih ht.2⟩

/-- A text starts as before, or with what replaces another one. -/
theorem head?_replaceAll (hold : old ≠ []) (hnew : new ≠ []) (t : Text) :
    (replaceAll old new t).head? = t.head? ∨ (replaceAll old new t).head? = new.head? := by
  cases t with
  | nil => exact .inl (by rw [replaceAll_nil])
  | cons c t =>
    by_cases h : old <+: c :: t
    · obtain ⟨r, hr⟩ := h
      obtain ⟨x, s, rfl⟩ := List.exists_cons_of_ne_nil hnew
      rw [← hr, replaceAll_append_self hold]
      exact .inr rfl
    · exact .inl (by rw [replaceAll_cons h, List.head?_cons, List.head?_cons])

/-- Replacing the pairs of `x` and `d` leaves none of them and brings in no pair of `x` and `c`, if what stands for them
has no `x` and does not start with `c`. -/
theorem pair_of_infix_replaceAll {d : Char} (hx : x ∉ new) (hne : new ≠ []) (hc : new.head? ≠ some c)
    (h : [x, c] <:+: replaceAll [x, d] new t) : c ≠ d ∧ [x, c] <:+: t := by
  induction hn : t.length using Nat.strongRecOn generalizing t with
  | _ n ih =>
    cases t with
    | nil => simp [replaceAll_nil] at h
    | cons y t =>
      by_cases hpair : [x, d] <+: y :: t
      · obtain ⟨r, hr⟩ := hpair
        have hlen : r.length + 2 = n := by rw [← hn, ← hr]; simp
        rw [← hr, replaceAll_append_self (by simp)] at h
        obtain ⟨hcd, hin⟩ := ih r.length (by omega) (infix_of_infix_append hx h) rfl
        exact ⟨hcd, hr ▸ hin.trans (List.suffix_append [x, d] r).isInfix⟩
      · rw [replaceAll_cons hpair] at h
        rcases List.infix_cons_iff.1 h with hfront | hbehind
        · -- the pair closes with the front of the rest, and that is as it was or the front of `new`
          obtain ⟨rfl, r, hr⟩ := List.cons_prefix_cons.1 hfront
          have hhead : (replaceAll [x, d] new t).head? = some c := by rw [← hr]; rfl
          have hthead : t.head? = some c :=
            (head?_replaceAll (by simp) hne t).elim (fun heq => heq ▸ hhead) fun heq => absurd (heq ▸ hhead) hc
          obtain ⟨s, rfl⟩ := List.head?_eq_some_iff.1 hthead
          refine ⟨?_, List.IsPrefix.isInfix ⟨s, rfl⟩⟩
          rintro rfl
          exact hpair ⟨s, rfl⟩
        · obtain ⟨hcd, hin⟩ := ih t.length (by rw [← hn]; simp) hbehind rfl
          exact ⟨hcd, List.infix_cons hin⟩

/-! ### The characters of the parts -/

theorem mem_of_mem_trimStart (h : c ∈ trimStart t) : c ∈ t :=
  (List.dropWhile_sublist _).subset h

theorem mem_of_mem_trim (h : c ∈ trim t) : c ∈ t := by
  have h' := (List.dropWhile_sublist _).subset (List.mem_reverse.1 h)
  exact mem_of_mem_trimStart (List.mem_reverse.1 h')

theorem mem_of_splitFirst? {sep a b : Text} (h : splitFirst? sep t = some (a, b)) (hc : c ∈ a ∨ c ∈ b) : c ∈ t := by
  rw [eq_of_splitFirst? h]
  rcases hc with hc | hc <;> simp [hc]

theorem mem_of_mem_splitUpTo {sep part : Text} {n : Nat} (hp : part ∈ splitUpTo sep n t) (hc : c ∈ part) :
    c ∈ t := by
  induction n generalizing t with
  | zero => rwa [List.mem_singleton.1 hp] at hc
  | succ n ih =>
    unfold splitUpTo at hp
    split at hp
    · rwa [List.mem_singleton.1 hp] at hc
    · rename_i a b hs
      rcases List.mem_cons.1 hp with rfl | hp
      · exact mem_of_splitFirst? hs (.inl hc)
      · exact mem_of_splitFirst? hs (.inr (ih hp))

theorem mem_of_mem_join {sep : Text} {parts : List Text} (h : c ∈ join sep parts) :
    c ∈ sep ∨ ∃ part ∈ parts, c ∈ part := by
  induction parts with
  | nil => simp [join] at h
  | cons p parts ih =>
    cases parts with
    | nil => exact .inr ⟨p, by simp, by simpa [join] using h⟩
    | cons p' parts =>
      rw [join, List.intercalate_cons_cons, List.mem_append, List.mem_append] at h
      rcases h with (h | h) | h
      · exact .inr ⟨p, by simp, h⟩
      · exact .inl h
      · exact (ih h).imp id fun ⟨part, hp, hc⟩ => ⟨part, List.mem_cons_of_mem _ hp, hc⟩

theorem not_mem_join {sep : Text} {parts : List Text} (hsep : c ∉ sep) (h : ∀ part ∈ parts, c ∉ part) :
    c ∉ join sep parts := by
  intro hc
  rcases mem_of_mem_join hc with hc | ⟨part, hp, hc⟩
  · exact hsep hc
  · exact h part hp hc

theorem mem_of_mem_splitOn {d : Char} {line : Text} (hl : line ∈ t.splitOn d) (h : c ∈ line) : c ∈ t := by
  have hjoin : [d].intercalate (t.splitOn d) = t := List.intercalate_splitOn d
  rw [← hjoin]
  generalize t.splitOn d = lines at hl
  induction lines with
  | nil => simp at hl
  | cons p lines ih =>
    cases lines with
    | nil => simpa [List.mem_singleton.1 hl] using h
    | cons p' lines =>
      rw [List.intercalate_cons_cons]
      rcases List.mem_cons.1 hl with rfl | hl
      · simp [h]
      · simp [ih hl]

theorem mem_of_mem_lines {line : Text} (hl : line ∈ lines t) (h : c ∈ line) : c ∈ t := by
  have hended : ∀ line ∈ (t.splitOn '\n').dropLast.map (fun line => (stripLast? '\r' line).getD line),
      c ∈ line → c ∈ t := by
    intro line hl h
    obtain ⟨piece, hp, rfl⟩ := List.mem_map.1 hl
    refine mem_of_mem_splitOn (List.dropLast_subset _ hp) ?_
    unfold stripLast? at h
    split at h
    · exact List.dropLast_subset _ h
    · exact h
  unfold lines at hl
  simp only at hl
  split at hl
  · rename_i d rest hlast
    rcases List.mem_append.1 hl with hl | hl
    · exact hended line hl h
    · rw [List.mem_singleton.1 hl] at h
      exact mem_of_mem_splitOn (List.mem_of_getLast? hlast) h
  · exact hended line hl h

/-! ### Lines -/

theorem join_concat {parts : List Text} (hne : parts ≠ []) (sep part : Text) :
    join sep (parts ++ [part]) = join sep parts ++ sep ++ part := by
  induction parts with
  | nil => exact absurd rfl hne
  | cons first parts ih =>
    cases parts with
    | nil => simp [join, List.intercalate_cons_cons]
    | cons next parts =>
      have ih := ih (by simp)
      simp only [join, List.cons_append, List.intercalate_cons_cons, List.append_assoc] at ih ⊢
      rw [ih]

/-- The lines of a text are those it was joined from, whether or not the last of them is ended. -/
theorem lines_join {ls : List Text} (hne : ls ≠ [])
    (h : ∀ line ∈ ls, line ≠ [] ∧ '\n' ∉ line ∧ line.getLast? ≠ some '\r') :
    lines (join "\n" ls) = ls ∧ lines (join "\n" ls ++ "\n") = ls := by
  have hkept : ∀ line ∈ ls, (stripLast? '\r' line).getD line = line := by
    intro line hline
    rw [stripLast?, if_neg (h line hline).2.2]
    rfl
  have hmap : ∀ ended : List Text, (∀ line ∈ ended, line ∈ ls) →
      ended.map (fun line => (stripLast? '\r' line).getD line) = ended :=
    fun ended hended => (List.map_congr_left fun line hline => hkept line (hended line hline)).trans (List.map_id _)
  have hcut {parts : List Text} (hparts : ∀ line ∈ parts, '\n' ∉ line) (hne : parts ≠ []) :
      (join "\n" parts).splitOn '\n' = parts := List.splitOn_intercalate '\n' hparts hne
  constructor
  · obtain ⟨c, rest, hlast⟩ := List.exists_cons_of_ne_nil (h _ (List.getLast_mem hne)).1
    rw [lines, hcut (fun line hline => (h line hline).2.1) hne]
    simp only [List.getLast?_eq_some_getLast hne, hlast, hmap _ fun _ hline => List.dropLast_subset ls hline]
    rw [← hlast]
    exact List.dropLast_concat_getLast hne
  · have hended : join "\n" ls ++ "\n" = join "\n" (ls ++ [[]]) := by
      rw [join_concat hne, List.append_nil]
    have hbreak : ∀ line ∈ ls ++ [[]], '\n' ∉ line := by
      intro line hline
      rcases List.mem_append.1 hline with hline | hline
      · exact (h line hline).2.1
      · simp [List.mem_singleton.1 hline]
    rw [hended, lines, hcut hbreak (by simp)]
    simp only [List.getLast?_concat, List.dropLast_concat]
    exact hmap ls fun line hline => hline

end DirectiveEngine.Text
