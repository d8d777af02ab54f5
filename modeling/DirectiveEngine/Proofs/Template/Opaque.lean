import DirectiveEngine.Proofs.Template.Fill
import DirectiveEngine.Proofs.Template.Inert

/-!
# Values of arguments in a template

The value of a single argument is put in by the last pass, so nothing goes over it again.  Those of several arguments
are put in by earlier passes, and the later ones read them.  So a template does with all arguments what it does with
words that stand for them just if it holds no placeholder for several of them (`replaceArguments_eq_fillWords_iff`).

That the value of several arguments is read is seen from one that holds a placeholder for an argument, behind enough
percent signs: each pass takes at most one of them for the end of a span that starts in front (`Scans.probed`), and the
last one puts the argument in.
-/

namespace DirectiveEngine

variable {args words : List Text} {P : Text → Text} {a b o t u v w : Text} {f g : Text → Option Text} {k l m n : Nat}

/-! ### Placeholders for several arguments -/

/-- A placeholder for the arguments from the `k`-th on, with a default. -/
def HoldsDefault (k : Nat) (t : Text) : Prop :=
  ∃ a b : Text, t = a ++ ("%arg" ++ natText k ++ "-::" ++ b) ∧ '%' ∈ b

/-- A placeholder for the arguments from the `k`-th on. -/
def HoldsTail (k : Nat) (t : Text) : Prop :=
  ("%arg" ++ natText k ++ "-%" : Text) <:+: t ∨ HoldsDefault k t

/-- A placeholder for several of `n` arguments. -/
def HoldsSeveral (n : Nat) (t : Text) : Prop :=
  (0 < n ∧ ("%args%" : Text) <:+: t) ∨ ∃ k, 0 < k ∧ k ≤ n ∧ HoldsTail k t

private theorem replaceDelimited_of_not_holdsDefault (h : ¬ HoldsDefault k t) (f : Text → Option Text) :
    replaceDelimited ("%arg" ++ natText k ++ "-::") "%" f t = t := by
  cases ht : Text.splitFirst? ("%arg" ++ natText k ++ "-::") t with
  | none => exact replaceDelimited_of_none ht
  | some r =>
    have hclosed : '%' ∉ r.2 := fun hmem => h ⟨r.1, r.2, by simpa using Text.eq_of_splitFirst? ht, hmem⟩
    exact replaceDelimited_of_unclosed ht (Text.splitFirst?_eq_none (List.mem_singleton_self _) hclosed)

theorem replaceTail_of_not_holdsTail (h : ¬ HoldsTail k t) (args : List Text) : replaceTail args t k = t := by
  rw [replaceTail]
  simp only [replaceDelimited_of_not_holdsDefault fun hdefault => h (.inr hdefault)]
  exact Text.replaceAll_of_none (Text.splitFirst?_of_not_infix fun hinfix => h (.inl hinfix))

theorem argumentsFrom?_of_length_lt (h : args.length < k) : argumentsFrom? args k = none :=
  if_neg (Nat.not_le.2 h)

/-- Behind the last argument there are only defaults. -/
theorem forall_mem_replaceTail {R : Char → Prop} (h : args.length < k) (ht : ∀ c ∈ t, R c) :
    ∀ c ∈ replaceTail args t k, R c := by
  rw [replaceTail, argumentsFrom?_of_length_lt h]
  refine Text.forall_mem_replaceAll (forall_mem_replaceDelimited ht fun inner v hinner hv => ?_) (by simp)
  exact Option.some.inj hv ▸ hinner

/-- The numbers that the passes for tails go over: first those of arguments, then others. -/
private theorem range'_bound (n : Nat) :
    ∃ others, (∀ k ∈ others, n < k) ∧ List.range' 1 (max (n + 5) 10) = List.range' 1 n ++ others := by
  refine ⟨List.range' (1 + n) (max (n + 5) 10 - n), fun k hk => ?_, ?_⟩
  · have hle := (List.mem_range'_1.1 hk).1
    omega
  · rw [List.range'_append_1, Nat.add_sub_cancel' (by omega)]

/-- Before the last pass the arguments do not matter, and no character comes in. -/
private theorem foldl_replaceTail (hlen : args.length = words.length) (hseveral : ¬ HoldsSeveral words.length t) :
    ∃ u, (∀ c ∈ u, c ∈ t) ∧ (List.range' 1 (max (args.length + 5) 10)).foldl (replaceTail args) t = u ∧
      (List.range' 1 (max (words.length + 5) 10)).foldl (replaceTail words) t = u := by
  have hsame {ks : List Nat} (hks : ∀ k ∈ ks, 0 < k ∧ k ≤ words.length) (args : List Text) :
      ks.foldl (replaceTail args) t = t := by
    induction ks with
    | nil => rfl
    | cons k ks ih =>
      obtain ⟨hk, hks⟩ := List.forall_mem_cons.1 hks
      rw [List.foldl_cons, replaceTail_of_not_holdsTail fun htail => hseveral (.inr ⟨k, hk.1, hk.2, htail⟩), ih hks]
  have hothers {ks : List Nat} (hks : ∀ k ∈ ks, words.length < k) {u : Text} (hu : ∀ c ∈ u, c ∈ t) :
      (∀ c ∈ ks.foldl (replaceTail words) u, c ∈ t) ∧
        ks.foldl (replaceTail args) u = ks.foldl (replaceTail words) u := by
    induction ks generalizing u with
    | nil => exact ⟨hu, rfl⟩
    | cons k ks ih =>
      obtain ⟨hk, hks⟩ := List.forall_mem_cons.1 hks
      have hnone : replaceTail args u k = replaceTail words u k := by
        rw [replaceTail, replaceTail, argumentsFrom?_of_length_lt hk, argumentsFrom?_of_length_lt (hlen ▸ hk)]
      rw [List.foldl_cons, List.foldl_cons, hnone]
      exact ih hks (forall_mem_replaceTail hk hu)
  obtain ⟨others, hlt, hrange⟩ := range'_bound words.length
  have hfirst : ∀ k ∈ List.range' 1 words.length, 0 < k ∧ k ≤ words.length := fun k hk => by
    have hk := List.mem_range'_1.1 hk
    omega
  obtain ⟨hmem, heq⟩ := hothers hlt (u := t) fun _ hc => hc
  refine ⟨_, hmem, ?_, ?_⟩
  · rw [hlen, hrange, List.foldl_append, hsame hfirst, heq]
  · rw [hrange, List.foldl_append, hsame hfirst]

/-! ### Single arguments -/

/-- Two values of a placeholder, of which the one becomes the other when words do. -/
def Filled (fill : Text → Text) : Option Text → Option Text → Prop
  | none, none => True
  | some w, some v => ∀ u, fill (w ++ u) = v ++ fill u
  | _, _ => False

private theorem Filled.of_some {fill : Text → Text} {r : Option Text} (h : Filled fill (some w) r) :
    ∃ v, r = some v ∧ ∀ u, fill (w ++ u) = v ++ fill u := by
  cases r with
  | none => exact h.elim
  | some v => exact ⟨v, rfl, h⟩

private theorem Filled.of_none {fill : Text → Text} {r : Option Text} (h : Filled fill none r) : r = none := by
  cases r with
  | none => rfl
  | some v => exact h.elim

private theorem filled_argument? (h : Fresh words t) (hlen : args.length = words.length) (index : Text) :
    Filled (fillWords (words.zip args)) (argument? words index) (argument? args index) := by
  unfold argument?
  split
  · rename_i n _
    by_cases hn : n < words.length
    · have hw := List.getElem?_eq_getElem hn
      have hv := List.getElem?_eq_getElem (hlen ▸ hn)
      rw [hw, hv]
      exact h.word hw hv
    · rw [List.getElem?_eq_none (Nat.le_of_not_lt hn), List.getElem?_eq_none (hlen ▸ Nat.le_of_not_lt hn)]
      trivial
  · trivial

private theorem filled_argumentValue? (h : Fresh words t) (hlen : args.length = words.length) {inner : Text}
    (hinner : ∀ c ∈ inner, c ∈ t) :
    Filled (fillWords (words.zip args)) (argumentValue? words inner) (argumentValue? args inner) := by
  unfold argumentValue?
  split
  · rename_i index default hsplit
    have hdefault : ∀ c ∈ default, c ∈ t := fun c hc => hinner c <| by
      rcases Option.or_eq_some_iff.1 hsplit with hsplit | ⟨-, hsplit⟩
      · exact Text.mem_of_splitFirst? hsplit (.inr hc)
      · exact Text.mem_of_splitFirst? hsplit (.inr hc)
    have hargument := filled_argument? h hlen index
    cases hw : argument? words index with
    | none =>
      rw [hw] at hargument
      rw [hargument.of_none]
      exact h.append hdefault args
    | some w =>
      rw [hw] at hargument
      obtain ⟨v, hv, hvalue⟩ := hargument.of_some
      rw [hv]
      exact hvalue
  · exact filled_argument? h hlen inner

/-- What the last pass puts in is not read again, so the words become values in its result. -/
private theorem replaceDelimited_filled {opening closing : Text} (h : Fresh words t) (hne : opening ≠ [])
    (hfg : ∀ inner, (∀ c ∈ inner, c ∈ t) → Filled (fillWords (words.zip args)) (g inner) (f inner))
    (hu : ∀ c ∈ u, c ∈ t) :
    replaceDelimited opening closing f u =
      fillWords (words.zip args) (replaceDelimited opening closing g u) := by
  have hsplit {sep u a b : Text} (hu : ∀ c ∈ u, c ∈ t) (h : Text.splitFirst? sep u = some (a, b)) :
      (∀ c ∈ a, c ∈ t) ∧ ∀ c ∈ b, c ∈ t :=
    ⟨fun c hc => hu c (Text.mem_of_splitFirst? h (.inl hc)), fun c hc => hu c (Text.mem_of_splitFirst? h (.inr hc))⟩
  fun_induction replaceDelimited opening closing g u with
  | case1 _ u hnone => rw [replaceDelimited_of_none hnone, h.self hu]
  | case2 _ u before after hopen hnone => rw [replaceDelimited_of_unclosed hopen hnone, h.self hu]
  | case3 u before after inner rest hclose w c opening hopen hw _ ih =>
    obtain ⟨hbefore, hafter⟩ := hsplit hu hopen
    obtain ⟨hinner, hrest⟩ := hsplit hafter hclose
    have hvalue := hfg inner hinner
    rw [hw] at hvalue
    obtain ⟨v, hv, hvalue⟩ := hvalue.of_some
    rw [replaceDelimited_of_some hne hopen hclose hv, List.append_assoc, List.append_assoc, h.append hbefore, hvalue,
      ih hne hrest]
  | case4 u before after inner rest hclose c opening hopen hw _ ih =>
    obtain ⟨hbefore, hafter⟩ := hsplit hu hopen
    have hvalue := hfg inner (hsplit hafter hclose).1
    rw [hw] at hvalue
    have hnext : ∀ d ∈ c :: (opening ++ after), d ∈ t := fun d hd => hu d <| by
      rw [Text.eq_of_splitFirst? hopen]
      rcases List.mem_cons.1 hd with rfl | hd
      · simp
      · rcases List.mem_append.1 hd with hd | hd <;> simp [hd]
    obtain ⟨hc, htail⟩ := List.forall_mem_cons.1 hnext
    rw [replaceDelimited_of_declined hopen hclose hvalue.of_none, h.append hbefore, h.cons hc, ih hne htail]
  | case5 => exact absurd rfl hne

/-- Without placeholders for several arguments, values are opaque. -/
theorem replaceArguments_eq_fillWords (h : Fresh words t) (hlen : args.length = words.length)
    (hseveral : ¬ HoldsSeveral words.length t) :
    replaceArguments args t = fillWords (words.zip args) (replaceArguments words t) := by
  rcases Nat.eq_zero_or_pos words.length with hzero | hpos
  · obtain rfl := List.length_eq_zero_iff.1 hzero
    obtain rfl := List.length_eq_zero_iff.1 hlen
    have hnone : Fresh [] (replaceArguments [] t) := ⟨by simp, .nil⟩
    exact (hnone.self (fun _ hc => hc) []).symm
  · have hall (new : Text) : Text.replaceAll "%args%" new t = t :=
      Text.replaceAll_of_none (Text.splitFirst?_of_not_infix fun hinfix => hseveral (.inl ⟨hpos, hinfix⟩))
    obtain ⟨u, hu, hargs, hwords⟩ := foldl_replaceTail hlen hseveral
    rw [replaceArguments, replaceArguments]
    simp only [hall, hargs, hwords]
    exact replaceDelimited_filled h (by decide) (fun inner => filled_argumentValue? h hlen) hu

/-! ### Passes in front of a placeholder -/

/-- A pass over spans that start with letters, and what it makes of the first argument.  What stands in front of a
percent sign may take it for the end of a span. -/
structure Scans (w : Text) (P : Text → Text) : Prop where
  append : ∀ {a t}, '%' ∉ a → P (a ++ t) = a ++ P t
  sign : ∀ t, P ('%' :: '%' :: t) = '%' :: P ('%' :: t)
  argument : ∀ {t}, EndsSpan t → P ("%arg1%" ++ t) = w ++ P t
  front : ∀ a t, ∃ a', P (a ++ '%' :: t) = a' ++ P ('%' :: t) ∨ P (a ++ '%' :: t) = a' ++ P t

/-- Percent signs, a placeholder and exclamation marks. -/
def probe (m l : Nat) : Text :=
  List.replicate m '%' ++ ("%arg1%" ++ List.replicate l '!')

private theorem probe_succ (m l : Nat) : probe (m + 1) l = '%' :: probe m l :=
  rfl

private theorem probe_eq_cons (m l : Nat) : ∃ t, probe m l = '%' :: t := by
  cases m with
  | zero => exact ⟨_, rfl⟩
  | succ m => exact ⟨_, rfl⟩

namespace Scans

theorem probe (h : Scans w P) (m : Nat) (hl : l ≠ 0) (t : Text) :
    P (probe m l ++ t) = List.replicate m '%' ++ (w ++ (List.replicate l '!' ++ P t)) := by
  induction m with
  | zero =>
    obtain ⟨l, rfl⟩ := Nat.exists_eq_succ_of_ne_zero hl
    have hends : EndsSpan (List.replicate (l + 1) '!' ++ t) := by
      intro c hc
      obtain rfl : '!' = c := Option.some.inj hc
      decide
    have hmarks : '%' ∉ List.replicate (l + 1) '!' := fun hmem => absurd (List.eq_of_mem_replicate hmem) (by decide)
    rw [DirectiveEngine.probe, List.replicate_zero, List.nil_append, List.append_assoc, h.argument hends,
      h.append hmarks]
    rfl
  | succ m ih =>
    obtain ⟨r, hr⟩ := probe_eq_cons m l
    rw [probe_succ, List.cons_append]
    rw [hr, List.cons_append] at ih ⊢
    rw [h.sign, ih]
    rfl

/-- At most one of the signs is lost. -/
theorem probed (h : Scans w P) (a : Text) (m : Nat) (hl : l ≠ 0) (t : Text) :
    ∃ a', P (a ++ (DirectiveEngine.probe (m + 1) l ++ t)) =
      a' ++ (List.replicate m '%' ++ (w ++ (List.replicate l '!' ++ P t))) := by
  obtain ⟨a', hfront⟩ := h.front a (DirectiveEngine.probe m l ++ t)
  rw [probe_succ, List.cons_append]
  rcases hfront with hfront | hfront
  · refine ⟨a' ++ ['%'], ?_⟩
    rw [hfront, ← List.cons_append, ← probe_succ, h.probe (m + 1) hl]
    simp [List.replicate_succ]
  · exact ⟨a', by rw [hfront, h.probe m hl]⟩

end Scans

/-! ### Each pass in front of a percent sign -/

/-- The pass goes on at the sign between the texts, or behind it. -/
private def Reaches (P : Text → Text) (a t : Text) : Prop :=
  ∃ a', P (a ++ '%' :: t) = a' ++ P ('%' :: t) ∨ P (a ++ '%' :: t) = a' ++ P t

private theorem Reaches.step {a₁ : Text} (h : Reaches P a₁ t) (hstep : P (a ++ '%' :: t) = b ++ P (a₁ ++ '%' :: t)) :
    Reaches P a t := by
  obtain ⟨a', h⟩ := h
  refine ⟨b ++ a', ?_⟩
  rw [hstep]
  exact h.imp (fun h => by rw [h, List.append_assoc]) fun h => by rw [h, List.append_assoc]

/-- The first sign is the one in front of `t`, or there is one before it. -/
private theorem exists_first_sign (a t : Text) :
    ∃ b rest, '%' ∉ b ∧ a ++ '%' :: t = b ++ '%' :: rest ∧
      (rest = t ∨ ∃ a₁, a₁.length ≤ a.length ∧ rest = a₁ ++ '%' :: t) := by
  by_cases ha : '%' ∈ a
  · obtain ⟨b, a₁, rfl, hb⟩ := List.eq_append_cons_of_mem ha
    refine ⟨b, a₁ ++ '%' :: t, hb, by simp, .inr ⟨a₁, ?_, rfl⟩⟩
    rw [List.length_append, List.length_cons]
    omega
  · exact ⟨a, t, ha, rfl, .inl rfl⟩

private theorem reaches_replaceDelimited (ho : '%' ∉ o) (f : Text → Option Text) (a t : Text) :
    Reaches (replaceDelimited ('%' :: o) ['%'] f) a t := by
  induction hn : a.length using Nat.strongRecOn generalizing a with
  | _ n ih =>
    cases a with
    | nil => exact ⟨[], .inl rfl⟩
    | cons c a =>
      rw [List.length_cons] at hn
      by_cases hp : '%' :: o <+: c :: (a ++ '%' :: t)
      · obtain ⟨rfl, hfront⟩ := List.cons_prefix_cons.1 hp
        obtain ⟨a, rfl⟩ := Text.prefix_of_prefix_append_cons ho hfront
        rw [List.length_append] at hn
        have hopen : Text.splitFirst? ('%' :: o) ('%' :: (o ++ a) ++ '%' :: t) = some ([], a ++ '%' :: t) := by
          simpa using Text.splitFirst?_append_self (List.cons_ne_nil '%' o) (a ++ '%' :: t)
        obtain ⟨inner, rest, hinner, hsign, hrest⟩ := exists_first_sign a t
        have hclose : Text.splitFirst? ['%'] (a ++ '%' :: t) = some (inner, rest) := by
          rw [hsign]
          exact Text.splitFirst?_of_not_mem hinner [] rest
        cases hv : f inner with
        | some v =>
          have hstep := replaceDelimited_of_some (List.cons_ne_nil '%' o) hopen hclose hv
          rcases hrest with rfl | ⟨a₁, hlen, rfl⟩
          · exact ⟨v, .inr hstep⟩
          · exact (ih a₁.length (by omega) a₁ rfl).step hstep
        | none =>
          have hstep := replaceDelimited_of_declined hopen hclose hv
          rw [← List.append_assoc o] at hstep
          exact (ih (o ++ a).length (by rw [List.length_append]; omega) (o ++ a) rfl).step (b := ['%']) hstep
      · exact (ih a.length (by omega) a rfl).step (b := [c]) (replaceDelimited_cons (List.cons_ne_nil '%' o) hp)

private theorem reaches_replaceAll (ho : '%' ∉ o) (new a t : Text) :
    Reaches (Text.replaceAll ('%' :: (o ++ ['%'])) new) a t := by
  induction hn : a.length using Nat.strongRecOn generalizing a with
  | _ n ih =>
    cases a with
    | nil => exact ⟨[], .inl rfl⟩
    | cons c a =>
      rw [List.length_cons] at hn
      by_cases hp : '%' :: (o ++ ['%']) <+: c :: (a ++ '%' :: t)
      · obtain ⟨rfl, hfront⟩ := List.cons_prefix_cons.1 hp
        obtain ⟨b, rest, hb, hsign, hrest⟩ := exists_first_sign a t
        rw [hsign] at hfront
        obtain rfl := Text.eq_of_prefix_append_cons ho hb hfront
        have hstep : Text.replaceAll ('%' :: (o ++ ['%'])) new ('%' :: a ++ '%' :: t) =
            new ++ Text.replaceAll ('%' :: (o ++ ['%'])) new rest := by
          rw [List.cons_append, hsign]
          exact replaceAll_span_self
        rcases hrest with rfl | ⟨a₁, hlen, rfl⟩
        · exact ⟨new, .inr hstep⟩
        · exact (ih a₁.length (by omega) a₁ rfl).step hstep
      · exact (ih a.length (by omega) a rfl).step (b := [c]) (Text.replaceAll_cons hp)

private theorem IsOpening.opensNone_sign (ho : IsOpening o) (t : Text) : OpensNone o ('%' :: t) := by
  rintro - hp
  obtain ⟨c, hc, hletter⟩ := ho.letter
  obtain ⟨o, rfl⟩ := List.head?_eq_some_iff.1 hc
  rw [(List.cons_prefix_cons.1 hp).1] at hletter
  exact absurd hletter (by decide)

/-- A pass for other spans leaves that of the first argument. -/
private theorem Spanwise.argument (h : Spanwise (· = ("arg1" : Text)) (fun _ _ => False) P) (ht : EndsSpan t) :
    P ("%arg1%" ++ t) = "%arg1%" ++ P t := by
  have hspan := h.span (b := "arg1") (by decide) rfl ht
  have hself := (h.value (b := "arg1") (by decide) rfl).resolve_right fun h => h.2
  rw [hself] at hspan
  exact hspan

theorem scans_replaceAll (ho : IsOpening o) (hne : o ≠ "arg1") (new : Text) :
    Scans "%arg1%" (Text.replaceAll ('%' :: (o ++ ['%'])) new) where
  append ha := Text.replaceAll_append ha _ _ _
  sign t := replaceAll_closing (ho.opensNone_sign t)
  argument ht := Spanwise.argument (.replaceAll ho fun h => absurd h hne) ht
  front := reaches_replaceAll ho.sign new

theorem scans_replaceDelimited (ho : IsOpening o) (hne : ∀ inner, o ++ inner ≠ ("arg1" : Text))
    (f : Text → Option Text) : Scans "%arg1%" (replaceDelimited ('%' :: o) ['%'] f) where
  append ha := replaceDelimited_append ha
  sign t := replaceDelimited_closing (ho.opensNone_sign t)
  argument ht := Spanwise.argument (.replaceDelimited ho fun inner _ h => absurd h (hne inner)) ht
  front := reaches_replaceDelimited ho.sign f

/-- The last pass puts the argument in. -/
theorem scans_argumentValue? {arg : Text} (harg : args.head? = some arg) :
    Scans arg (replaceDelimited "%arg" "%" (argumentValue? args)) where
  append ha := replaceDelimited_append ha
  sign t := replaceDelimited_cons (by decide) (by simp)
  argument {t} _ := by
    have hvalue : argumentValue? args "1" = some arg := by
      have hnone : (Text.splitFirst? "::" "1").or (Text.splitFirst? "|" "1") = none := by decide
      have hindex : natural? maxIndex "1" = some 1 := by decide
      rw [argumentValue?, hnone, argument?, hindex, ← harg, List.head?_eq_getElem?]
    have hclosed : '%' ∉ ("1" : Text) := by decide
    exact replaceDelimited_span_self hclosed hvalue t
  front := reaches_replaceDelimited (by decide) _

/-! ### Probes through the passes -/

/-- A probe stands in the text. -/
def Probed (m l : Nat) (t : Text) : Prop :=
  ∃ a r, t = a ++ (probe m l ++ r)

namespace Probed

theorem mono (h : Probed n l t) (hmn : m ≤ n) : Probed m l t := by
  obtain ⟨a, r, rfl⟩ := h
  obtain ⟨d, rfl⟩ := Nat.exists_eq_add_of_le' hmn
  exact ⟨a ++ List.replicate d '%', r, by simp [probe, ← List.replicate_append_replicate]⟩

theorem pass (h : Probed (m + 1) l t) (hl : l ≠ 0) (hP : Scans "%arg1%" P) : Probed m l (P t) := by
  obtain ⟨a, r, rfl⟩ := h
  obtain ⟨a', ha'⟩ := hP.probed a m hl r
  exact ⟨a', P r, by rw [ha', probe]; simp⟩

private theorem tail_ne {s : Text} (hs : '-' ∈ s) (k : Nat) (inner : Text) :
    "arg" ++ (natText k ++ s) ++ inner ≠ ("arg1" : Text) := fun h =>
  absurd (h ▸ by simp [hs] : '-' ∈ ("arg1" : Text)) (by decide)

private theorem scans_tail_default (k : Nat) (f : Text → Option Text) :
    Scans "%arg1%" (replaceDelimited ('%' :: ("arg" ++ (natText k ++ "-::"))) ['%'] f) :=
  scans_replaceDelimited (IsRest.natText_append k (by decide)).opening (tail_ne (by decide) k) f

private theorem scans_tail (k : Nat) (new : Text) :
    Scans "%arg1%" (Text.replaceAll ('%' :: ("arg" ++ (natText k ++ "-") ++ ['%'])) new) :=
  have hne := tail_ne (s := "-") (by decide) k []
  scans_replaceAll (IsRest.natText_append k (by decide)).opening (by simpa using hne) new

theorem replaceTail (h : Probed (m + 2) l t) (hl : l ≠ 0) (args : List Text) (k : Nat) :
    Probed m l (DirectiveEngine.replaceTail args t k) := by
  rw [replaceTail_eq]
  exact (h.pass hl (scans_tail_default k _)).pass hl (scans_tail k _)

theorem foldl {ks : List Nat} (h : Probed (m + 2 * ks.length) l t) (hl : l ≠ 0) (args : List Text) :
    Probed m l (ks.foldl (DirectiveEngine.replaceTail args) t) := by
  induction ks generalizing t with
  | nil => exact h
  | cons k ks ih => exact ih (replaceTail (m := m + 2 * ks.length) h hl args k)

/-- What is put in for a text can be a probe. -/
theorem of_replaceAll (ht : o <:+: t) (ho : o ≠ []) (r : Text) :
    Probed m l (Text.replaceAll o (probe m l ++ r) t) := by
  obtain ⟨a, b, rfl⟩ := ht
  obtain ⟨a', b', hsplit, -⟩ := Text.exists_splitFirst? ho a b
  rw [List.append_assoc, Text.replaceAll_of_splitFirst? hsplit ho]
  exact ⟨a', r ++ Text.replaceAll o (probe m l ++ r) b', by simp⟩

/-- The value of several arguments can be a probe, and the passes that put it in take a sign at most. -/
theorem of_holdsTail {r : Text} (h : HoldsTail k t) (hr : argumentsFrom? args k = some (probe (m + 1) l ++ r))
    (hl : l ≠ 0) : Probed m l (DirectiveEngine.replaceTail args t k) := by
  have hname (s : Text) : "%arg" ++ natText k ++ s = '%' :: ("arg" ++ (natText k ++ s)) := by simp
  by_cases hdefault : HoldsDefault k t
  · rw [replaceTail_eq, hr]
    obtain ⟨a, b, rfl, hb⟩ := hdefault
    rw [hname]
    obtain ⟨a', b', hopen, hsuffix⟩ :=
      Text.exists_splitFirst? (List.cons_ne_nil '%' ("arg" ++ (natText k ++ "-::"))) a b
    obtain ⟨inner, rest, rfl, hinner⟩ := List.eq_append_cons_of_mem (hsuffix.mem hb)
    have hclose : Text.splitFirst? ['%'] (inner ++ '%' :: rest) = some (inner, rest) :=
      Text.splitFirst?_of_not_mem hinner [] rest
    rw [replaceDelimited_of_some (f := fun default => some ((some (probe (m + 1) l ++ r)).getD default))
      (List.cons_ne_nil _ _) hopen hclose rfl]
    refine pass ⟨a', ?_, ?_⟩ hl (scans_tail k _)
    · exact r ++ replaceDelimited ('%' :: ("arg" ++ (natText k ++ "-::"))) ['%']
        (fun default => some ((some (probe (m + 1) l ++ r)).getD default)) rest
    · simp
  · have hinfix := h.resolve_right hdefault
    rw [DirectiveEngine.replaceTail]
    simp only [replaceDelimited_of_not_holdsDefault hdefault, hr]
    exact (of_replaceAll hinfix (by simp) r).mono (Nat.le_succ m)

/-- The first pass that finds a placeholder of its own puts a probe in, and later ones leave enough of it. -/
theorem of_tails {s len signs : Nat}
    (hr : ∀ k, 0 < k → k ≤ n → ∃ r, argumentsFrom? args k = some (probe (signs + 1) l ++ r))
    (hsigns : m + 2 * len ≤ signs) (hl : l ≠ 0) (hs : 0 < s)
    (hk : ∃ k, s ≤ k ∧ k < s + len ∧ k ≤ n ∧ HoldsTail k t) :
    Probed m l ((List.range' s len).foldl (DirectiveEngine.replaceTail args) t) := by
  obtain ⟨k, hsk, hklen, hkn, htail⟩ := hk
  induction len generalizing s with
  | zero => omega
  | succ len ih =>
    rw [List.range'_succ, List.foldl_cons]
    by_cases hfirst : HoldsTail s t
    · obtain ⟨r, hr⟩ := hr s hs (Nat.le_trans hsk hkn)
      refine foldl ((of_holdsTail hfirst hr hl).mono ?_) hl args
      rw [List.length_range']
      omega
    · rw [replaceTail_of_not_holdsTail hfirst]
      have hne : s ≠ k := fun heq => hfirst (heq ▸ htail)
      exact ih (by omega) (Nat.succ_pos s) (by omega) (by omega)

end Probed

/-! ### Templates whose values are opaque -/

private theorem join_replicate (hn : 0 < n) (v : Text) : ∃ r, Text.join " " (List.replicate n v) = v ++ r := by
  obtain ⟨n, rfl⟩ := Nat.exists_eq_add_of_le' hn
  cases n with
  | zero => exact ⟨[], by simp [Text.join]⟩
  | succ n =>
    refine ⟨" " ++ Text.join " " (List.replicate (n + 1) v), ?_⟩
    simp [Text.join, List.replicate_succ, List.intercalate_cons_cons]

private theorem argumentsFrom?_replicate (hk : 0 < k) (hkn : k ≤ n) (v : Text) :
    ∃ r, argumentsFrom? (List.replicate n v) k = some (v ++ r) := by
  obtain ⟨r, hr⟩ := join_replicate (n := n - (k - 1)) (by omega) v
  refine ⟨r, ?_⟩
  rw [argumentsFrom?, if_pos (by rwa [List.length_replicate]), List.drop_replicate, hr]

/-- Where a template holds a placeholder for several arguments, a value can come out with its own end behind it. -/
private theorem exists_double_run (hseveral : HoldsSeveral n t) (hl : l ≠ 0) :
    ∃ m, List.replicate (l + l) '!' <:+: replaceArguments (List.replicate n (probe m l)) t := by
  have hn : 0 < n := hseveral.elim (fun h => h.1) fun ⟨k, hk, hkn, _⟩ => Nat.lt_of_lt_of_le hk hkn
  let bound := max (n + 5) 10
  let args := List.replicate n (probe (1 + 2 * bound + 1) l)
  have hbefore : Probed 1 l ((List.range' 1 bound).foldl (replaceTail args)
      (Text.replaceAll "%args%" (Text.join " " args) t)) := by
    by_cases hall : ("%args%" : Text) <:+: t
    · obtain ⟨r, hr⟩ := join_replicate hn (probe (1 + 2 * bound + 1) l)
      rw [hr]
      refine Probed.foldl ((Probed.of_replaceAll hall (by decide) r).mono ?_) hl args
      rw [List.length_range']
      omega
    · obtain ⟨k, hk, hkn, htail⟩ := hseveral.resolve_left fun h => hall h.2
      rw [Text.replaceAll_of_none (Text.splitFirst?_of_not_infix hall)]
      refine Probed.of_tails (n := n) (fun k hk hkn => argumentsFrom?_replicate hk hkn _) (Nat.le_refl _) hl Nat.one_pos
        ⟨k, hk, ?_, hkn, htail⟩
      omega
  have hfirst : args.head? = some (probe (1 + 2 * bound + 1) l) := by
    obtain ⟨n, rfl⟩ := Nat.exists_eq_add_of_le' hn
    rfl
  obtain ⟨a, r, hprobe⟩ := hbefore
  obtain ⟨a', ha'⟩ := (scans_argumentValue? hfirst).probed a 0 hl r
  refine ⟨1 + 2 * bound + 1, ?_⟩
  have hbound : max (args.length + 5) 10 = bound := by rw [List.length_replicate]
  change _ <:+: replaceArguments args t
  rw [replaceArguments, hbound]
  simp only [hprobe, ha']
  refine ⟨a' ++ (List.replicate (1 + 2 * bound + 1) '%' ++ "%arg1%"),
    replaceDelimited "%arg" "%" (argumentValue? args) r, ?_⟩
  have hdouble : List.replicate (l + l) '!' = List.replicate l '!' ++ List.replicate l '!' :=
    List.replicate_append_replicate.symm
  simp only [probe, hdouble, List.replicate_zero, List.nil_append, List.append_assoc]

/-- A template does with all arguments what it does with words that stand for them just if it holds no placeholder for
several of them. -/
theorem replaceArguments_eq_fillWords_iff (h : Fresh words t) :
    (∀ args, args.length = words.length →
      replaceArguments args t = fillWords (words.zip args) (replaceArguments words t)) ↔
    ¬ HoldsSeveral words.length t := by
  refine ⟨fun hfill hseveral => ?_, fun hseveral args hlen => replaceArguments_eq_fillWords h hlen hseveral⟩
  -- longer than all that stands around values
  obtain ⟨m, hrun⟩ := exists_double_run hseveral (Nat.succ_ne_zero (replaceArguments words t).length)
  rw [hfill _ List.length_replicate] at hrun
  have hpairs : ∀ p ∈ words.zip (List.replicate words.length (probe m ((replaceArguments words t).length + 1))),
      p.2 = List.replicate m '%' ++ "%arg1" ++ '%' :: List.replicate ((replaceArguments words t).length + 1) '!' := by
    intro p hp
    rw [List.eq_of_mem_replicate (List.of_mem_zip hp).2]
    simp [probe]
  have hmark : '!' ∉ List.replicate m '%' ++ "%arg1" := by
    simp
  have hle := (runsLe_fillFrom hmark (by decide) hpairs 0 (replaceArguments words t)).within _ hrun
  omega

/-- Single arguments, one of them with a default. -/
theorem replaceArguments_eq_fillWords_single :
    let t : Text := "%arg1%, %arg2|none%"
    Fresh ["x", "y"] t ∧ ∀ args, args.length = 2 →
      replaceArguments args t = fillWords (List.zip ["x", "y"] args) (replaceArguments ["x", "y"] t) := by
  intro t
  have h : Fresh ["x", "y"] t := ⟨by simp [t], by decide⟩
  have hforeign {u : Text} {c : Char} (hu : c ∈ u) (hc : c ∉ t) : ¬ u <:+: t := fun hu' => hc (hu'.subset hu)
  refine ⟨h, (replaceArguments_eq_fillWords_iff h).2 ?_⟩
  rintro (⟨-, hinfix⟩ | ⟨k, -, -, hinfix | ⟨a, b, hab, -⟩⟩)
  · exact hforeign (c := 's') (by decide) (by decide) hinfix
  · exact hforeign (c := '-') (by simp) (by decide) hinfix
  · exact hforeign (c := '-') (u := "%arg" ++ natText k ++ "-::") (by simp) (by decide) ⟨a, b, by simp [hab]⟩

/-- The first of all arguments is read again, and makes way for the second. -/
theorem replaceArguments_ne_fillWords :
    let t : Text := "%args%"
    let args : List Text := ["%arg2%", "two"]
    Fresh ["x", "y"] t ∧ replaceArguments args t = "two two" ∧
      replaceArguments args t ≠ fillWords (List.zip ["x", "y"] args) (replaceArguments ["x", "y"] t) := by
  intro t args
  exact ⟨⟨by simp [t], by decide⟩, by decide +kernel, by decide +kernel⟩

end DirectiveEngine
