import DirectiveEngine.Proofs.Template.Percent
import DirectiveEngine.Proofs.Template.Placeholder

/-!
# Passes

Each pass gives the placeholders of certain ranks their values and keeps those of higher rank (`Pass`), whatever text
stands around them, as long as no closing percent sign opens a span.  Passes of adjacent ranks make one pass
(`Pass.comp`), so the passes that do not act on the host are one.
-/

namespace DirectiveEngine

variable {s : Scene} {i j k : Nat} {P Q : Text → Text} {o new : Text} {f : Text → Option Text} {value : Text → Text}

/-- Text without percent signs stays, and of the placeholders from rank `i` on those below rank `j` are replaced. -/
structure Pass (s : Scene) (i j : Nat) (P : Text → Text) : Prop where
  nil : P [] = []
  append : ∀ {a t}, '%' ∉ a → P (a ++ t) = a ++ P t
  placeholder : ∀ {x rest}, s.Admits x → i ≤ x.rank → Follows rest →
    P (x.written ++ rest) = (if x.rank < j then s.value x else x.written) ++ P rest

namespace Pass

theorem follows {t : Text} (h : Pass s i j P) (ht : Follows t) : Follows (P t) := by
  rcases ht with ht | ht
  · obtain ⟨r, rfl⟩ := List.head?_eq_some_iff.1 ht
    have := h.append (a := [' ']) (t := r) (by decide)
    exact .inl (by rw [show ' ' :: r = [' '] ++ r from rfl, this]; rfl)
  · have := h.append (t := []) ht
    rw [h.nil, List.append_nil] at this
    exact .inr (by rwa [this])

theorem comp (hs : s.IsPlain) (h : Pass s i j P) (h' : Pass s j k Q) (hjk : j ≤ k) : Pass s i k (Q ∘ P) where
  nil := by rw [Function.comp, h.nil, h'.nil]
  append ha := by rw [Function.comp, h.append ha, h'.append ha]; rfl
  placeholder {x rest} hx hrank hrest := by
    have hvalue : '%' ∉ s.value x := (s.isListing_value hs hx).not_mem (by decide)
    rw [Function.comp, h.placeholder hx hrank hrest]
    by_cases hlt : x.rank < j
    · rw [if_pos hlt, if_pos (by omega), h'.append hvalue]
      rfl
    · rw [if_neg hlt, h'.placeholder hx (by omega) (h.follows hrest)]
      rfl

/-! ### Single passes -/

private theorem eq_word_of_shape {x : Placeholder} {w : Word} (h : x.shape = .word w) : x = .word w := by
  cases x <;> simp_all [Placeholder.shape]

private theorem eq_argument_of_shape {x : Placeholder} (h : x.shape = .argument 0) : ∃ n, x = .argument n := by
  cases x <;> simp_all [Placeholder.shape]

private theorem eq_reference_of_shape {x : Placeholder} (h : x.shape = .reference []) : ∃ k, x = .reference k := by
  cases x <;> simp_all [Placeholder.shape]

private theorem eq_members_of_shape {x : Placeholder} {ids : Bool} (h : x.shape = .members ids []) :
    ∃ team, x = .members ids team := by
  cases x <;> simp_all [Placeholder.shape]

private theorem eq_membersOf_of_shape {x : Placeholder} {ids : Bool} (h : x.shape = .membersOf ids []) :
    ∃ k, x = .membersOf ids k := by
  cases x <;> simp_all [Placeholder.shape]

private theorem spans_eq_cons (bs : List Text) (rest : Text) :
    ∃ r, bs.flatMap ('%' :: ·) ++ '%' :: rest = '%' :: r := by
  cases bs with
  | nil => exact ⟨rest, rfl⟩
  | cons b bs => exact ⟨_, rfl⟩

private theorem eq_named_of_shape {x : Placeholder} (h : x.shape = .named []) : ∃ k, x = .named k := by
  cases x <;> simp_all [Placeholder.shape]

/-- A placeholder stays if the pass goes over each of its spans and over the closing sign. -/
private theorem kept {x : Placeholder} {rest : Text}
    (hspan : ∀ b ∈ x.spans, ∀ rest, P ('%' :: (b ++ '%' :: rest)) = '%' :: (b ++ P ('%' :: rest)))
    (hclosing : P ('%' :: rest) = '%' :: P rest) : P (x.written ++ rest) = x.written ++ P rest := by
  unfold Placeholder.written
  generalize x.spans = bs at hspan
  induction bs with
  | nil => exact hclosing
  | cons b bs ih =>
    obtain ⟨r, hr⟩ := spans_eq_cons bs rest
    have ih := ih fun b hb => hspan b (List.mem_cons_of_mem _ hb)
    have hb := hspan b List.mem_cons_self r
    simp only [List.flatMap_cons, List.append_assoc, List.cons_append, List.nil_append] at ih hr hb ⊢
    rw [hr, hb, ← hr, ih]

theorem replaceAll (ho : '%' ∉ o) (hblank : o.head? ≠ some ' ') (hne : o ≠ [])
    (h : ∀ x, s.Admits x → i ≤ x.rank →
      x.spans = [o] ∧ x.rank < j ∧ new = s.value x ∨ o ∉ x.spans ∧ j ≤ x.rank) :
    Pass s i j (Text.replaceAll ('%' :: (o ++ ['%'])) new) where
  nil := Text.replaceAll_nil _ _
  append ha := Text.replaceAll_append ha _ _ _
  placeholder {x rest} hx hrank hrest := by
    rcases h x hx hrank with ⟨hspans, hlt, rfl⟩ | ⟨hspans, hge⟩
    · rw [if_pos hlt, Placeholder.written, hspans]
      simpa using replaceAll_span_self
    · rw [if_neg (by omega)]
      refine kept (fun b hb rest => replaceAll_span (percent_not_mem_spans hx b hb) ho ?_)
        (replaceAll_closing (hrest.opensNone hblank hne))
      rintro rfl
      exact hspans hb

theorem replaceDelimited (ho : '%' ∉ o) (hblank : o.head? ≠ some ' ') (hne : o ≠ [])
    (h : ∀ x, s.Admits x → i ≤ x.rank →
      (∃ inner, x.spans = [o ++ inner] ∧ x.rank < j ∧ f inner = some (s.value x)) ∨
        (∀ b ∈ x.spans, ∀ inner, b = o ++ inner → f inner = none) ∧ j ≤ x.rank) :
    Pass s i j (DirectiveEngine.replaceDelimited ('%' :: o) ['%'] f) where
  nil := replaceDelimited_of_none (Text.splitFirst?_nil (by simp))
  append ha := replaceDelimited_append ha
  placeholder {x rest} hx hrank hrest := by
    rcases h x hx hrank with ⟨inner, hspans, hlt, hf⟩ | ⟨hspans, hge⟩
    · have hinner : '%' ∉ inner := fun hc => percent_not_mem_spans hx (o ++ inner) (by simp [hspans]) (by simp [hc])
      rw [if_pos hlt, Placeholder.written, hspans]
      simpa using replaceDelimited_span_self (o := o) hinner hf rest
    · rw [if_neg (by omega)]
      exact kept (fun b hb rest => replaceDelimited_span (percent_not_mem_spans hx b hb) ho (hspans b hb))
        (replaceDelimited_closing (hrest.opensNone hblank hne))

theorem replaceNested (ho : '%' ∉ o) (hblank : o.head? ≠ some ' ') (hne : o ≠ [])
    (h : ∀ x, s.Admits x → i ≤ x.rank →
      (∃ name, x.spans = [o, name, []] ∧ x.rank < j ∧ value name = s.value x) ∨ o ∉ x.spans ∧ j ≤ x.rank) :
    Pass s i j (DirectiveEngine.replaceNested ('%' :: o) value) where
  nil := replaceNested_of_none (Text.splitFirst?_nil (by simp))
  append ha := replaceNested_append ha
  placeholder {x rest} hx hrank hrest := by
    rcases h x hx hrank with ⟨name, hspans, hlt, hvalue⟩ | ⟨hspans, hge⟩
    · have hname : '%' ∉ name := percent_not_mem_spans hx name (by simp [hspans])
      rw [if_pos hlt, Placeholder.written, hspans, ← hvalue]
      simpa using replaceNested_span_self (o := o) hname value rest
    · rw [if_neg (by omega)]
      refine kept (fun b hb rest => replaceNested_span (percent_not_mem_spans hx b hb) ho ?_)
        (replaceNested_closing (hrest.opensNone hblank hne))
      rintro rfl
      exact hspans hb

/-- The pass of one word. -/
theorem word (w : Word) (h : new = s.wordValue w) (hi : (Placeholder.word w).rank = i) :
    Pass s i (i + 1) (Text.replaceAll ('%' :: (w.name ++ ['%'])) new) := by
  obtain ⟨hplain, hblank, hne⟩ := isPlain_builtin w.name w.name_mem_builtin
  refine replaceAll (hplain.not_mem (by decide)) hblank hne fun x hx hrank => ?_
  by_cases hxw : x = .word w
  · subst hxw
    exact .inl ⟨rfl, by omega, h⟩
  · right
    have hother : w.name ∉ x.spans := by
      intro hmem
      obtain ⟨v, rfl⟩ := eq_word_of_mem_spans hx w.name_mem_builtin hmem
      exact hxw (by rw [Word.name_injective (List.mem_singleton.1 hmem)])
    refine ⟨hother, Nat.lt_of_le_of_ne hrank fun heq => hxw ?_⟩
    exact eq_word_of_shape (Placeholder.shape_eq_of_rank (heq.symm.trans hi.symm))

/-- A further name of a fact stands in no placeholder. -/
theorem unused (ho : o ∈ factNames) (new : Text) : Pass s i i (Text.replaceAll ('%' :: (o ++ ['%'])) new) := by
  obtain ⟨hbuiltin, hword⟩ := factNames_builtin o ho
  obtain ⟨hplain, hblank, hne⟩ := isPlain_builtin o hbuiltin
  refine replaceAll (hplain.not_mem (by decide)) hblank hne fun x hx hrank => .inr ⟨fun hmem => ?_, hrank⟩
  obtain ⟨w, rfl⟩ := eq_word_of_mem_spans hx hbuiltin hmem
  exact hword w w.mem_all (List.mem_singleton.1 hmem)

/-! ### Arguments -/

/-- No placeholder is a tail of arguments. -/
private theorem tail_not_mem_spans {x : Placeholder} (hx : s.Admits x) {n : Nat} {r : Text} :
    "arg" ++ (natText n ++ '-' :: r) ∉ x.spans := by
  intro hmem
  rcases eq_argument_of_mem_spans hx hmem with ⟨-, h⟩ | ⟨m, -, h⟩
  · have hlen := congrArg List.length h
    have hpos := List.length_pos_iff.2 (natText_ne_nil n)
    simp at hlen
    omega
  · have hmem' : '-' ∈ natText m := by
      rw [← h]
      simp
    exact absurd (isDigit_of_mem_natText hmem') (by decide)

private theorem replaceTail (hs : s.IsPlain) (n : Nat) :
    Pass s 1 1 fun t => DirectiveEngine.replaceTail s.args t n := by
  have hname : '%' ∉ natText n := not_mem_natText (by decide)
  simp only [replaceTail_eq]
  refine comp hs (replaceDelimited (j := 1) ?_ ?_ ?_ fun x hx hrank => .inr ⟨?_, hrank⟩)
    (replaceAll ?_ ?_ ?_ fun x hx hrank => .inr ⟨?_, hrank⟩) (by omega)
  · simp [hname]
  · simp
  · simp
  · rintro b hb inner rfl
    exact absurd (by simpa using hb) (tail_not_mem_spans (n := n) (r := ':' :: ':' :: inner) hx)
  · simp [hname]
  · simp
  · simp
  · exact tail_not_mem_spans (r := []) hx

private theorem argumentValue?_natText {n : Nat} (hn : s.Admits (.argument n)) :
    argumentValue? s.args (natText n) = some (s.value (.argument n)) := by
  obtain ⟨hpos, hlen, hmax⟩ := hn
  rw [argumentValue?_of_not_mem (not_mem_natText (by decide)) (not_mem_natText (by decide)),
    argument?_natText hpos hmax, List.getElem?_eq_getElem (by omega)]
  simp [Scene.value, List.getElem?_eq_getElem (by omega : n - 1 < s.args.length)]

private theorem argument :
    Pass s 1 2 (DirectiveEngine.replaceDelimited "%arg" "%" (argumentValue? s.args)) := by
  refine replaceDelimited (o := "arg") (by decide) (by decide) (by decide) fun x hx hrank => ?_
  by_cases hxa : ∃ n, x = .argument n
  · obtain ⟨n, rfl⟩ := hxa
    exact .inl ⟨natText n, rfl, Nat.one_lt_two, argumentValue?_natText hx⟩
  · refine .inr ⟨fun b hb inner hinner => ?_, ?_⟩
    · subst hinner
      rcases eq_argument_of_mem_spans hx hb with ⟨rfl, -⟩ | ⟨n, rfl, -⟩
      · exact absurd hrank (by decide)
      · exact absurd ⟨n, rfl⟩ hxa
    · refine Nat.lt_of_le_of_ne hrank fun heq => hxa ?_
      exact eq_argument_of_shape (Placeholder.shape_eq_of_rank (y := .argument 0) heq.symm)

theorem arguments (hs : s.IsPlain) : Pass s 0 2 (replaceArguments s.args) := by
  have htails : ∀ ns : List Nat, Pass s 1 1 fun t => ns.foldl (DirectiveEngine.replaceTail s.args) t := by
    intro ns
    induction ns with
    | nil => exact ⟨rfl, fun _ => rfl, fun _ hrank _ => by rw [if_neg (by omega)]; rfl⟩
    | cons n ns ih => exact (replaceTail hs n).comp hs ih (by omega)
  exact ((word (i := 0) .args rfl rfl).comp hs (htails _) (by omega)).comp hs argument (by omega)

/-! ### The actor and the variables -/

theorem actorTokens (hs : s.IsPlain) : Pass s 2 8 (replaceActorTokens s.snapshot) := by
  have hname := (word (s := s) (i := 2) .player rfl rfl).comp hs (word (i := 3) .uuid rfl rfl) (by omega)
  have hid := hname.comp hs (word (i := 4) .playerUuid rfl rfl) (by omega)
  have hworld := hid.comp hs (word (i := 5) .world rfl rfl) (by omega)
  have hx := hworld.comp hs (unused (o := "x") (by decide) (intText (Snapshot.block s.snapshot.x))) (by omega)
  have hy := hx.comp hs (unused (o := "y") (by decide) (intText (Snapshot.block s.snapshot.y))) (by omega)
  have hz := hy.comp hs (unused (o := "z") (by decide) (intText (Snapshot.block s.snapshot.z))) (by omega)
  have hhealth :=
    hz.comp hs (unused (o := "health") (by decide) (Decimal.withFraction s.snapshot.health)) (by omega)
  have hlevel := hhealth.comp hs (word (i := 6) .level rfl rfl) (by omega)
  exact hlevel.comp hs (word (i := 7) .gamemode rfl rfl) (by omega)

theorem references : Pass s 8 9 (replaceVariableTokens s.store s.actor) := by
  refine replaceDelimited (o := "var:") (by decide) (by decide) (by decide) fun x hx hrank => ?_
  by_cases hxr : ∃ k, x = .reference k
  · obtain ⟨k, rfl⟩ := hxr
    exact .inl ⟨k, rfl, Nat.lt_succ_self 8, rfl⟩
  · refine .inr ⟨fun b hb inner hinner => ?_, ?_⟩
    · subst hinner
      exact absurd ⟨inner, eq_reference_of_mem_spans hx hb⟩ hxr
    · refine Nat.lt_of_le_of_ne hrank fun heq => hxr ?_
      exact eq_reference_of_shape (Placeholder.shape_eq_of_rank (y := .reference []) heq.symm)

/-! ### The server -/

private theorem memberList_start (ids : Bool) :
    '%' ∉ memberList ids ∧ (memberList ids).head? ≠ some ' ' ∧ memberList ids ≠ [] := by
  cases ids <;> decide

/-- The lists of members of teams that variables name. -/
private theorem membersOf (ids : Bool) (hi : (Placeholder.membersOf ids []).rank = i) :
    Pass s i (i + 1)
      (DirectiveEngine.replaceNested ('%' :: memberList ids) fun name =>
        teamMembers s.server (s.render ids) (s.inner name)) := by
  obtain ⟨hsign, hblank, hne⟩ := memberList_start ids
  refine replaceNested hsign hblank hne fun x hx hrank => ?_
  by_cases hxm : ∃ k, x = .membersOf ids k
  · obtain ⟨k, rfl⟩ := hxm
    refine .inl ⟨k, rfl, ?_, rfl⟩
    cases ids <;> exact hi ▸ Nat.lt_succ_self _
  · refine .inr ⟨fun hmem => ?_, ?_⟩
    · rcases eq_members_of_mem_spans (r := []) hx (by simpa using hmem) with rfl | ⟨h, -⟩
      · exact hx.2 rfl
      · exact hxm h
    · refine Nat.lt_of_le_of_ne hrank fun heq => hxm ?_
      exact eq_membersOf_of_shape (Placeholder.shape_eq_of_rank (heq.symm.trans hi.symm))

/-- The lists of members of teams. -/
private theorem members (ids : Bool) (hi : (Placeholder.members ids []).rank = i) :
    Pass s i (i + 1)
      (DirectiveEngine.replaceDelimited ('%' :: memberList ids) ['%'] fun name =>
        some (teamMembers s.server (s.render ids) name)) := by
  obtain ⟨hsign, hblank, hne⟩ := memberList_start ids
  refine replaceDelimited hsign hblank hne fun x hx hrank => ?_
  by_cases hxm : ∃ team, x = .members ids team
  · obtain ⟨team, rfl⟩ := hxm
    refine .inl ⟨team, rfl, ?_, rfl⟩
    cases ids <;> exact hi ▸ Nat.lt_succ_self _
  · refine .inr ⟨fun b hb inner hinner => ?_, ?_⟩
    · subst hinner
      rcases eq_members_of_mem_spans hx hb with rfl | ⟨⟨k, rfl⟩, -⟩
      · exact absurd ⟨inner, rfl⟩ hxm
      · -- such a list has been replaced before
        cases ids <;> simp only [Placeholder.rank] at hi hrank <;> omega
    · refine Nat.lt_of_le_of_ne hrank fun heq => hxm ?_
      exact eq_members_of_shape (Placeholder.shape_eq_of_rank (heq.symm.trans hi.symm))

theorem server (hs : s.IsPlain) : Pass s 9 17 (replaceServerTokens s.server s.inner) := by
  have hids := (word (s := s) (i := 9) .players rfl rfl).comp hs (word (i := 10) .playersUuid rfl rfl) (by omega)
  have hcount := hids.comp hs (word (i := 11) .playerCount rfl rfl) (by omega)
  have hteams := hcount.comp hs (word (i := 12) .teams rfl rfl) (by omega)
  have hnames := (membersOf (s := s) (i := 13) false rfl).comp hs (members (i := 14) false rfl) (by omega)
  have hmembers := (membersOf (s := s) (i := 15) true rfl).comp hs (members (i := 16) true rfl) (by omega)
  have hall := (hteams.comp hs hnames (by omega)).comp hs hmembers (by omega)
  exact hall

/-! ### Names of variables -/

theorem names : Pass s 17 18 (replaceImplicitVariables s.store s.actor) where
  nil := replaceImplicitVariables_of_none rfl
  append ha := replaceImplicitVariables_append ha
  placeholder {x rest} hx hrank hrest := by
    obtain ⟨k, rfl⟩ : ∃ k, x = .named k :=
      eq_named_of_shape (Placeholder.shape_eq_of_rank (y := .named []) (Nat.le_antisymm x.rank_le hrank))
    have himplicit : implicitValue s.store s.actor k = s.store.resolve s.actor k := if_pos hx.1.implicit
    have hk : '%' ∉ k := percent_not_mem_spans hx k List.mem_cons_self
    have hspan : replaceImplicitVariables s.store s.actor ('%' :: (k ++ '%' :: rest)) =
        s.store.resolve s.actor k ++ replaceImplicitVariables s.store s.actor rest := by
      rw [← himplicit]
      exact replaceImplicitVariables_span hk (himplicit ▸ hx.2)
    simpa [Placeholder.written, Placeholder.spans, Placeholder.rank, Scene.value] using hspan

end Pass

end DirectiveEngine
