import DirectiveEngine.Proofs.Arithmetic.Error
import DirectiveEngine.Proofs.Template.Delimited
import DirectiveEngine.Proofs.Template.Glyph
import DirectiveEngine.Template.Math
import Mathlib.Data.List.Induction

/-!
# Restoring escapes

The sentinels are replaced one kind after the other, the last kind first.  That gives a spelled text its meaning
unless the name of an escape stands between two sentinels that are still there when its turn comes (`Misread`):
then the NUL characters around it are taken for its own, and halves of the two sentinels stay for good
(`restore_spell`).
-/

namespace DirectiveEngine

variable {g g' : List Glyph} {e : Escape} {es : List Escape} {t : Text}

/-! ### Names and meanings -/

theorem nul_not_mem_name : ∀ e ∈ escapes, '\x00' ∉ e.name := by
  decide

theorem isBounded_meaning : ∀ e ∈ escapes, isBounded e.meaning = true ∧ '\x00' ∉ e.meaning := by
  decide

theorem escapes_pairwise : escapes.Pairwise fun e e' => e.name ≠ e'.name := by
  decide

private theorem eq_concat_of_isBounded (h : isBounded t = true) : ∃ u c, t = u ++ [c] ∧ isMark c = true := by
  obtain ⟨c, hc, hmark⟩ := (Option.any_eq_true _ _).1 (Bool.and_eq_true_iff.1 h).2
  obtain ⟨u, hu⟩ := List.getLast?_eq_some_iff.1 hc
  exact ⟨u, c, hu, hmark⟩

/-- Restores some kinds of escapes, the last kind first. -/
def restoreBy (es : List Escape) (t : Text) : Text :=
  es.foldr (fun e t => Text.replaceAll e.sentinel e.meaning t) t

theorem restoreBy_concat (es : List Escape) (e : Escape) (t : Text) :
    restoreBy (es ++ [e]) t = restoreBy es (Text.replaceAll e.sentinel e.meaning t) := by
  simp [restoreBy]

/-- The name of an escape stands between the sentinels of two others that are not restored before it. -/
def MisreadBy (es : List Escape) (g : List Glyph) : Prop :=
  ∃ xs e ys a b l r, es = xs ++ e :: ys ∧ a ∈ xs ∧ b ∈ xs ++ [e] ∧
    g = l ++ .escape a :: (e.name.map .char ++ .escape b :: r)

def Misread (g : List Glyph) : Prop :=
  MisreadBy escapes g

/-! ### Unpaired NUL characters -/

/-- Behind some mark the number of NUL characters is odd. -/
def Unpaired (t : Text) : Prop :=
  ∃ u c v, t = u ++ c :: v ∧ isMark c = true ∧ v.count '\x00' % 2 = 1

theorem Unpaired.append (u : Text) (h : Unpaired t) : Unpaired (u ++ t) := by
  obtain ⟨u', c, v, rfl, hc, hv⟩ := h
  exact ⟨u ++ u', c, v, by simp, hc, hv⟩

theorem Unpaired.nul_mem (h : Unpaired t) : '\x00' ∈ t := by
  obtain ⟨u, c, v, rfl, -, hv⟩ := h
  have hpos : 0 < v.count '\x00' := by omega
  simp [List.count_pos_iff.1 hpos]

private theorem count_replaceAll {old new : Text} (hold : old.count '\x00' % 2 = 0)
    (hnew : new.count '\x00' % 2 = 0) (t : Text) : (Text.replaceAll old new t).count '\x00' % 2 = t.count '\x00' % 2 := by
  fun_induction Text.replaceAll old new t with
  | case1 => rfl
  | case2 => rfl
  | case3 t hne a b hs ih =>
    rw [Text.eq_of_splitFirst? hs]
    simp only [List.count_append]
    omega

private theorem count_sentinel : ∀ e ∈ escapes, e.sentinel.count '\x00' = 2 := by
  decide

private theorem count_meaning (he : e ∈ escapes) : e.meaning.count '\x00' = 0 :=
  List.count_eq_zero.2 (isBounded_meaning e he).2

private theorem count_spell {p : Escape → Prop} (hg : ∀ x ∈ g, x.Valid p) : (spell g).count '\x00' % 2 = 0 := by
  induction g with
  | nil => rfl
  | cons x g ih =>
    have ih := ih fun y hy => hg y (List.mem_cons_of_mem _ hy)
    rw [spell_cons, List.count_append]
    cases x with
    | char c =>
      have hc : c ≠ '\x00' := hg _ List.mem_cons_self
      simp [Glyph.spell, hc, ih]
    | escape e =>
      have he := count_sentinel e (hg _ List.mem_cons_self).1
      simp only [Glyph.spell]
      omega

theorem Unpaired.replaceAll (he : e ∈ escapes) (h : Unpaired t) :
    Unpaired (Text.replaceAll e.sentinel e.meaning t) := by
  obtain ⟨u, c, v, rfl, hc, hv⟩ := h
  have hc' : c ∉ e.sentinel := fun hmem => by
    rw [not_isMark_of_mem_sentinel e he c hmem] at hc
    exact absurd hc (by decide)
  refine ⟨_, c, _, Text.replaceAll_append_cons hc' u v, hc, ?_⟩
  rw [count_replaceAll (by rw [count_sentinel e he]) (by rw [count_meaning he]), hv]

theorem Unpaired.restoreBy (hes : ∀ e ∈ es, e ∈ escapes) (h : Unpaired t) : Unpaired (restoreBy es t) := by
  induction es with
  | nil => exact h
  | cons e es ih => exact (ih fun a ha => hes a (List.mem_cons_of_mem _ ha)).replaceAll (hes e List.mem_cons_self)

/-! ### One kind of escape -/

/-- The glyphs after one kind of escape has been restored. -/
def Glyph.settle (e : Escape) : Glyph → List Glyph
  | char c => [char c]
  | escape a => if a.name = e.name then e.meaning.map char else [escape a]

/-- The name of an escape follows the sentinel of another kind. -/
def Crosses (e : Escape) (g : List Glyph) : Prop :=
  ∃ a b l r, a.name ≠ e.name ∧ g = l ++ .escape a :: (e.name.map .char ++ .escape b :: r)

/-- Only a sentinel of another kind adds a crossing, and only in front of the name. -/
private theorem crosses_cons {x : Glyph}
    (hx : ∀ a b r, x = .escape a → a.name ≠ e.name → g ≠ e.name.map .char ++ .escape b :: r) :
    Crosses e (x :: g) ↔ Crosses e g := by
  constructor
  · rintro ⟨a, b, l, r, hne, hg⟩
    cases l with
    | nil =>
      obtain ⟨hxa, hgr⟩ := List.cons_eq_cons.1 hg
      exact absurd hgr (hx a b r hxa hne)
    | cons y l => exact ⟨a, b, l, r, hne, (List.cons_eq_cons.1 hg).2⟩
  · rintro ⟨a, b, l, r, hne, rfl⟩
    exact ⟨a, b, x :: l, r, hne, rfl⟩

private theorem spell_eq_nul {p : Escape → Prop} (hg : ∀ x ∈ g, x.Valid p) {s rest : Text} (hs : '\x00' ∉ s)
    (h : spell g = s ++ '\x00' :: rest) :
    ∃ b r, g = s.map .char ++ .escape b :: r ∧ rest = b.name ++ '\x00' :: spell r := by
  induction s generalizing g with
  | nil =>
    cases g with
    | nil => simp at h
    | cons x g =>
      have hx := hg x List.mem_cons_self
      cases x with
      | char c => exact absurd (List.cons_eq_cons.1 h).1 hx
      | escape b =>
        rw [spell_cons, Glyph.spell, sentinel_eq b hx.1] at h
        exact ⟨b, g, rfl, by simpa using h.symm⟩
  | cons c s ih =>
    cases g with
    | nil => simp at h
    | cons x g =>
      have hx := hg x List.mem_cons_self
      cases x with
      | char d =>
        obtain ⟨hd, h'⟩ := List.cons_eq_cons.1 h
        obtain ⟨b, r, rfl, hr⟩ :=
          ih (fun y hy => hg y (List.mem_cons_of_mem _ hy)) (List.not_mem_of_not_mem_cons hs) h'
        exact ⟨b, r, by rw [hd]; rfl, hr⟩
      | escape b =>
        rw [spell_cons, Glyph.spell, sentinel_eq b hx.1] at h
        exact absurd (List.cons_eq_cons.1 h).1 (List.ne_of_not_mem_cons hs)

/-- A sentinel of another kind stays, up to its second NUL at least. -/
private theorem replaceAll_sentinel {a : Escape} (he : e ∈ escapes) (ha : a ∈ escapes) (hne : a.name ≠ e.name)
    (new rest : Text) :
    Text.replaceAll e.sentinel new (a.sentinel ++ rest) =
      '\x00' :: a.name ++ Text.replaceAll e.sentinel new ('\x00' :: rest) := by
  have hfirst : ¬ e.sentinel <+: '\x00' :: (a.name ++ '\x00' :: rest) := by
    rw [sentinel_eq e he]
    intro h
    have h' := (List.cons_prefix_cons.1 h).2
    exact hne (Text.eq_of_prefix_append_cons (nul_not_mem_name e he) (nul_not_mem_name a ha) h').symm
  have hshape : a.sentinel ++ rest = '\x00' :: (a.name ++ '\x00' :: rest) := by
    rw [sentinel_eq a ha]
    simp
  rw [hshape, Text.replaceAll_cons hfirst, sentinel_eq e he]
  exact congrArg _ (Text.replaceAll_append (nul_not_mem_name a ha) _ _ _)

/-- A sentinel of another kind in front of the name: the two share a NUL character. -/
private theorem unpaired_of_name (he : e ∈ escapes) {a : Escape} (ha : a ∈ escapes) (hne : a.name ≠ e.name)
    {p : Escape → Prop} (hg : ∀ x ∈ g, x.Valid p) {rest : Text} (hname : spell g = e.name ++ '\x00' :: rest) :
    Unpaired (Text.replaceAll e.sentinel e.meaning (spell (.escape a :: g))) := by
  obtain ⟨m, c, hm, hc⟩ := eq_concat_of_isBounded (isBounded_meaning e he).1
  have hshared : '\x00' :: spell g = e.sentinel ++ rest := by
    rw [hname, sentinel_eq e he]
    simp
  have hpass : Text.replaceAll e.sentinel e.meaning (spell (.escape a :: g)) =
      ('\x00' :: a.name ++ m) ++ c :: Text.replaceAll e.sentinel e.meaning rest := by
    rw [spell_cons, Glyph.spell, replaceAll_sentinel he ha hne, hshared,
      Text.replaceAll_append_self (by simp [sentinel_eq e he]), hm]
    simp
  refine ⟨_, c, _, hpass, hc, ?_⟩
  -- the NUL characters of `spell g` come in pairs, and the shared one is cut off
  have heven := count_spell hg
  rw [hname, List.count_append, List.count_eq_zero.2 (nul_not_mem_name e he), List.count_cons_self] at heven
  rw [count_replaceAll (by rw [count_sentinel e he]) (by rw [count_meaning he])]
  omega

/-- A glyph settles by itself, unless it is a sentinel of another kind in front of the name. -/
private theorem replaceAll_spell_cons (he : e ∈ escapes) {p : Escape → Prop} {x : Glyph} (hx : x.Valid p)
    (hmeet : ∀ a, x = .escape a → a.name ≠ e.name → ¬ e.sentinel <+: '\x00' :: spell g) :
    Text.replaceAll e.sentinel e.meaning (spell (x :: g)) =
      spell (x.settle e) ++ Text.replaceAll e.sentinel e.meaning (spell g) := by
  cases x with
  | char c =>
    have hc : ¬ e.sentinel <+: c :: spell g := by
      rw [sentinel_eq e he]
      exact fun h => hx (List.cons_prefix_cons.1 h).1.symm
    exact Text.replaceAll_cons hc
  | escape a =>
    by_cases hname : a.name = e.name
    · have hs : a.sentinel = e.sentinel := by rw [sentinel_eq a hx.1, sentinel_eq e he, hname]
      rw [spell_cons, Glyph.spell, hs, Glyph.settle, if_pos hname, spell_map_char]
      exact Text.replaceAll_append_self (by simp [sentinel_eq e he]) _
    · rw [spell_cons, Glyph.spell, replaceAll_sentinel he hx.1 hname, Text.replaceAll_cons (hmeet a rfl hname),
        Glyph.settle, if_neg hname]
      simp [Glyph.spell, sentinel_eq a hx.1]

/-- Restoring one kind of escape settles its glyphs, if its name does not follow another sentinel. -/
private theorem replaceAll_spell (he : e ∈ escapes) {p : Escape → Prop} (hg : ∀ x ∈ g, x.Valid p) :
    ¬ Crosses e g ∧ Text.replaceAll e.sentinel e.meaning (spell g) = spell (g.flatMap (Glyph.settle e)) ∨
      Crosses e g ∧ Unpaired (Text.replaceAll e.sentinel e.meaning (spell g)) := by
  induction g with
  | nil => exact .inl ⟨by rintro ⟨a, b, l, r, -, h⟩; simp at h, Text.replaceAll_nil _ _⟩
  | cons x g ih =>
    have hg' : ∀ y ∈ g, y.Valid p := fun y hy => hg y (List.mem_cons_of_mem _ hy)
    have hx := hg x List.mem_cons_self
    by_cases hmeet : ∃ a, x = .escape a ∧ a.name ≠ e.name ∧ e.sentinel <+: '\x00' :: spell g
    · obtain ⟨a, rfl, hne, rest, hrest⟩ := hmeet
      have hname : spell g = e.name ++ '\x00' :: rest := by
        rw [sentinel_eq e he] at hrest
        simpa using hrest.symm
      obtain ⟨b, r, hgr, -⟩ := spell_eq_nul hg' (nul_not_mem_name e he) hname
      exact .inr ⟨⟨a, b, [], r, hne, by rw [hgr]; rfl⟩, unpaired_of_name he hx.1 hne hg' hname⟩
    · have hcross : Crosses e (x :: g) ↔ Crosses e g := by
        refine crosses_cons fun a b r hxa hne hgr => hmeet ⟨a, hxa, hne, b.name ++ '\x00' :: spell r, ?_⟩
        have hb := (hg' (.escape b) (by simp [hgr])).1
        simp [hgr, sentinel_eq e he, Glyph.spell, sentinel_eq b hb]
      have hpass := replaceAll_spell_cons he hx fun a hxa hne h => hmeet ⟨a, hxa, hne, h⟩
      rw [hcross, hpass, List.flatMap_cons, spell_append]
      exact (ih hg').imp (fun h => ⟨h.1, by rw [h.2]⟩) fun h => ⟨h.1, h.2.append _⟩

/-! ### All kinds of escapes -/

private theorem settle_of_eq {a : Escape} (h : a.name = e.name) :
    Glyph.settle e (.escape a) = e.meaning.map .char :=
  if_pos h

private theorem settle_of_ne {a : Escape} (h : a.name ≠ e.name) : Glyph.settle e (.escape a) = [.escape a] :=
  if_neg h

private theorem escape_mem_settle {x : Glyph} {a : Escape} (h : .escape a ∈ x.settle e) :
    x = .escape a ∧ x.settle e = [.escape a] := by
  cases x with
  | char c => simp [Glyph.settle] at h
  | escape a' =>
    by_cases hname : a'.name = e.name
    · rw [settle_of_eq hname] at h
      simp at h
    · rw [settle_of_ne hname] at h ⊢
      simp_all

/-- The sentinels left are those that were there before. -/
private theorem escape_of_flatMap_settle {a : Escape} {l rest : List Glyph}
    (h : g.flatMap (Glyph.settle e) = l ++ .escape a :: rest) :
    ∃ l₀ g₀, g = l₀ ++ .escape a :: g₀ ∧ g₀.flatMap (Glyph.settle e) = rest := by
  induction g generalizing l with
  | nil => simp at h
  | cons x g ih =>
    rw [List.flatMap_cons] at h
    rcases List.append_eq_append_iff.1 h with ⟨l', rfl, hg⟩ | ⟨r, hr, hg⟩
    · obtain ⟨l₀, g₀, rfl, hrest⟩ := ih hg
      exact ⟨x :: l₀, g₀, rfl, hrest⟩
    · cases r with
      | nil =>
        obtain ⟨l₀, g₀, rfl, hrest⟩ := ih (l := []) hg.symm
        exact ⟨x :: l₀, g₀, rfl, hrest⟩
      | cons y r =>
        obtain ⟨rfl, hrest⟩ := List.cons_eq_cons.1 hg
        obtain ⟨rfl, hx⟩ := escape_mem_settle (x := x) (e := e) (a := a) (by simp [hr])
        rw [hx] at hr
        obtain ⟨rfl, hr⟩ | ⟨_, hr⟩ := List.singleton_eq_append_iff.1 hr
        · obtain rfl : [] = r := (List.cons_eq_cons.1 hr).2
          exact ⟨[], g, rfl, hrest.symm⟩
        · simp at hr

private theorem name_of_flatMap_settle (he : e ∈ escapes) {b : Escape} {s : Text} (hs : ∀ c ∈ s, isMark c = false)
    {rest : List Glyph} (h : g.flatMap (Glyph.settle e) = s.map .char ++ .escape b :: rest) :
    ∃ r, g = s.map .char ++ .escape b :: r := by
  obtain ⟨m, hm, hmark⟩ : ∃ m, e.meaning.head? = some m ∧ isMark m = true :=
    (Option.any_eq_true _ _).1 (Bool.and_eq_true_iff.1 (isBounded_meaning e he).1).1
  obtain ⟨ms, hms⟩ := List.head?_eq_some_iff.1 hm
  -- a settled sentinel starts with a mark, which is no character of a name
  have hsettled {a : Escape} (h : a.name = e.name) : Glyph.settle e (.escape a) = .char m :: ms.map .char := by
    rw [settle_of_eq h, hms, List.map_cons]
  induction s generalizing g with
  | nil =>
    cases g with
    | nil => simp at h
    | cons x g =>
      rw [List.flatMap_cons] at h
      cases x with
      | char c => simp [Glyph.settle] at h
      | escape a =>
        by_cases hname : a.name = e.name
        · simp [hsettled hname] at h
        · rw [settle_of_ne hname] at h
          exact ⟨g, by simp_all⟩
  | cons c s ih =>
    have hc := hs c List.mem_cons_self
    cases g with
    | nil => simp at h
    | cons x g =>
      rw [List.flatMap_cons] at h
      cases x with
      | char d =>
        obtain ⟨hd, h'⟩ := List.cons_eq_cons.1 h
        obtain ⟨r, rfl⟩ := ih (fun c hc => hs c (List.mem_cons_of_mem _ hc)) h'
        exact ⟨r, by rw [hd]; rfl⟩
      | escape a =>
        by_cases hname : a.name = e.name
        · rw [hsettled hname] at h
          rw [Glyph.char.inj (List.cons_eq_cons.1 h).1, hc] at hmark
          exact absurd hmark (by decide)
        · simp [settle_of_ne hname] at h

private theorem flatMap_settle_name (s : Text) : (s.map Glyph.char).flatMap (Glyph.settle e) = s.map .char := by
  induction s with
  | nil => rfl
  | cons c s ih => simpa [Glyph.settle] using ih

private theorem misreadBy_concat (he : e ∈ escapes) (hes : ∀ a ∈ es, a ∈ escapes) (hne : ∀ a ∈ es, a.name ≠ e.name)
    (hg : ∀ x ∈ g, x.Valid (· ∈ es ++ [e])) :
    MisreadBy (es ++ [e]) g ↔ Crosses e g ∨ MisreadBy es (g.flatMap (Glyph.settle e)) := by
  constructor
  · rintro ⟨xs, e', ys, a, b, l, r, hsplit, ha, hb, rfl⟩
    -- the kind that is restored now is the misread one, or a later one is
    rcases List.eq_nil_or_concat ys with rfl | ⟨ys, y, rfl⟩
    · obtain ⟨rfl, h⟩ := List.append_inj' hsplit rfl
      obtain rfl : e = e' := by simpa using h
      exact .inl ⟨a, b, l, r, hne a ha, rfl⟩
    · have hsplit' : es ++ [e] = (xs ++ e' :: ys) ++ [y] := by simpa using hsplit
      obtain ⟨rfl, -⟩ := List.append_inj' hsplit' rfl
      right
      refine ⟨xs, e', ys, a, b, l.flatMap (Glyph.settle e), r.flatMap (Glyph.settle e), rfl, ha, hb, ?_⟩
      have ha' := settle_of_ne (hne a (by simp [ha]))
      have hb' : Glyph.settle e (.escape b) = [.escape b] := settle_of_ne (hne b (by
        rcases List.mem_append.1 hb with hb | hb <;> simp_all))
      simp [ha', hb', flatMap_settle_name]
  · rintro (⟨a, b, l, r, hname, rfl⟩ | ⟨xs, e', ys, a, b, l, r, rfl, ha, hb, h⟩)
    · have ha := (hg (.escape a) (by simp)).2
      have hb := (hg (.escape b) (by simp)).2
      refine ⟨es, e, [], a, b, l, r, rfl, ?_, hb, rfl⟩
      rcases List.mem_append.1 ha with ha | ha
      · exact ha
      · exact absurd (by rw [List.mem_singleton.1 ha]) hname
    · obtain ⟨l₀, g₀, rfl, h₀⟩ := escape_of_flatMap_settle h
      have he' : e' ∈ escapes := hes e' (by simp)
      have hmark : ∀ c ∈ e'.name, isMark c = false := fun c hc =>
        not_isMark_of_mem_sentinel e' he' c (by rw [sentinel_eq e' he']; simp [hc])
      obtain ⟨r₀, rfl⟩ := name_of_flatMap_settle he hmark h₀
      exact ⟨xs, e', ys ++ [e], a, b, l₀, r₀, by simp, ha, hb, rfl⟩

private theorem valid_of_mem_settle (he : e ∈ escapes) {x y : Glyph} (hy : y.Valid (· ∈ es ++ [e]))
    (hx : x ∈ y.settle e) : x.Valid (· ∈ es) := by
  cases y with
  | char c =>
    obtain rfl := List.mem_singleton.1 hx
    exact hy
  | escape a =>
    by_cases hname : a.name = e.name
    · rw [settle_of_eq hname] at hx
      obtain ⟨c, hc, rfl⟩ := List.mem_map.1 hx
      rintro rfl
      exact (isBounded_meaning e he).2 hc
    · rw [settle_of_ne hname] at hx
      obtain rfl := List.mem_singleton.1 hx
      refine ⟨hy.1, (List.mem_append.1 hy.2).resolve_right fun h => hname ?_⟩
      rw [List.mem_singleton.1 h]

private theorem meaning_flatMap_settle (hne : ∀ a ∈ es, a.name ≠ e.name) (hg : ∀ x ∈ g, x.Valid (· ∈ es ++ [e])) :
    meaning (g.flatMap (Glyph.settle e)) = meaning g := by
  induction g with
  | nil => rfl
  | cons x g ih =>
    rw [List.flatMap_cons, meaning_append, ih fun y hy => hg y (List.mem_cons_of_mem _ hy), meaning_cons]
    congr 1
    cases x with
    | char c => rfl
    | escape a =>
      by_cases hname : a.name = e.name
      · have ha : a ∈ es ++ [e] := (hg _ List.mem_cons_self).2
        obtain rfl : a = e :=
          List.mem_singleton.1 ((List.mem_append.1 ha).resolve_left fun h => hne a h hname)
        rw [settle_of_eq rfl, meaning_map_char]
        rfl
      · rw [settle_of_ne hname]
        exact List.append_nil _

/-- Restoring gives a spelled text its meaning if it is not misread, and leaves NUL characters in it if it is. -/
theorem restoreBy_spell (hes : ∀ e ∈ es, e ∈ escapes) (hname : es.Pairwise fun e e' => e.name ≠ e'.name)
    (hg : ∀ x ∈ g, x.Valid (· ∈ es)) :
    ¬ MisreadBy es g ∧ restoreBy es (spell g) = meaning g ∨ MisreadBy es g ∧ Unpaired (restoreBy es (spell g)) := by
  induction es using List.reverseRecOn generalizing g with
  | nil =>
    refine .inl ⟨by rintro ⟨xs, e, ys, a, b, l, r, h, -⟩; simp at h, ?_⟩
    exact spell_eq_meaning fun a ha => List.not_mem_nil (hg _ ha).2
  | append_singleton es e ih =>
    obtain ⟨hnames, -, hne⟩ := List.pairwise_append.1 hname
    have he : e ∈ escapes := hes e (by simp)
    have hes' : ∀ a ∈ es, a ∈ escapes := fun a ha => hes a (by simp [ha])
    have hne' : ∀ a ∈ es, a.name ≠ e.name := fun a ha => hne a ha e (by simp)
    rw [misreadBy_concat he hes' hne' hg, restoreBy_concat]
    rcases replaceAll_spell he hg with ⟨hcross, hpass⟩ | ⟨hcross, hunpaired⟩
    · have hvalid : ∀ x ∈ g.flatMap (Glyph.settle e), x.Valid (· ∈ es) := by
        intro x hx
        obtain ⟨y, hy, hxy⟩ := List.mem_flatMap.1 hx
        exact valid_of_mem_settle he (hg y hy) hxy
      rw [hpass, ← meaning_flatMap_settle hne' hg]
      simpa [hcross] using ih hes' hnames hvalid
    · exact .inr ⟨.inl hcross, hunpaired.restoreBy hes'⟩

theorem restore_spell {p : Escape → Prop} (hg : ∀ x ∈ g, x.Valid p) :
    ¬ Misread g ∧ restore (spell g) = meaning g ∨ Misread g ∧ Unpaired (restore (spell g)) := by
  refine restoreBy_spell (fun e he => he) escapes_pairwise fun x hx => ?_
  have hx' := hg x hx
  cases x with
  | char c => exact hx'
  | escape e => exact ⟨hx'.1, hx'.1⟩

theorem nul_not_mem_meaning {p : Escape → Prop} (hg : ∀ x ∈ g, x.Valid p) : '\x00' ∉ meaning g := by
  intro hnul
  obtain ⟨x, hx, hnul⟩ := List.mem_flatMap.1 hnul
  cases x with
  | char c => exact hg _ hx (List.mem_singleton.1 hnul).symm
  | escape e => exact (isBounded_meaning e (hg _ hx).1).2 hnul

/-! ### Embedded arithmetic -/

/-- A text cut at its embedded expressions. -/
def mathPieces (t : Text) : List Piece :=
  match _h : Text.splitFirst? mathOpening t with
  | none => [.plain t]
  | some (before, after) =>
    match _h' : Text.splitFirst? "\x7d" after with
    | none => [.plain t]
    | some (inner, rest) => .plain before :: .token inner :: mathPieces rest
termination_by t.length
decreasing_by
  have h₁ := Text.length_of_splitFirst? ‹Text.splitFirst? _ t = _›
  have h₂ := Text.length_of_splitFirst? ‹Text.splitFirst? _ after = _›
  simp_all
  omega

/-- What becomes of a piece when its arithmetic is evaluated. -/
def Piece.evaluated : Piece → Text
  | plain t => t
  | token x => Arithmetic.evaluate Arithmetic.binary64 x

theorem replaceMath_eq (t : Text) : replaceMath t = (mathPieces t).flatMap Piece.evaluated := by
  unfold replaceMath
  fun_induction mathPieces t with
  | case1 t h =>
    rw [replaceDelimited_of_none h]
    simp [Piece.evaluated]
  | case2 t before after h h' =>
    rw [replaceDelimited_of_unclosed h h']
    simp [Piece.evaluated]
  | case3 t before after h inner rest h' ih =>
    have hvalue : some (Arithmetic.evaluate Arithmetic.binary64 inner) =
      some (Piece.evaluated (.token inner)) := rfl
    rw [replaceDelimited_of_some (by decide) h h' hvalue, ih]
    simp [Piece.evaluated]

theorem Spelled.mathPieces {p : Escape → Prop} (h : Spelled p t) :
    ∀ x ∈ DirectiveEngine.mathPieces t, Spelled p x.inner := by
  fun_induction DirectiveEngine.mathPieces t with
  | case1 => simpa [Piece.inner] using h
  | case2 => simpa [Piece.inner] using h
  | case3 t before after ht inner rest hafter ih =>
    obtain ⟨hbefore, hafter'⟩ := h.splitFirst? rfl ht
    obtain ⟨hinner, hrest⟩ := hafter'.splitFirst? rfl hafter
    simpa [Piece.inner] using ⟨hbefore, hinner, ih hrest⟩

/-- What the evaluator makes of an expression that it meets a NUL in. -/
def nulReport : Text :=
  "ERROR: Unexpected character: \x00"

private theorem unpaired_nulReport {p : Escape → Prop} (h : Spelled p t) : Unpaired (nulReport ++ t) := by
  obtain ⟨g, hg, rfl⟩ := h
  have hreport : nulReport = "ERROR: Unexpected character:".toList ++ [' ', '\x00'] := by decide
  have heven := count_spell hg
  refine ⟨"ERROR: Unexpected character:".toList, ' ', '\x00' :: spell g, ?_, rfl, ?_⟩
  · rw [hreport, List.append_assoc, List.cons_append, List.singleton_append]
  · rw [List.count_cons_self]
    omega

/-- The evaluator takes no sentinel apart unless it reports a NUL, and then that one stays unpaired. -/
private theorem evaluated_pieces {p : Escape → Prop} {ps : List Piece} (h : ∀ x ∈ ps, Spelled p x.inner) :
    (∀ x, .token x ∈ ps → Arithmetic.evaluate Arithmetic.binary64 x ≠ nulReport) ∧
        Spelled p (ps.flatMap Piece.evaluated) ∨
      (∃ x, .token x ∈ ps ∧ Arithmetic.evaluate Arithmetic.binary64 x = nulReport) ∧
        Unpaired (ps.flatMap Piece.evaluated) := by
  induction ps with
  | nil => exact .inl ⟨by simp, .nil⟩
  | cons x ps ih =>
    rw [List.flatMap_cons]
    rcases ih fun y hy => h y (List.mem_cons_of_mem _ hy) with ⟨hnone, ih⟩ | ⟨⟨y, hy, hreport⟩, ih⟩
    · cases x with
      | plain t => exact .inl ⟨by simpa using hnone, (h _ List.mem_cons_self).append ih⟩
      | token x =>
        by_cases hnul : '\x00' ∈ Arithmetic.evaluate Arithmetic.binary64 x
        · have hreport := (Arithmetic.evaluate_of_nul_mem Arithmetic.nul_not_mem_floatText hnul).1
          refine .inr ⟨⟨x, List.mem_cons_self, hreport⟩, ?_⟩
          rw [Piece.evaluated, hreport]
          exact unpaired_nulReport ih
        · refine .inl ⟨fun y hy => ?_, (Spelled.of_not_mem hnul).append ih⟩
          rcases List.mem_cons.1 hy with hy | hy
          · rw [Piece.token.inj hy]
            exact fun hreport => hnul (by rw [hreport]; decide)
          · exact hnone y hy
    · exact .inr ⟨⟨y, List.mem_cons_of_mem _ hy, hreport⟩, ih.append _⟩

/-- When the arithmetic of a spelled text has been evaluated, a NUL stays where the evaluator reports one and
where the escapes are misread. -/
theorem nul_mem_restore_replaceMath {p : Escape → Prop} (h : Spelled p t) :
    '\x00' ∈ restore (replaceMath t) ↔
      (∃ x, .token x ∈ mathPieces t ∧ Arithmetic.evaluate Arithmetic.binary64 x = nulReport) ∨
        ∃ g, (∀ x ∈ g, x.Valid p) ∧ spell g = replaceMath t ∧ Misread g := by
  have hpieces := evaluated_pieces h.mathPieces
  rw [← replaceMath_eq] at hpieces
  rcases hpieces with ⟨hnone, g, hg, hs⟩ | ⟨hreport, hunpaired⟩
  · constructor
    · intro hnul
      rw [← hs] at hnul ⊢
      rcases restore_spell hg with ⟨-, heq⟩ | ⟨hread, -⟩
      · rw [heq] at hnul
        exact absurd hnul (nul_not_mem_meaning hg)
      · exact .inr ⟨g, hg, rfl, hread⟩
    · rintro (⟨x, hx, hreport⟩ | ⟨g', hg', hs', hread⟩)
      · exact absurd hreport (hnone x hx)
      · rw [← hs']
        exact ((restore_spell hg').resolve_left fun h => h.1 hread).2.nul_mem
  · exact ⟨fun _ => .inl hreport, fun _ => (hunpaired.restoreBy fun e he => he).nul_mem⟩

theorem nul_not_mem_restore_replaceMath {p : Escape → Prop} (h : Spelled p t) (hp : ∀ e ∈ escapes, ¬ p e) :
    '\x00' ∉ restore (replaceMath t) := by
  intro hnul
  rcases (nul_mem_restore_replaceMath h).1 hnul with ⟨x, hx, hreport⟩ | ⟨g, hg, -, hread⟩
  · have hmem : '\x00' ∈ Arithmetic.evaluate Arithmetic.binary64 x := by
      rw [hreport]
      decide
    exact (h.mathPieces _ hx).nul_not_mem hp (Arithmetic.evaluate_of_nul_mem Arithmetic.nul_not_mem_floatText hmem).2
  · obtain ⟨xs, e, ys, a, b, l, r, -, -, -, rfl⟩ := hread
    have hb := hg (.escape b) (by simp)
    exact hp b hb.1 hb.2

/-- Where no NUL stays, every escape has its meaning. -/
theorem restore_replaceMath {p : Escape → Prop} (h : Spelled p t) (hnul : '\x00' ∉ restore (replaceMath t)) :
    ∃ g, (∀ x ∈ g, x.Valid p) ∧ spell g = replaceMath t ∧ restore (replaceMath t) = meaning g := by
  have hpieces := evaluated_pieces h.mathPieces
  rw [← replaceMath_eq] at hpieces
  rcases hpieces with ⟨-, g, hg, hs⟩ | ⟨-, hunpaired⟩
  · rw [← hs] at hnul ⊢
    rcases restore_spell hg with ⟨-, heq⟩ | ⟨-, hunpaired⟩
    · exact ⟨g, hg, rfl, heq⟩
    · exact absurd hunpaired.nul_mem hnul
  · exact absurd (hunpaired.restoreBy fun e he => he).nul_mem hnul

end DirectiveEngine
