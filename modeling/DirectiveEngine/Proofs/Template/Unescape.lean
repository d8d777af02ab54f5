import DirectiveEngine.Proofs.Template.Restore
import DirectiveEngine.Proofs.Text.Pairs

/-!
# Reading escapes from left to right

Escapes are protected in passes, one kind after the other.  What the passes make of a text is told by one reading of it
(`reading`, `protect_eq`): each pair becomes its sentinel, but where a blank stands behind two backslashes the second of
them continues the blank, because continuations are looked for first.  So a text without a NUL comes back as it is read
from left to right (`unescape`) unless the name of an escape stands between two sentinels or a blank stands behind an
even run of backslashes (`restore_protect_eq_iff`).
-/

namespace DirectiveEngine

variable {c d : Char} {t u a : Text} {e : Escape} {es es' : List Escape}

/-- What a text says when each pair is taken as it comes. -/
def unescape : Text → Text
  | '\\' :: c :: t =>
    if c ∈ ['\\', '|', '%', ':', '[', ']'] then c :: unescape t
    else if c ∈ [' ', '\n'] then '\\' :: c :: unescape t
    else '\\' :: unescape (c :: t)
  | c :: t => c :: unescape t
  | [] => []

/-! ### What the passes see -/

/-- A character that a backslash continues over. -/
def isContinued (c : Char) : Bool :=
  c == ' ' || c == '\n'

def escapeOf? (c : Char) : Option Escape :=
  escapes.find? fun e => e.written = ['\\', c]

/-- The glyphs that the passes make of a text. -/
def reading : Text → List Glyph
  | '\\' :: c :: t =>
    if c = '\\' ∧ t.head?.any isContinued then .char '\\' :: reading (c :: t)
    else match escapeOf? c with
      | some e => .escape e :: reading t
      | none => .char '\\' :: reading (c :: t)
  | c :: t => .char c :: reading t
  | [] => []

/-- Protects some kinds of escapes. -/
def protectBy (es : List Escape) (t : Text) : Text :=
  es.foldl (fun t e => Text.replaceAll e.written e.sentinel t) t

theorem protectBy_cons (e : Escape) (es : List Escape) (t : Text) :
    protectBy (e :: es) t = protectBy es (Text.replaceAll e.written e.sentinel t) := rfl

theorem protectBy_append (es es' : List Escape) (t : Text) : protectBy (es ++ es') t = protectBy es' (protectBy es t) :=
  List.foldl_append

theorem exists_written (he : e ∈ escapes) : ∃ d, e.written = ['\\', d] := by
  simp only [escapes, List.mem_cons, List.not_mem_nil, or_false] at he
  rcases he with rfl | rfl | rfl | rfl | rfl | rfl | rfl | rfl <;> exact ⟨_, rfl⟩

theorem backslash_not_mem_sentinel : ∀ e ∈ escapes, '\\' ∉ e.sentinel := by
  decide

/-- What lacks a backslash is passed over. -/
theorem protectBy_of_not_mem (hes : ∀ e ∈ es, e ∈ escapes) (ha : '\\' ∉ a) (t : Text) :
    protectBy es (a ++ t) = a ++ protectBy es t := by
  induction es generalizing t with
  | nil => rfl
  | cons e es ih =>
    obtain ⟨d, hd⟩ := exists_written (hes e (by simp))
    rw [protectBy_cons, protectBy_cons, hd, Text.replaceAll_append ha, ih fun b hb => hes b (List.mem_cons_of_mem _ hb)]

/-- A backslash before a character that it does not escape is passed over. -/
theorem protectBy_backslash (hes : ∀ e ∈ es, e ∈ escapes) (hne : ∀ e ∈ es, e.written ≠ ['\\', c]) (hc : c ≠ '\\')
    (t : Text) : protectBy es ('\\' :: c :: t) = '\\' :: c :: protectBy es t := by
  induction es generalizing t with
  | nil => rfl
  | cons e es ih =>
    obtain ⟨d, hd⟩ := exists_written (hes e (by simp))
    have hdc : d ≠ c := fun h => hne e (by simp) (h ▸ hd)
    have hpair : ¬ ['\\', d] <+: '\\' :: c :: t := by simp [List.cons_prefix_cons, hdc]
    have hnext : ¬ ['\\', d] <+: c :: t := by simp [List.cons_prefix_cons, Ne.symm hc]
    rw [protectBy_cons, protectBy_cons, hd, Text.replaceAll_cons hpair, Text.replaceAll_cons hnext,
      ih (fun b hb => hes b (List.mem_cons_of_mem _ hb)) fun b hb => hne b (List.mem_cons_of_mem _ hb)]

/-- What is looked for first becomes its sentinel. -/
theorem protectBy_written (hes : ∀ b ∈ e :: es, b ∈ escapes) (t : Text) :
    protectBy (e :: es) (e.written ++ t) = e.sentinel ++ protectBy (e :: es) t := by
  have he : e ∈ escapes := hes e (by simp)
  rw [protectBy_cons, protectBy_cons, Text.replaceAll_append_self (ne_nil_of_isBounded (isBounded_written e he)),
    protectBy_of_not_mem (fun b hb => hes b (List.mem_cons_of_mem _ hb)) (backslash_not_mem_sentinel e he)]

/-- A pair without another backslash becomes its sentinel. -/
theorem protectBy_pair (hes : ∀ b ∈ es ++ e :: es', b ∈ escapes) (hne : ∀ b ∈ es, b.written ≠ ['\\', c])
    (he : e.written = ['\\', c]) (hc : c ≠ '\\') (t : Text) :
    protectBy (es ++ e :: es') ('\\' :: c :: t) = e.sentinel ++ protectBy (es ++ e :: es') t := by
  have hfirst := protectBy_backslash (fun b hb => hes b (by simp [hb])) hne hc t
  have hthen := protectBy_written (fun b hb => hes b (List.mem_append_right _ hb)) (protectBy es t)
  rw [he] at hthen
  rw [protectBy_append, protectBy_append, hfirst]
  exact hthen

/-! ### Runs of backslashes -/

/-- The kinds that are protected before an escaped backslash is. -/
def continuations : List Escape :=
  escapes.take 2

/-- The kinds that are protected from an escaped backslash on. -/
def laterEscapes : List Escape :=
  escapes.drop 2

theorem mem_of_mem_continuations (he : e ∈ continuations) : e ∈ escapes :=
  List.mem_of_mem_take he

theorem mem_of_mem_laterEscapes (he : e ∈ laterEscapes) : e ∈ escapes :=
  List.mem_of_mem_drop he

theorem continuations_written : ∀ e ∈ continuations, e.written = ['\\', ' '] ∨ e.written = ['\\', '\n'] := by
  decide

theorem exists_continuation (hc : isContinued c) :
    ∃ es e es', continuations = es ++ e :: es' ∧ e.written = ['\\', c] ∧ ∀ b ∈ es, b.written ≠ ['\\', c] := by
  simp only [isContinued, Bool.or_eq_true, beq_iff_eq] at hc
  rcases hc with rfl | rfl
  · exact ⟨[], _, _, rfl, rfl, by simp⟩
  · exact ⟨[_], _, [], rfl, rfl, by decide⟩

/-- A backslash stays if no blank stands behind it, while continuations are looked for. -/
theorem protectBy_behind (hes : ∀ e ∈ es, e ∈ continuations) (hu : ∀ c ∈ u.head?, isContinued c = false) :
    protectBy es ('\\' :: u) = '\\' :: protectBy es u := by
  induction es generalizing u with
  | nil => rfl
  | cons e es ih =>
    have hpair : ¬ e.written <+: '\\' :: u := by
      rintro ⟨r, hr⟩
      rcases continuations_written e (hes e (by simp)) with h | h <;>
        · rw [h] at hr
          cases hr
          exact absurd (hu _ rfl) (by decide)
    -- what the pass puts at the front of the rest is the NUL of a sentinel
    have hhead : ∀ c ∈ (Text.replaceAll e.written e.sentinel u).head?, isContinued c = false := by
      have he := mem_of_mem_continuations (hes e (by simp))
      have hwritten := ne_nil_of_isBounded (isBounded_written e he)
      have hsentinel := sentinel_eq e he
      have hne : e.sentinel ≠ [] := by simp [hsentinel]
      intro c hc
      rcases Text.head?_replaceAll hwritten hne u with h | h
      · exact hu c (h ▸ hc)
      · rw [h, hsentinel] at hc
        cases hc
        rfl
    rw [protectBy_cons, protectBy_cons, Text.replaceAll_cons hpair,
      ih (fun b hb => hes b (List.mem_cons_of_mem _ hb)) hhead]

theorem protect_eq_protectBy (t : Text) : protect t = protectBy laterEscapes (protectBy continuations t) := by
  rw [← protectBy_append, continuations, laterEscapes, List.take_append_drop, protectBy, protect]

theorem protect_nil : protect [] = [] := by
  simp [protect, escapes, Text.replaceAll_nil]

theorem protect_cons (hc : c ≠ '\\') (t : Text) : protect (c :: t) = c :: protect t :=
  protectBy_of_not_mem (a := [c]) (fun _ he => he) (by simpa using hc.symm) t

/-- Two backslashes are an escaped one, unless the second continues a blank. -/
theorem protect_backslashes (ht : ∀ c ∈ t.head?, isContinued c = false) (he : escapeOf? '\\' = some e) :
    protect ('\\' :: '\\' :: t) = e.sentinel ++ protect t := by
  obtain ⟨es, hes, hwritten⟩ : ∃ es, laterEscapes = e :: es ∧ e.written = ['\\', '\\'] := by
    rw [← Option.some.inj he]
    exact ⟨_, rfl, rfl⟩
  have hlater := protectBy_written (fun b hb => mem_of_mem_laterEscapes (hes ▸ hb)) (protectBy continuations t)
  rw [← hes, hwritten] at hlater
  rw [protect_eq_protectBy, protectBy_behind (fun _ he => he) (by simp [isContinued]),
    protectBy_behind (fun _ he => he) ht, protect_eq_protectBy]
  exact hlater

/-- Where the second of two backslashes continues a blank, the first stands alone. -/
theorem protect_continued (hc : isContinued c) (t : Text) :
    protect ('\\' :: '\\' :: c :: t) = '\\' :: protect ('\\' :: c :: t) := by
  obtain ⟨es, e, es', hes, he, hne⟩ := exists_continuation hc
  have hmem : e ∈ continuations := by simp [hes]
  have hback : c ≠ '\\' := by
    rintro rfl
    exact absurd hc (by decide)
  have hpair : protectBy continuations ('\\' :: c :: t) = e.sentinel ++ protectBy continuations t := by
    rw [hes]
    exact protectBy_pair (fun b hb => mem_of_mem_continuations (hes ▸ hb)) hne he hback t
  -- the passes behind take the first backslash and the NUL of the sentinel for any two characters
  have hlater (u : Text) :
      protectBy laterEscapes ('\\' :: '\x00' :: u) = '\\' :: protectBy laterEscapes ('\x00' :: u) := by
    rw [protectBy_backslash (fun _ hb => mem_of_mem_laterEscapes hb) (by decide) (by decide)]
    exact congrArg _ (protectBy_of_not_mem (a := ['\x00']) (fun _ hb => mem_of_mem_laterEscapes hb) (by decide) u).symm
  obtain ⟨s, hs⟩ : ∃ s, e.sentinel = '\x00' :: s := ⟨_, sentinel_eq e (mem_of_mem_continuations hmem)⟩
  rw [protect_eq_protectBy, protectBy_behind (fun _ he => he) (by simp [isContinued]), protect_eq_protectBy, hpair, hs]
  exact hlater _

theorem protect_eq (t : Text) : protect t = spell (reading t) := by
  fun_induction reading t with
  | case1 c t h ih =>
    obtain ⟨rfl, ht⟩ := h
    obtain ⟨d, hd, hcontinued⟩ := (Option.any_eq_true _ _).1 ht
    obtain ⟨t, rfl⟩ := List.head?_eq_some_iff.1 hd
    rw [protect_continued hcontinued, ih]
    rfl
  | case2 c t h e he ih =>
    rw [spell_cons, ← ih]
    by_cases hc : c = '\\'
    · subst hc
      have ht : t.head?.any isContinued = false := by simpa using h
      exact protect_backslashes (fun d hd => by rw [hd] at ht; exact ht) he
    · obtain ⟨hwritten, es, es', hes, hne⟩ := List.find?_eq_some_iff_append.1 he
      have hpair := protectBy_pair (fun b hb => hes ▸ hb) (by simpa using hne) (by simpa using hwritten) hc t
      rw [← hes] at hpair
      exact hpair
  | case3 c t h he ih =>
    have hne := List.find?_eq_none.1 he
    have hc : c ≠ '\\' := by
      rintro rfl
      exact absurd he (by decide)
    rw [spell_cons, ← ih, protect_cons hc]
    exact protectBy_backslash (fun _ hb => hb) (by simpa using hne) hc t
  | case4 c t h ih =>
    rw [spell_cons, ← ih]
    by_cases hc : c = '\\'
    · cases t with
      | nil =>
        subst hc
        rw [protect_nil]
        exact protect_eq_self (by decide)
      | cons d t => exact absurd rfl (h d t hc)
    · exact protect_cons hc t
  | case5 => exact protect_nil

/-! ### What comes back -/

theorem unescape_pair (he : escapeOf? c = some e) (t : Text) : unescape ('\\' :: c :: t) = e.meaning ++ unescape t := by
  have hmem : e ∈ escapes := List.mem_of_find?_eq_some he
  have hwritten : e.written = ['\\', c] := by simpa using List.find?_some he
  simp only [escapes, List.mem_cons, List.not_mem_nil, or_false] at hmem
  rcases hmem with rfl | rfl | rfl | rfl | rfl | rfl | rfl | rfl <;> cases hwritten <;> rfl

theorem unescape_backslash (he : escapeOf? c = none) (t : Text) :
    unescape ('\\' :: c :: t) = '\\' :: unescape (c :: t) := by
  have hc : c ∉ ['\\', '|', '%', ':', '[', ']'] ∧ c ∉ [' ', '\n'] := by
    simp [escapeOf?, escapes] at he
    grind
  rw [unescape, if_neg hc.1, if_neg hc.2]

theorem unescape_cons (h : c = '\\' → t = []) : unescape (c :: t) = c :: unescape t := by
  by_cases hc : c = '\\'
  · rw [hc, h hc]
    rfl
  · simp [unescape, hc]

theorem mem_of_mem_unescape (h : c ∈ unescape t) : c ∈ t := by
  fun_induction unescape t <;> grind

theorem valid_reading (h : '\x00' ∉ t) : ∀ x ∈ reading t, x.Valid fun _ => True := by
  have hcons {x : Glyph} {g : List Glyph} (hx : x.Valid fun _ => True) (hg : ∀ x ∈ g, x.Valid fun _ => True) :
      ∀ y ∈ x :: g, y.Valid fun _ => True := List.forall_mem_cons.2 ⟨hx, hg⟩
  fun_induction reading t with
  | case1 c t _ ih => exact hcons (by simp [Glyph.Valid]) (ih fun hmem => h (List.mem_cons_of_mem _ hmem))
  | case2 c t _ e he ih =>
    exact hcons ⟨List.mem_of_find?_eq_some he, trivial⟩ (ih fun hmem => h (by simp [hmem]))
  | case3 c t _ he ih => exact hcons (by simp [Glyph.Valid]) (ih fun hmem => h (List.mem_cons_of_mem _ hmem))
  | case4 c t _ ih =>
    exact hcons (fun hc => h (by simp [hc])) (ih fun hmem => h (List.mem_cons_of_mem _ hmem))
  | case5 => simp

theorem meaning_reading_eq_iff (t : Text) : meaning (reading t) = unescape t ↔ ¬ BehindPairs '\\' isContinued t := by
  fun_induction reading t with
  | case1 c t h ih =>
    obtain ⟨rfl, ht⟩ := h
    obtain ⟨d, hd, hcontinued⟩ := (Option.any_eq_true _ _).1 ht
    obtain ⟨t, rfl⟩ := List.head?_eq_some_iff.1 hd
    refine iff_of_false ?_ (not_not.2 (.of_pair hcontinued t))
    -- the second character is a backslash on one side, and the blank on the other
    simp only [isContinued, Bool.or_eq_true, beq_iff_eq] at hcontinued
    rcases hcontinued with rfl | rfl <;> simp [reading, escapeOf?, escapes, unescape, Glyph.meaning]
  | case2 c t h e he ih =>
    rw [meaning_cons, unescape_pair he]
    refine (List.append_right_inj e.meaning).trans (ih.trans (not_congr ?_))
    by_cases hc : c = '\\'
    · subst hc
      have ht : t.head?.any isContinued = false := by simpa using h
      exact (BehindPairs.pair_iff fun d hd => by rw [hd] at ht; exact ht).symm
    · rw [BehindPairs.cons_iff fun _ => by simpa using hc, BehindPairs.cons_iff fun h => absurd h hc]
  | case3 c t h he ih =>
    have hc : c ≠ '\\' := by
      rintro rfl
      exact absurd he (by decide)
    rw [meaning_cons, unescape_backslash he]
    refine (List.append_right_inj ['\\']).trans (ih.trans (not_congr ?_))
    exact (BehindPairs.cons_iff fun _ => by simpa using hc).symm
  | case4 c t h ih =>
    have ht : c = '\\' → t = [] := by
      rintro rfl
      cases t with
      | nil => rfl
      | cons d t => exact absurd rfl (h d t rfl)
    rw [meaning_cons, unescape_cons ht]
    refine (List.append_right_inj [c]).trans (ih.trans (not_congr ?_))
    exact (BehindPairs.cons_iff fun hc => by simp [ht hc]).symm
  | case5 => exact iff_of_true rfl BehindPairs.not_nil

/-- A text without a NUL comes back as it is read from left to right if and only if no name of an escape stands between
two sentinels that are restored after it and no blank stands behind an even run of backslashes.  Otherwise it comes back
with a NUL in it, or as its glyphs mean it. -/
theorem restore_protect_eq_iff {t : Text} (h : '\x00' ∉ t) :
    (restore (protect t) = unescape t ↔ ¬ Misread (reading t) ∧ ¬ BehindPairs '\\' isContinued t) ∧
      (Misread (reading t) → '\x00' ∈ restore (protect t)) ∧
      (¬ Misread (reading t) → restore (protect t) = meaning (reading t)) := by
  rw [protect_eq, ← meaning_reading_eq_iff]
  rcases restore_spell (valid_reading h) with ⟨hread, hmeaning⟩ | ⟨hread, hunpaired⟩
  · refine ⟨?_, fun hmis => absurd hmis hread, fun _ => hmeaning⟩
    rw [hmeaning]
    exact ⟨fun heq => ⟨hread, heq⟩, And.right⟩
  · have hnul := hunpaired.nul_mem
    refine ⟨iff_of_false (fun heq => ?_) fun hboth => hboth.1 hread, fun _ => hnul, fun hnot => absurd hread hnot⟩
    rw [heq] at hnul
    exact h (mem_of_mem_unescape hnul)

/-- Neither an escaped backslash nor a continued line keeps a text from coming back. -/
theorem restore_protect_eq_iff_path :
    let t : Text := "cp C\\:\\\\tmp\\ files \\\\\\ x 100\\%"
    restore (protect t) = unescape t ∧ ¬ Misread (reading t) ∧ ¬ BehindPairs '\\' isContinued t := by
  intro t
  have heq : restore (protect t) = unescape t := by decide +kernel
  exact ⟨heq, (restore_protect_eq_iff (by decide)).1.1 heq⟩

/-- The name of an escape between two sentinels is taken for a third one, and a blank behind two backslashes keeps
both. -/
theorem restore_protect_ne_unescape :
    restore (protect "\\|ESCAPED_COLON\\|") ≠ unescape "\\|ESCAPED_COLON\\|" ∧
      restore (protect "a\\\\ b") ≠ unescape "a\\\\ b" := by
  decide +kernel

end DirectiveEngine
