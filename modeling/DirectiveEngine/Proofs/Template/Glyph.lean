import DirectiveEngine.Proofs.Text.Search
import DirectiveEngine.Template.Argument
import DirectiveEngine.Template.Escape
import DirectiveEngine.Template.Piece
import DirectiveEngine.Template.Server
import DirectiveEngine.Template.Variable

/-!
# Texts with sentinels

While placeholders are replaced, a text is made of characters other than NUL and of whole sentinels
(`Spelled`).  No pass takes a sentinel apart: what a text is cut at starts and ends with marks, characters that
no sentinel holds, and a cut at a mark leaves spelled texts on both sides (`Spelled.cut`).
-/

namespace DirectiveEngine

/-! ### Sentinels -/

/-- What stands between the two NUL characters of a sentinel. -/
def Escape.name (e : Escape) : Text :=
  e.sentinel.tail.dropLast

/-- A character that no sentinel holds. -/
def isMark (c : Char) : Bool :=
  let n := c.toNat
  n != 0 && n != 0x5F && !(0x41 ≤ n && n ≤ 0x5A)

theorem sentinel_eq : ∀ e ∈ escapes, e.sentinel = '\x00' :: e.name ++ ['\x00'] := by
  decide

theorem not_isMark_of_mem_sentinel : ∀ e ∈ escapes, ∀ c ∈ e.sentinel, isMark c = false := by
  have h : ∀ e ∈ escapes, e.sentinel.any isMark = false := by decide
  exact fun e he c hc => Bool.eq_false_iff.2 (List.any_eq_false.1 (h e he) c hc)

theorem isMark_of_endsToken {c : Char} (h : endsToken c = true) : isMark c = true := by
  rcases Bool.or_eq_true_iff.1 h with h | h
  · simp only [isBlank, Bool.or_eq_true, Bool.and_eq_true, decide_eq_true_eq, beq_iff_eq] at h
    simp only [isMark, Bool.and_eq_true, Bool.not_eq_true', Bool.and_eq_false_iff, bne_iff_ne,
      decide_eq_false_iff_not]
    omega
  · simp only [List.mem_cons, List.not_mem_nil, or_false, decide_eq_true_eq] at h
    rcases h with rfl | rfl | rfl | rfl | rfl | rfl <;> rfl

/-- A text that starts and ends with marks. -/
def isBounded (t : Text) : Bool :=
  t.head?.any isMark && t.getLast?.any isMark

theorem isBounded_written : ∀ e ∈ escapes, isBounded e.written = true := by
  decide

theorem ne_nil_of_isBounded {t : Text} (h : isBounded t = true) : t ≠ [] := by
  rintro rfl
  exact absurd h (by decide)

theorem protect_eq_self {t : Text} (h : ∀ a ∈ escapes, ¬ a.written <:+: t) : protect t = t := by
  suffices h' : ∀ es : List Escape, (∀ a ∈ es, ¬ a.written <:+: t) →
      es.foldl (fun t a => Text.replaceAll a.written a.sentinel t) t = t from h' escapes h
  intro es
  induction es with
  | nil => exact fun _ => rfl
  | cons a es ih =>
    intro hes
    rw [List.foldl_cons, Text.replaceAll_of_none (Text.splitFirst?_of_not_infix (hes a List.mem_cons_self))]
    exact ih fun b hb => hes b (List.mem_cons_of_mem _ hb)

theorem protect_of_not_mem {t : Text} (h : '\\' ∉ t) : protect t = t := by
  have hwritten : ∀ a ∈ escapes, '\\' ∈ a.written := by decide
  exact protect_eq_self fun a ha hin => h (hin.subset (hwritten a ha))

theorem restore_of_not_mem {t : Text} (h : '\x00' ∉ t) : restore t = t := by
  suffices h' : ∀ es : List Escape, (∀ a ∈ es, a ∈ escapes) →
      es.foldr (fun a t => Text.replaceAll a.sentinel a.meaning t) t = t from h' escapes fun a ha => ha
  intro es
  induction es with
  | nil => exact fun _ => rfl
  | cons a es ih =>
    intro hes
    have hmem : '\x00' ∈ a.sentinel := by
      rw [sentinel_eq a (hes a List.mem_cons_self)]
      simp
    rw [List.foldr_cons, ih fun b hb => hes b (List.mem_cons_of_mem _ hb),
      Text.replaceAll_of_none (Text.splitFirst?_eq_none hmem h)]

/-! ### Spelling -/

inductive Glyph where
  | char (c : Char)
  | escape (e : Escape)

/-- The text that a glyph stands as until the escapes are restored. -/
def Glyph.spell : Glyph → Text
  | char c => [c]
  | escape e => e.sentinel

/-- The text that a glyph stands for. -/
def Glyph.meaning : Glyph → Text
  | char c => [c]
  | escape e => e.meaning

def spell (g : List Glyph) : Text :=
  g.flatMap Glyph.spell

def meaning (g : List Glyph) : Text :=
  g.flatMap Glyph.meaning

/-- Only sentinels hold a NUL, and only those of certain escapes occur. -/
def Glyph.Valid (p : Escape → Prop) : Glyph → Prop
  | char c => c ≠ '\x00'
  | escape e => e ∈ escapes ∧ p e

/-- A text without NUL characters but those of whole sentinels, all of them of certain escapes. -/
def Spelled (p : Escape → Prop) (t : Text) : Prop :=
  ∃ g : List Glyph, (∀ x ∈ g, x.Valid p) ∧ spell g = t

@[simp] theorem spell_nil : spell [] = [] := rfl

@[simp] theorem spell_cons (x : Glyph) (g : List Glyph) : spell (x :: g) = x.spell ++ spell g := rfl

@[simp] theorem spell_append (g g' : List Glyph) : spell (g ++ g') = spell g ++ spell g' :=
  List.flatMap_append

@[simp] theorem spell_map_char (t : Text) : spell (t.map .char) = t := by
  induction t with
  | nil => rfl
  | cons c t ih => simp [Glyph.spell, ih]

@[simp] theorem meaning_cons (x : Glyph) (g : List Glyph) : meaning (x :: g) = x.meaning ++ meaning g := rfl

@[simp] theorem meaning_append (g g' : List Glyph) : meaning (g ++ g') = meaning g ++ meaning g' :=
  List.flatMap_append

@[simp] theorem meaning_map_char (t : Text) : meaning (t.map .char) = t := by
  induction t with
  | nil => rfl
  | cons c t ih => simp [Glyph.meaning, ih]

theorem spell_eq_meaning {g : List Glyph} (h : ∀ e, .escape e ∉ g) : spell g = meaning g := by
  induction g with
  | nil => rfl
  | cons x g ih =>
    rw [spell_cons, meaning_cons, ih fun e he => h e (List.mem_cons_of_mem _ he)]
    cases x with
    | char c => rfl
    | escape e => exact absurd List.mem_cons_self (h e)

variable {p : Escape → Prop} {t a b sep : Text}

/-- A mark is a glyph of its own, so a spelled text may be cut at it. -/
private theorem spell_eq_append_cons {g : List Glyph} (hg : ∀ x ∈ g, x.Valid p) {c : Char} (hc : isMark c = true)
    (h : spell g = a ++ c :: b) : ∃ g₁ g₂, g = g₁ ++ .char c :: g₂ ∧ spell g₁ = a ∧ spell g₂ = b := by
  induction g generalizing a with
  | nil => simp at h
  | cons x g ih =>
    have ih' := fun {a : Text} (h : spell g = a ++ c :: b) => ih (fun x hx => hg x (List.mem_cons_of_mem _ hx)) h
    rcases List.append_eq_append_iff.1 (spell_cons x g ▸ h) with ⟨a', ha, hb⟩ | ⟨r, hr, hb⟩
    · obtain ⟨g₁, g₂, rfl, rfl, rfl⟩ := ih' hb
      exact ⟨x :: g₁, g₂, rfl, by rw [ha, spell_cons], rfl⟩
    · cases r with
      | nil =>
        obtain ⟨g₁, g₂, rfl, h₁, rfl⟩ := ih' (a := []) hb.symm
        exact ⟨x :: g₁, g₂, rfl, by rw [spell_cons, h₁, hr, List.append_nil, List.append_nil], rfl⟩
      | cons d r =>
        obtain ⟨rfl, hb⟩ := List.cons_eq_cons.1 (List.cons_append ▸ hb)
        cases x with
        | char d =>
          obtain ⟨rfl, hr⟩ | ⟨_, hr⟩ := List.singleton_eq_append_iff.1 hr
          · obtain ⟨rfl, rfl⟩ := List.cons_eq_cons.1 hr
            exact ⟨[], g, rfl, rfl, (List.cons_eq_cons.1 hb.symm).2⟩
          · simp at hr
        | escape e =>
          have he : e ∈ escapes := (hg _ List.mem_cons_self).1
          have hd : c ∈ e.sentinel := by
            rw [show e.sentinel = _ from hr]
            simp
          rw [not_isMark_of_mem_sentinel e he c hd] at hc
          exact absurd hc (by decide)

namespace Spelled

theorem nil : Spelled p [] :=
  ⟨[], by simp, rfl⟩

theorem append (ha : Spelled p a) (hb : Spelled p b) : Spelled p (a ++ b) := by
  obtain ⟨g, hg, rfl⟩ := ha
  obtain ⟨g', hg', rfl⟩ := hb
  exact ⟨g ++ g', by simpa [or_imp, forall_and] using ⟨hg, hg'⟩, spell_append g g'⟩

theorem of_not_mem (h : '\x00' ∉ t) : Spelled p t := by
  refine ⟨t.map .char, fun x hx => ?_, spell_map_char t⟩
  obtain ⟨c, hc, rfl⟩ := List.mem_map.1 hx
  rintro rfl
  exact h hc

theorem of_isMark {c : Char} (hc : isMark c = true) : Spelled p [c] := by
  refine of_not_mem fun h => ?_
  rw [← List.mem_singleton.1 h] at hc
  exact absurd hc (by decide)

theorem sentinel {e : Escape} (he : e ∈ escapes) (hp : p e) : Spelled p e.sentinel :=
  ⟨[.escape e], by simpa [Glyph.Valid] using ⟨he, hp⟩, by simp [Glyph.spell]⟩

/-- A NUL belongs to a sentinel. -/
theorem nul_mem_iff (ht : Spelled p t) : '\x00' ∈ t ↔ ∃ e ∈ escapes, p e ∧ e.sentinel <:+: t := by
  obtain ⟨g, hg, rfl⟩ := ht
  constructor
  · intro h
    obtain ⟨x, hx, hnul⟩ := List.mem_flatMap.1 h
    cases x with
    | char c => exact absurd (List.mem_singleton.1 hnul).symm (hg _ hx)
    | escape e =>
      obtain ⟨l, r, rfl⟩ := List.append_of_mem hx
      exact ⟨e, (hg _ hx).1, (hg _ hx).2, ⟨spell l, spell r, by simp [Glyph.spell]⟩⟩
  · rintro ⟨e, he, _, hin⟩
    refine hin.subset ?_
    rw [sentinel_eq e he]
    simp

theorem nul_not_mem (ht : Spelled p t) (hp : ∀ e ∈ escapes, ¬ p e) : '\x00' ∉ t := by
  intro hnul
  obtain ⟨e, he, hpe, -⟩ := ht.nul_mem_iff.1 hnul
  exact hp e he hpe

/-- The sentinels that a text is spelled with occur in it. -/
theorem self (ht : Spelled p t) : Spelled (fun e => e.sentinel <:+: t) t := by
  obtain ⟨g, hg, rfl⟩ := ht
  refine ⟨g, fun x hx => ?_, rfl⟩
  have hx' := hg x hx
  cases x with
  | char c => exact hx'
  | escape e =>
    obtain ⟨l, r, rfl⟩ := List.append_of_mem hx
    exact ⟨hx'.1, ⟨spell l, spell r, by simp [Glyph.spell]⟩⟩

theorem at_mark {c : Char} (h : Spelled p (a ++ c :: b)) (hc : isMark c = true) : Spelled p a ∧ Spelled p b := by
  obtain ⟨g, hg, hs⟩ := h
  obtain ⟨g₁, g₂, rfl, rfl, rfl⟩ := spell_eq_append_cons hg hc hs
  exact ⟨⟨g₁, fun x hx => hg x (by simp [hx]), rfl⟩, ⟨g₂, fun x hx => hg x (by simp [hx]), rfl⟩⟩

theorem cut (h : Spelled p (a ++ sep ++ b)) (hsep : isBounded sep = true) : Spelled p a ∧ Spelled p b := by
  rw [isBounded, Bool.and_eq_true] at hsep
  obtain ⟨hhead, hlast⟩ := hsep
  obtain ⟨x, hx, hmx⟩ := (Option.any_eq_true _ _).1 hhead
  obtain ⟨y, hy, hmy⟩ := (Option.any_eq_true _ _).1 hlast
  obtain ⟨s, rfl⟩ := List.head?_eq_some_iff.1 hx
  obtain ⟨s', hs'⟩ := List.getLast?_eq_some_iff.1 hy
  refine ⟨(at_mark (b := s ++ b) (by simpa using h) hmx).1, (at_mark (a := a ++ s') ?_ hmy).2⟩
  rw [hs'] at h
  simpa using h

theorem splitFirst? (h : Spelled p t) (hsep : isBounded sep = true) (hs : Text.splitFirst? sep t = some (a, b)) :
    Spelled p a ∧ Spelled p b :=
  cut (Text.eq_of_splitFirst? hs ▸ h) hsep

/-! ### Passes -/

theorem replaceAll {old new : Text} (h : Spelled p t) (hold : isBounded old = true) (hnew : Spelled p new) :
    Spelled p (Text.replaceAll old new t) := by
  induction hn : t.length using Nat.strongRecOn generalizing t with
  | _ n ih =>
    cases hs : Text.splitFirst? old t with
    | none => rwa [Text.replaceAll_of_none hs]
    | some r =>
      obtain ⟨ha, hb⟩ := h.splitFirst? hold hs
      have hlen := Text.length_of_splitFirst? hs
      have hne := ne_nil_of_isBounded hold
      have hpos : old.length ≠ 0 := by simpa using hne
      rw [Text.replaceAll_of_splitFirst? hs hne]
      exact (ha.append hnew).append (ih r.2.length (by omega) hb rfl)

theorem replaceDelimited {opening closing : Text} {f : Text → Option Text} (h : Spelled p t)
    (ho : isBounded opening = true) (hc : isBounded closing = true)
    (hf : ∀ {inner value}, Spelled p inner → f inner = some value → Spelled p value) :
    Spelled p (DirectiveEngine.replaceDelimited opening closing f t) := by
  fun_induction DirectiveEngine.replaceDelimited opening closing f t with
  | case1 => exact h
  | case2 => exact h
  | case3 t before after inner rest hafter value c opening' ht hvalue _ ih =>
    obtain ⟨hbefore, hafter'⟩ := h.splitFirst? ho ht
    obtain ⟨hinner, hrest⟩ := hafter'.splitFirst? hc hafter
    exact (hbefore.append (hf hinner hvalue)).append (ih hrest ho)
  | case4 t before after inner rest hafter c opening' ht hvalue _ ih =>
    -- the token is declined, and the search goes on behind its first character, a mark
    have hmark : isMark c = true := by
      have hhead := (Bool.and_eq_true _ _ ▸ ho : _ ∧ _).1
      simpa using hhead
    have heq : t = before ++ c :: (opening' ++ after) := by
      rw [Text.eq_of_splitFirst? ht]
      simp
    obtain ⟨hbefore, hafter'⟩ := at_mark (heq ▸ h) hmark
    simpa using (hbefore.append (of_isMark hmark)).append (ih hafter' ho)
  | case5 => exact h

theorem replaceNested {opening : Text} {value : Text → Text} (h : Spelled p t) (ho : isBounded opening = true)
    (hnul : '\x00' ∉ opening) (hvalue : ∀ {name}, Spelled p name → Spelled p (value name)) :
    Spelled p (DirectiveEngine.replaceNested opening value t) := by
  have hhead := (Bool.and_eq_true _ _ ▸ ho : _ ∧ _).1
  have ho' : isBounded (opening ++ ['%']) = true := by
    obtain ⟨c, o, rfl⟩ := List.exists_cons_of_ne_nil (ne_nil_of_isBounded ho)
    simp only [isBounded, List.getLast?_concat, Bool.and_eq_true]
    exact ⟨by simpa using hhead, rfl⟩
  fun_induction DirectiveEngine.replaceNested opening value t with
  | case1 => exact h
  | case2 t before after ht name rest hafter ih =>
    obtain ⟨hbefore, hafter'⟩ := h.splitFirst? ho' ht
    obtain ⟨hname, hrest⟩ := hafter'.splitFirst? rfl hafter
    exact (hbefore.append (hvalue hname)).append (ih (at_mark (a := []) hrest rfl).2)
  | case3 t before after ht _ ih =>
    obtain ⟨hbefore, hafter⟩ := h.splitFirst? ho' ht
    exact (hbefore.append (of_not_mem (by simpa using hnul))).append (ih hafter)

theorem replaceImplicitVariables {store : Store} {actor : Actor} (h : Spelled p t)
    (hvalue : ∀ name, '\x00' ∉ implicitValue store actor name) :
    Spelled p (DirectiveEngine.replaceImplicitVariables store actor t) := by
  have hsign : Spelled p ['%'] := of_isMark rfl
  fun_induction DirectiveEngine.replaceImplicitVariables store actor t with
  | case1 => exact h
  | case2 => exact h
  | case3 t before after ht name rest hafter value _ ih =>
    obtain ⟨hbefore, hafter'⟩ := h.splitFirst? rfl ht
    obtain ⟨hname, hrest⟩ := hafter'.splitFirst? rfl hafter
    simpa using (hbefore.append (hsign.append hname)).append (ih (hsign.append hrest))
  | case4 t before after ht name rest hafter value _ ih =>
    obtain ⟨hbefore, hafter'⟩ := h.splitFirst? rfl ht
    obtain ⟨-, hrest⟩ := hafter'.splitFirst? rfl hafter
    exact (hbefore.append (of_not_mem (hvalue name))).append (ih hrest)

/-! ### Pieces -/

theorem splitToken (h : Spelled p t) :
    Spelled p (DirectiveEngine.splitToken t).1 ∧ Spelled p (DirectiveEngine.splitToken t).2 := by
  have heq := splitToken_append t
  cases hr : (DirectiveEngine.splitToken t).2 with
  | nil =>
    rw [hr, List.append_nil] at heq
    exact ⟨by rwa [heq], nil⟩
  | cons c r =>
    have hend : endsToken c = true := by
      have hne : (t.dropWhile fun c => !endsToken c) ≠ [] := by
        rw [show t.dropWhile _ = _ from hr]
        simp
      have := List.head_dropWhile_not (fun c => !endsToken c) hne
      simpa [show t.dropWhile (fun c => !endsToken c) = _ from hr] using this
    have hmark : isMark c = true := isMark_of_endsToken hend
    rw [hr] at heq
    have h' : Spelled p ((DirectiveEngine.splitToken t).1 ++ c :: r) := by
      rw [heq]
      exact h
    obtain ⟨h₁, h₂⟩ := h'.at_mark hmark
    exact ⟨h₁, (of_isMark hmark).append h₂⟩

end Spelled

/-- The text of a piece as it stands between the marks of its token. -/
def Piece.inner : Piece → Text
  | plain t => t
  | token t => t

theorem Spelled.markedPieces {mark : Char} (h : Spelled p t) (hm : isMark mark = true) :
    ∀ x ∈ DirectiveEngine.markedPieces mark t, Spelled p x.inner := by
  have hm' : isBounded [mark, mark] = true := by simp [isBounded, hm]
  fun_induction DirectiveEngine.markedPieces mark t with
  | case1 => simpa [Piece.inner] using h
  | case2 t before after ht ih =>
    obtain ⟨hbefore, hafter⟩ := h.splitFirst? hm' ht
    obtain ⟨hinner, hrest⟩ := hafter.splitToken
    simpa [Piece.inner] using ⟨hbefore, hinner, ih hrest⟩

theorem Spelled.groupPieces (h : Spelled p t) : ∀ x ∈ DirectiveEngine.groupPieces t, Spelled p x.inner := by
  fun_induction DirectiveEngine.groupPieces t with
  | case1 => simpa [Piece.inner] using h
  | case2 => simpa [Piece.inner] using h
  | case3 t before after ht inner rest hafter ih =>
    obtain ⟨hbefore, hafter'⟩ := h.splitFirst? rfl ht
    obtain ⟨hinner, hrest⟩ := at_mark (eq_of_splitGroup? hafter ▸ hafter') rfl
    simpa [Piece.inner] using ⟨hbefore, hinner, ih hrest⟩

end DirectiveEngine
