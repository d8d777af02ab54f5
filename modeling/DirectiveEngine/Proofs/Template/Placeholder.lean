import DirectiveEngine.Proofs.Number
import DirectiveEngine.Proofs.Store
import DirectiveEngine.Template.Argument
import DirectiveEngine.Template.Server
import DirectiveEngine.Template.Variable
import Mathlib.Data.List.Nodup

/-!
# Placeholders

A placeholder is what stands between percent signs; it has a value in a scene: the arguments, the actor, the
variables and the server.  Where the scene is plain, so is every value, but for the commas of a list
(`Scene.isListing_value`).
-/

namespace DirectiveEngine

/-! ### Placeholders -/

/-- The placeholders that are one word. -/
inductive Word where
  | args
  | player
  | uuid
  | playerUuid
  | world
  | level
  | gamemode
  | players
  | playersUuid
  | playerCount
  | teams
  deriving DecidableEq

def Word.all : List Word :=
  [args, player, uuid, playerUuid, world, level, gamemode, players, playersUuid, playerCount, teams]

def Word.name : Word → Text
  | args => "args"
  | player => "player"
  | uuid => "uuid"
  | playerUuid => "player_uuid"
  | world => "world"
  | level => "level"
  | gamemode => "gamemode"
  | players => "players"
  | playersUuid => "players_uuid"
  | playerCount => "playercount"
  | teams => "teams"

inductive Placeholder where
  | word (word : Word)
  /-- A single argument, counted from 1. -/
  | argument (n : Nat)
  /-- An explicit reference to a variable. -/
  | reference (k : Text)
  /-- The members of a team, or their identifiers. -/
  | members (ids : Bool) (team : Text)
  /-- The members of the team that a variable names. -/
  | membersOf (ids : Bool) (k : Text)
  /-- The bare name of a variable. -/
  | named (k : Text)
  deriving DecidableEq

def memberList (ids : Bool) : Text :=
  if ids then "teamplayers_uuid:" else "teamplayers:"

namespace Placeholder

/-- What stands between the percent signs. -/
def spans : Placeholder → List Text
  | word w => [w.name]
  | argument n => ["arg" ++ natText n]
  | reference k => ["var:" ++ k]
  | members ids team => [memberList ids ++ team]
  | membersOf ids k => [memberList ids, k, []]
  | named k => [k]

def written (x : Placeholder) : Text :=
  x.spans.flatMap ('%' :: ·) ++ ['%']

/-- When its turn comes. -/
def rank : Placeholder → Nat
  | word .args => 0
  | argument _ => 1
  | word .player => 2
  | word .uuid => 3
  | word .playerUuid => 4
  | word .world => 5
  | word .level => 6
  | word .gamemode => 7
  | reference _ => 8
  | word .players => 9
  | word .playersUuid => 10
  | word .playerCount => 11
  | word .teams => 12
  | membersOf false _ => 13
  | members false _ => 14
  | membersOf true _ => 15
  | members true _ => 16
  | named _ => 17

/-- A placeholder without its own text or number. -/
def shape : Placeholder → Placeholder
  | word w => word w
  | argument _ => argument 0
  | reference _ => reference []
  | members ids _ => members ids []
  | membersOf ids _ => membersOf ids []
  | named _ => named []

def shapes : List Placeholder :=
  Word.all.map word ++
    [argument 0, reference [], members false [], members true [], membersOf false [], membersOf true [], named []]

end Placeholder

/-! ### Scenes -/

/-- What gives placeholders a meaning. -/
structure Scene where
  actor : Actor
  snapshot : Snapshot
  args : List Text
  store : Store
  server : ServerFacts

namespace Scene

/-- How a member is listed. -/
def render (s : Scene) (ids : Bool) : Text → Text :=
  if ids then memberId s.server else id

/-- What a name inside another placeholder stands for. -/
def inner (s : Scene) (k : Text) : Text :=
  if (s.store.resolve s.actor k).isEmpty then k else s.store.resolve s.actor k

def wordValue (s : Scene) : Word → Text
  | .args => Text.join " " s.args
  | .player => s.snapshot.name
  | .uuid => s.snapshot.id
  | .playerUuid => s.snapshot.id
  | .world => s.snapshot.world
  | .level => intText s.snapshot.level
  | .gamemode => s.snapshot.gamemode
  | .players => Text.join "," (s.server.online.map Snapshot.name)
  | .playersUuid => Text.join "," (s.server.online.map Snapshot.id)
  | .playerCount => natText s.server.online.length
  | .teams => Text.join "," (s.server.teams.map Team.name)

def value (s : Scene) : Placeholder → Text
  | .word w => s.wordValue w
  | .argument n => (s.args[n - 1]?).getD []
  | .reference k => s.store.lookup s.actor k
  | .members ids team => teamMembers s.server (s.render ids) team
  | .membersOf ids k => teamMembers s.server (s.render ids) (s.inner k)
  | .named k => s.store.resolve s.actor k

end Scene

/-- The special characters that neither a placeholder nor its value brings in. -/
def quietChars : List Char :=
  ['\\', ';', '&', '\x7b', '\x00']

/-- A text without the characters that any pass looks for. -/
def IsPlain (t : Text) : Prop :=
  ∀ c ∈ t, c ∉ '%' :: ',' :: quietChars

instance (t : Text) : Decidable (IsPlain t) :=
  List.decidableBAll (· ∉ '%' :: ',' :: quietChars) t

theorem IsPlain.append {t u : Text} (ht : IsPlain t) (hu : IsPlain u) : IsPlain (t ++ u) :=
  fun c hc => (List.mem_append.1 hc).elim (ht c) (hu c)

theorem IsPlain.not_mem {t : Text} (h : IsPlain t) {c : Char} (hc : c ∈ '%' :: ',' :: quietChars) : c ∉ t :=
  fun hmem => h c hmem hc

theorem IsPlain.nil : IsPlain [] := by
  simp [IsPlain]

private theorem isPlain_of_isDigit {t : Text} (h : ∀ c ∈ t, c.isDigit = true) : IsPlain t := by
  intro c hc hmem
  have hdigit := h c hc
  simp only [quietChars, List.mem_cons, List.not_mem_nil, or_false] at hmem
  rcases hmem with rfl | rfl | rfl | rfl | rfl | rfl | rfl <;> exact absurd hdigit (by decide)

/-- Further names that stand for facts about the actor. -/
def factNames : List Text :=
  ["x", "y", "z", "health"]

/-- The names that stand for something else than a variable. -/
def builtinNames : List Text :=
  Word.all.map Word.name ++ factNames

/-- A name that only a variable can have. -/
structure IsName (k : Text) : Prop where
  plain : IsPlain k
  ne_nil : k ≠ []
  colon : ':' ∉ k
  parenthesis : '(' ∉ k
  hyphen : k.getLast? ≠ some '-'
  reserved : ∀ start ∈ reservedStarts, ¬ start <+: Text.lower k
  not_builtin : k ∉ builtinNames

namespace Scene

/-- What a template may hold.  A position in a list that fits into memory is at most `maxIndex`. -/
def Admits (s : Scene) : Placeholder → Prop
  | .word _ => True
  | .argument n => 1 ≤ n ∧ n ≤ s.args.length ∧ n ≤ maxIndex
  | .reference k => IsPlain k
  | .members _ team => IsPlain team ∧ team ≠ []
  | .membersOf _ k => IsName k
  | .named k => IsName k ∧ s.store.resolve s.actor k ≠ []

/-- Everything in the scene is plain, and what is listed has a name. -/
structure IsPlain (s : Scene) : Prop where
  snapshot : ∀ t ∈ [s.snapshot.name, s.snapshot.id, s.snapshot.world, s.snapshot.gamemode],
    DirectiveEngine.IsPlain t
  args : ∀ a ∈ s.args, DirectiveEngine.IsPlain a
  store : ∀ actor key, DirectiveEngine.IsPlain (s.store.get actor key)
  online : ∀ p ∈ s.server.online, ∀ t ∈ [p.name, p.id], DirectiveEngine.IsPlain t ∧ t ≠ []
  teams : ∀ team ∈ s.server.teams, ∀ t ∈ team.name :: team.members, DirectiveEngine.IsPlain t ∧ t ≠ []
  found : ∀ {name actor id}, s.server.find? name = some actor → actor.id? = some id →
    DirectiveEngine.IsPlain id ∧ id ≠ []

end Scene

/-! ### Spans -/

variable {s : Scene} {x : Placeholder} {o r : Text}

theorem colon_not_mem_builtin : ∀ o ∈ builtinNames, ':' ∉ o := by
  decide

theorem isPlain_builtin : ∀ o ∈ builtinNames, IsPlain o ∧ o.head? ≠ some ' ' ∧ o ≠ [] := by
  decide

theorem factNames_builtin : ∀ o ∈ factNames, o ∈ builtinNames ∧ ∀ w ∈ Word.all, o ≠ w.name := by
  decide

theorem Word.mem_all (w : Word) : w ∈ all := by
  cases w <;> decide

theorem Word.name_mem_builtin (w : Word) : w.name ∈ builtinNames := by
  cases w <;> decide

theorem Word.name_injective {v w : Word} (h : v.name = w.name) : v = w := by
  have hnodup : (Word.all.map Word.name).Nodup := by decide
  exact List.inj_on_of_nodup_map hnodup v.mem_all w.mem_all h

private theorem eq_of_arg_append : ∀ o ∈ builtinNames, ∀ {r : Text}, o = "arg" ++ r → r = "s" := by
  have h : ∀ o ∈ builtinNames, ∀ r ∈ Text.stripPrefix? "arg" o, r = "s" := by
    decide
  intro o ho r hr
  refine h o ho r ?_
  rw [hr]
  exact Text.isPrefixOf?_append_self _ _

theorem IsName.implicit {k : Text} (h : IsName k) : isImplicitVariable k = true := by
  have hchars : (k.any fun c => c == ':' || c == '(') = false := by
    refine List.any_eq_false.2 fun c hc hor => ?_
    rcases Bool.or_eq_true_iff.1 hor with heq | heq
    · exact h.colon (eq_of_beq heq ▸ hc)
    · exact h.parenthesis (eq_of_beq heq ▸ hc)
  have hstarts : (reservedStarts.any fun start => Text.startsWith start (Text.lower k)) = false :=
    List.any_eq_false.2 fun start hstart hprefix =>
      h.reserved start hstart (List.isPrefixOf_iff_prefix.1 hprefix)
  have hlast : (k.getLast? != some '-') = true := bne_iff_ne.2 h.hyphen
  rw [isImplicitVariable, hchars, hstarts, hlast]
  rfl

/-- A name does not start like an argument. -/
theorem IsName.ne_arg {k : Text} (h : IsName k) : k ≠ "arg" ++ r := by
  rintro rfl
  have hlower : Text.lower ("arg" ++ r) = "arg" ++ Text.lowerAfter ['g', 'r', 'a'] r := rfl
  refine h.reserved "arg".toList (by decide) ?_
  rw [hlower]
  exact List.prefix_append _ _

private theorem Placeholder.shape_mem (x : Placeholder) : x.shape ∈ shapes := by
  cases x with
  | word w => exact List.mem_append_left _ (List.mem_map_of_mem w.mem_all)
  | members ids team => cases ids <;> simp [shape, shapes]
  | membersOf ids k => cases ids <;> simp [shape, shapes]
  | _ => simp [shape, shapes]

private theorem Placeholder.rank_shape (x : Placeholder) : x.shape.rank = x.rank := by
  cases x with
  | members ids team => cases ids <;> rfl
  | membersOf ids k => cases ids <;> rfl
  | _ => rfl

theorem Placeholder.rank_le (x : Placeholder) : x.rank ≤ 17 := by
  have h : ∀ y ∈ shapes, y.rank ≤ 17 := by decide
  rw [← x.rank_shape]
  exact h _ x.shape_mem

/-- Placeholders that are replaced together differ in their text or number only. -/
theorem Placeholder.shape_eq_of_rank {y : Placeholder} (h : x.rank = y.rank) : x.shape = y.shape := by
  have hnodup : (shapes.map rank).Nodup := by decide
  refine List.inj_on_of_nodup_map hnodup x.shape_mem y.shape_mem ?_
  rw [x.rank_shape, y.rank_shape, h]

theorem isPlain_spans (h : s.Admits x) : ∀ b ∈ x.spans, IsPlain b := by
  have hlist (ids : Bool) : IsPlain (memberList ids) := by cases ids <;> decide
  have harg : IsPlain ("arg" : Text) := by decide
  have hvar : IsPlain ("var:" : Text) := by decide
  cases x with
  | word w => simpa [Placeholder.spans] using (isPlain_builtin _ w.name_mem_builtin).1
  | argument n =>
    simpa [Placeholder.spans] using
      harg.append (isPlain_of_isDigit fun c hc => isDigit_of_mem_natText hc)
  | reference k => simpa [Placeholder.spans] using hvar.append h
  | members ids team => simpa [Placeholder.spans] using (hlist ids).append h.1
  | membersOf ids k => simpa [Placeholder.spans] using ⟨hlist ids, h.plain, IsPlain.nil⟩
  | named k => simpa [Placeholder.spans] using h.1.plain

theorem percent_not_mem_spans (h : s.Admits x) : ∀ b ∈ x.spans, '%' ∉ b :=
  fun b hb => (isPlain_spans h b hb).not_mem (by decide)

/-- A built-in name stands in a placeholder only as a word. -/
theorem eq_word_of_mem_spans (h : s.Admits x) (ho : o ∈ builtinNames) (hmem : o ∈ x.spans) : ∃ w, x = .word w := by
  have hcolon := colon_not_mem_builtin o ho
  cases x with
  | word w => exact ⟨w, rfl⟩
  | argument n =>
    have hdigit : ∀ r, natText n = r → r ≠ "s" := by
      rintro r rfl hs
      exact not_mem_natText (c := 's') (n := n) (by decide) (by rw [hs]; decide)
    exact absurd (eq_of_arg_append o ho (List.mem_singleton.1 hmem)) (hdigit _ rfl)
  | reference k =>
    rw [List.mem_singleton.1 hmem] at hcolon
    simp at hcolon
  | members ids team =>
    rw [List.mem_singleton.1 hmem] at hcolon
    cases ids <;> simp [memberList] at hcolon
  | membersOf ids k =>
    simp only [Placeholder.spans, List.mem_cons, List.not_mem_nil, or_false] at hmem
    rcases hmem with rfl | rfl | rfl
    · cases ids <;> simp [memberList] at hcolon
    · exact absurd ho h.not_builtin
    · exact absurd rfl (isPlain_builtin _ ho).2.2
  | named k => exact absurd (List.mem_singleton.1 hmem ▸ ho) h.1.not_builtin

/-- What starts like an argument is one, or all of them. -/
theorem eq_argument_of_mem_spans (h : s.Admits x) (hmem : "arg" ++ r ∈ x.spans) :
    x = .word .args ∧ r = "s" ∨ ∃ n, x = .argument n ∧ r = natText n := by
  cases x with
  | word w =>
    have hr := List.mem_singleton.1 hmem
    have hs := eq_of_arg_append _ w.name_mem_builtin hr.symm
    refine .inl ⟨?_, hs⟩
    rw [Word.name_injective (w := w) (v := .args) (by rw [← hr, hs]; rfl)]
  | argument n => exact .inr ⟨n, rfl, List.append_cancel_left (List.mem_singleton.1 hmem)⟩
  | reference k => exact absurd (List.cons_eq_cons.1 (List.mem_singleton.1 hmem)).1 (by decide)
  | members ids team =>
    cases ids <;> exact absurd (List.cons_eq_cons.1 (List.mem_singleton.1 hmem)).1 (by decide)
  | membersOf ids k =>
    simp only [Placeholder.spans, List.mem_cons, List.not_mem_nil, or_false] at hmem
    rcases hmem with hmem | hmem | hmem
    · cases ids <;> exact absurd (List.cons_eq_cons.1 hmem).1 (by decide)
    · exact absurd hmem.symm h.ne_arg
    · simp at hmem
  | named k => exact absurd (List.mem_singleton.1 hmem).symm h.1.ne_arg

theorem eq_reference_of_mem_spans (h : s.Admits x) (hmem : "var:" ++ r ∈ x.spans) : x = .reference r := by
  have hcolon : ':' ∈ "var:" ++ r := by simp
  cases x with
  | word w =>
    rw [List.mem_singleton.1 hmem] at hcolon
    exact absurd hcolon (colon_not_mem_builtin _ w.name_mem_builtin)
  | argument n => exact absurd (List.cons_eq_cons.1 (List.mem_singleton.1 hmem)).1 (by decide)
  | reference k => rw [List.append_cancel_left (List.mem_singleton.1 hmem)]
  | members ids team =>
    cases ids <;> exact absurd (List.cons_eq_cons.1 (List.mem_singleton.1 hmem)).1 (by decide)
  | membersOf ids k =>
    simp only [Placeholder.spans, List.mem_cons, List.not_mem_nil, or_false] at hmem
    rcases hmem with hmem | hmem | hmem
    · cases ids <;> exact absurd (List.cons_eq_cons.1 hmem).1 (by decide)
    · exact absurd (hmem ▸ hcolon) h.colon
    · simp at hmem
  | named k => exact absurd (List.mem_singleton.1 hmem ▸ hcolon) h.1.colon

private theorem memberList_append_eq {ids ids' : Bool} {t t' : Text}
    (h : memberList ids ++ t = memberList ids' ++ t') :
    ids = ids' ∧ t = t' := by
  cases ids <;> cases ids' <;> simp_all [memberList]

/-- What starts like a list of members is one, with its team or with the name of a variable. -/
theorem eq_members_of_mem_spans {ids : Bool} (h : s.Admits x) (hmem : memberList ids ++ r ∈ x.spans) :
    x = .members ids r ∨ (∃ k, x = .membersOf ids k) ∧ r = [] := by
  have hcolon : ':' ∈ memberList ids ++ r := by cases ids <;> simp [memberList]
  have hhead : (memberList ids ++ r).head? = some 't' := by cases ids <;> rfl
  cases x with
  | word w =>
    rw [List.mem_singleton.1 hmem] at hcolon
    exact absurd hcolon (colon_not_mem_builtin _ w.name_mem_builtin)
  | argument n =>
    rw [List.mem_singleton.1 hmem] at hhead
    exact absurd hhead (by simp)
  | reference k =>
    rw [List.mem_singleton.1 hmem] at hhead
    exact absurd hhead (by simp)
  | members ids' team =>
    obtain ⟨rfl, rfl⟩ := memberList_append_eq (List.mem_singleton.1 hmem)
    exact .inl rfl
  | membersOf ids' k =>
    simp only [Placeholder.spans, List.mem_cons, List.not_mem_nil, or_false] at hmem
    rcases hmem with hmem | hmem | hmem
    · obtain ⟨rfl, rfl⟩ := memberList_append_eq (hmem.trans (List.append_nil _).symm)
      exact .inr ⟨⟨k, rfl⟩, rfl⟩
    · exact absurd (hmem ▸ hcolon) h.colon
    · rw [hmem] at hcolon
      simp at hcolon
  | named k => exact absurd (List.mem_singleton.1 hmem ▸ hcolon) h.1.colon

/-! ### Values -/

/-- A list has commas between its entries, and each entry is plain and has a character. -/
def IsListing (t : Text) : Prop :=
  IsPlain t ∨ ∃ parts : List Text, t = Text.join "," parts ∧ ∀ part ∈ parts, IsPlain part ∧ part ≠ []

private theorem isPlain_intText (i : Int) : IsPlain (intText i) := by
  cases i with
  | ofNat n => exact isPlain_of_isDigit fun c hc => isDigit_of_mem_natText hc
  | negSucc n =>
    intro c hc
    rcases List.mem_cons.1 hc with rfl | hc
    · decide
    · exact isPlain_of_isDigit (fun c hc => isDigit_of_mem_natText hc) c hc

private theorem isListing_members (hs : s.IsPlain) (ids : Bool) (name : Text) :
    IsListing (teamMembers s.server (s.render ids) name) := by
  unfold teamMembers
  split
  · exact .inl .nil
  · rename_i team hteam
    refine .inr ⟨_, rfl, fun part hp => ?_⟩
    obtain ⟨m, hm, rfl⟩ := List.mem_map.1 hp
    have hplain := hs.teams team (List.mem_of_find?_eq_some hteam) m (List.mem_cons_of_mem _ hm)
    cases ids with
    | false => exact hplain
    | true =>
      unfold Scene.render memberId
      cases hf : s.server.find? m with
      | none => simpa [hf] using hplain
      | some actor =>
        cases hid : actor.id? with
        | none => simpa [hf, hid] using hplain
        | some id => simpa [hf, hid] using hs.found hf hid

/-- In a plain scene every value is plain or a list of plain texts. -/
theorem Scene.isListing_value (hs : s.IsPlain) (h : s.Admits x) : IsListing (s.value x) := by
  have hresolve : ∀ k, DirectiveEngine.IsPlain (s.store.resolve s.actor k) := by
    intro k c hc hmem
    exact Store.not_mem_resolve (fun actor key hc => hs.store actor key c hc hmem) hc
  have hlist {α : Type} {as : List α} {f : α → Text} (h : ∀ a ∈ as, DirectiveEngine.IsPlain (f a) ∧ f a ≠ []) :
      IsListing (Text.join "," (as.map f)) := by
    refine .inr ⟨_, rfl, fun part hp => ?_⟩
    obtain ⟨a, ha, rfl⟩ := List.mem_map.1 hp
    exact h a ha
  cases x with
  | word w =>
    cases w with
    | args =>
      refine .inl fun c hc => ?_
      rcases Text.mem_of_mem_join hc with hc | ⟨a, ha, hc⟩
      · rw [List.mem_singleton.1 hc]
        decide
      · exact hs.args a ha c hc
    | player => exact .inl (hs.snapshot _ (by simp [Scene.value, Scene.wordValue]))
    | uuid => exact .inl (hs.snapshot _ (by simp [Scene.value, Scene.wordValue]))
    | playerUuid => exact .inl (hs.snapshot _ (by simp [Scene.value, Scene.wordValue]))
    | world => exact .inl (hs.snapshot _ (by simp [Scene.value, Scene.wordValue]))
    | level => exact .inl (isPlain_intText _)
    | gamemode => exact .inl (hs.snapshot _ (by simp [Scene.value, Scene.wordValue]))
    | players => exact hlist fun p hp => hs.online p hp _ (by simp)
    | playersUuid => exact hlist fun p hp => hs.online p hp _ (by simp)
    | playerCount => exact .inl (isPlain_of_isDigit fun c hc => isDigit_of_mem_natText hc)
    | teams => exact hlist fun team ht => hs.teams team ht _ (by simp)
  | argument n =>
    cases ha : s.args[n - 1]? with
    | none => exact .inl (by simpa [Scene.value, ha] using IsPlain.nil)
    | some a => exact .inl (by simpa [Scene.value, ha] using hs.args a (List.mem_of_getElem? ha))
  | reference k =>
    refine .inl fun c hc hmem => ?_
    exact Store.not_mem_lookup (fun actor key hc => hs.store actor key c hc hmem) k hc
  | members ids team => exact isListing_members hs ids team
  | membersOf ids k => exact isListing_members hs ids _
  | named k => exact .inl (hresolve k)

/-- The commas of a list are the only special characters in it. -/
theorem IsListing.not_mem {t : Text} (h : IsListing t) {c : Char} (hc : c ∈ '%' :: quietChars) : c ∉ t := by
  have hspecial : c ∈ '%' :: ',' :: quietChars :=
    (List.mem_cons.1 hc).elim (fun h => h ▸ List.mem_cons_self) fun h => by simp [h]
  rcases h with h | ⟨parts, rfl, h⟩
  · exact h.not_mem hspecial
  · intro hmem
    rcases Text.mem_of_mem_join hmem with hmem | ⟨part, hp, hmem⟩
    · rw [List.mem_singleton.1 hmem] at hc
      exact absurd hc (by decide)
    · exact (h part hp).1.not_mem hspecial hmem

/-- No two commas of a list stand side by side. -/
theorem IsListing.splitFirst? {t : Text} (h : IsListing t) : Text.splitFirst? [',', ','] t = none := by
  have hcomma : ∀ {t : Text}, IsPlain t → ',' ∉ t := fun ht => ht.not_mem (by decide)
  rcases h with h | ⟨parts, rfl, h⟩
  · exact Text.splitFirst?_eq_none (by simp) (hcomma h)
  · induction parts with
    | nil => rfl
    | cons part parts ih =>
      obtain ⟨hplain, hne⟩ := h part List.mem_cons_self
      have ih := ih fun p hp => h p (List.mem_cons_of_mem _ hp)
      -- between two commas of the list stands an entry, and it has a character
      cases parts with
      | nil => simpa [Text.join] using Text.splitFirst?_eq_none (by simp) (hcomma hplain)
      | cons next parts =>
        have hjoin : Text.join "," (part :: next :: parts) = part ++ ',' :: Text.join "," (next :: parts) := by
          simp [Text.join, List.intercalate_cons_cons]
        have hpair : ¬ [',', ','] <+: ',' :: Text.join "," (next :: parts) := by
          intro hp
          obtain ⟨hnext, hne'⟩ := h next (by simp)
          obtain ⟨c, n, rfl⟩ := List.exists_cons_of_ne_nil hne'
          have hc : ',' ≠ c := List.ne_of_not_mem_cons (hcomma hnext)
          cases parts <;> simp [Text.join, hc, List.intercalate_cons_cons] at hp
        rw [hjoin, Text.splitFirst?_append (hcomma hplain), Text.splitFirst?_cons hpair, ih]
        rfl

end DirectiveEngine
