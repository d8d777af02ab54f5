import DirectiveEngine.Json.Path
import DirectiveEngine.Proofs.Text.Search
import DirectiveEngine.Proofs.Text.Trim

/-!
# JSON as it is written

Values with the blanks between their tokens, so that a part of a document has a text of its own (`Value.text`).  The
brackets of each kind are balanced in a value (`Value.passes_text`), so a path reads a value up to its end, whatever
stands behind it (`value?_text`).
-/

namespace DirectiveEngine.JsonText

/-! ### Documents -/

/-- A text of characters of one kind. -/
structure TextOf (p : Char → Bool) where
  text : Text
  all : text.all p = true := by decide

abbrev Blank : Type := TextOf isBlank

/-- What may stand in a key: letters, digits, `_`, `-`, and all else that means nothing in JSON and in paths. -/
def isKeyChar (c : Char) : Bool :=
  !isBlank c && c ∉ ['"', '\\', ':', ',', '.', '\x7b', '\x7d', '[', ']']

abbrev Key : Type := TextOf isKeyChar

def isStringChar (c : Char) : Bool :=
  c ∉ ['"', '\\', '\x7b', '\x7d', '[', ']']

/-- What numbers, booleans and null are written with. -/
def isScalarChar (c : Char) : Bool :=
  c.isAlphanum || c ∈ ['+', '-', '.']

structure Scalar extends TextOf isScalarChar where
  ne_nil : text ≠ [] := by decide

/-- Something with blanks around it. -/
structure Padded (α : Type) where
  before : Blank := ⟨[], rfl⟩
  value : α
  behind : Blank := ⟨[], rfl⟩

structure Member (α : Type) where
  key : Padded Key
  value : Padded α

/-- A value as it is written, with the blanks behind the opening bracket of a collection. -/
inductive Value where
  | string (t : TextOf isStringChar)
  | scalar (s : Scalar)
  | array (blank : Blank) (items : List (Padded Value))
  | object (blank : Blank) (members : List (Member Value))

namespace Value

mutual

def text : Value → Text
  | string t => '"' :: (t.text ++ ['"'])
  | scalar s => s.text
  | array blank items => '[' :: (blank.text ++ (itemsText [] items ++ [']']))
  | object blank members => '\x7b' :: (blank.text ++ (membersText [] members ++ ['\x7d']))

/-- The items of an array, with a comma in front of each but the first one. -/
def itemsText (sep : Text) : List (Padded Value) → Text
  | [] => []
  | ⟨before, v, behind⟩ :: items =>
    sep ++ (before.text ++ (v.text ++ (behind.text ++ itemsText [','] items)))

def membersText (sep : Text) : List (Member Value) → Text
  | [] => []
  | ⟨⟨before, key, behind⟩, ⟨before', v, behind'⟩⟩ :: members =>
    sep ++ (before.text ++ ('"' :: (key.text ++ '"' :: (behind.text ++ ':' ::
      (before'.text ++ (v.text ++ (behind'.text ++ membersText [','] members)))))))

end

/-- What a path reads of a value: a string without its quotes, and anything else as it is written. -/
def content : Value → Text
  | string t => t.text
  | v => v.text

end Value

/-- An object as the whole of a text. -/
structure Document where
  before : Blank := ⟨[], rfl⟩
  blank : Blank := ⟨[], rfl⟩
  members : List (Member Value)
  behind : Blank := ⟨[], rfl⟩

namespace Document

def root (d : Document) : Value :=
  .object d.blank d.members

def text (d : Document) : Text :=
  d.before.text ++ (d.root.text ++ d.behind.text)

end Document

/-! ### Brackets -/

section Brackets

variable {opening closing : Char} {t u r : Text}

/-- The text closes no bracket that is open in front of it, and leaves none open. -/
def Passes (opening closing : Char) (t : Text) : Prop :=
  ∀ depth, 0 < depth → ∀ r,
    JsonPath.balanced opening closing depth (t ++ r) = t ++ JsonPath.balanced opening closing depth r

namespace Passes

theorem nil : Passes opening closing [] :=
  fun _ _ _ => rfl

theorem append (ht : Passes opening closing t) (hu : Passes opening closing u) : Passes opening closing (t ++ u) := by
  intro depth hdepth r
  rw [List.append_assoc, ht depth hdepth, hu depth hdepth, List.append_assoc]

theorem cons {c : Char} (hopen : c ≠ opening) (hclose : c ≠ closing) (ht : Passes opening closing t) :
    Passes opening closing (c :: t) := by
  intro depth hdepth r
  rw [List.cons_append, JsonPath.balanced, if_neg hopen, if_neg hclose, ht depth hdepth]
  rfl

theorem of_forall (h : ∀ c ∈ t, c ≠ opening ∧ c ≠ closing) : Passes opening closing t := by
  induction t with
  | nil => exact nil
  | cons c t ih =>
    obtain ⟨hopen, hclose⟩ := h c List.mem_cons_self
    exact cons hopen hclose (ih fun d hd => h d (List.mem_cons_of_mem c hd))

/-- What the brackets enclose is read to the end, and then the bracket that closes them. -/
private theorem balanced_enclosed (hne : opening ≠ closing) (ht : Passes opening closing t) (depth : Nat) (r : Text) :
    JsonPath.balanced opening closing depth (opening :: (t ++ closing :: r)) =
      opening :: (t ++ closing :: if depth = 0 then [] else JsonPath.balanced opening closing depth r) := by
  rw [JsonPath.balanced, if_pos rfl, ht (depth + 1) (Nat.succ_pos depth), JsonPath.balanced, if_neg hne.symm,
    if_pos rfl]
  split <;> split <;> first | rfl | omega

theorem enclosed (hne : opening ≠ closing) (ht : Passes opening closing t) :
    Passes opening closing (opening :: (t ++ [closing])) := by
  intro depth hdepth r
  have hwhole := balanced_enclosed hne ht depth r
  rw [if_neg (Nat.pos_iff_ne_zero.1 hdepth)] at hwhole
  simpa using hwhole

end Passes

/-- The two kinds of brackets. -/
inductive AreBrackets : Char → Char → Prop
  | curly : AreBrackets '\x7b' '\x7d'
  | square : AreBrackets '[' ']'

theorem Passes.bracketed {left right : Char} (h : AreBrackets opening closing) (hb : AreBrackets left right)
    (ht : Passes opening closing t) : Passes opening closing (left :: (t ++ [right])) := by
  have hother (c : Char) (hopen : c ≠ opening) (hclose : c ≠ closing) : Passes opening closing [c] :=
    Passes.cons hopen hclose .nil
  cases h <;> cases hb
  · exact ht.enclosed (by decide)
  · exact (ht.append (hother ']' (by decide) (by decide))).cons (by decide) (by decide)
  · exact (ht.append (hother '\x7d' (by decide) (by decide))).cons (by decide) (by decide)
  · exact ht.enclosed (by decide)

theorem Passes.textOf {p : Char → Bool} (t : TextOf p) (hopen : p opening = false) (hclose : p closing = false) :
    Passes opening closing t.text := by
  refine of_forall fun c hc => ?_
  have hp : p c = true := List.all_eq_true.1 t.all c hc
  refine ⟨fun heq => ?_, fun heq => ?_⟩
  · rw [heq, hopen] at hp
    cases hp
  · rw [heq, hclose] at hp
    cases hp

theorem Passes.blank (h : AreBrackets opening closing) (b : Blank) : Passes opening closing b.text :=
  .textOf b (by cases h <;> decide) (by cases h <;> decide)

theorem Passes.comma (h : AreBrackets opening closing) : Passes opening closing [','] := by
  cases h <;> exact .cons (by decide) (by decide) .nil

/-- What stands in quotes has no bracket in it. -/
theorem Passes.quoted {p : Char → Bool} (h : AreBrackets opening closing) (t : TextOf p) (hopen : p opening = false)
    (hclose : p closing = false) : Passes opening closing ('"' :: (t.text ++ ['"'])) := by
  have hquote : '"' ≠ opening ∧ '"' ≠ closing := by cases h <;> decide
  exact ((textOf t hopen hclose).append (.cons hquote.1 hquote.2 .nil)).cons hquote.1 hquote.2

mutual

/-- The brackets of each kind are balanced in a value. -/
theorem Value.passes_text (h : AreBrackets opening closing) : (v : Value) → Passes opening closing v.text
  | .string t => .quoted h t (by cases h <;> decide) (by cases h <;> decide)
  | .scalar s => .textOf s.toTextOf (by cases h <;> decide) (by cases h <;> decide)
  | .array blank items => by
    rw [text, ← List.append_assoc]
    exact ((Passes.blank h blank).append (passes_itemsText h .nil items)).bracketed h .square
  | .object blank members => by
    rw [text, ← List.append_assoc]
    exact ((Passes.blank h blank).append (passes_membersText h .nil members)).bracketed h .curly

theorem Value.passes_itemsText (h : AreBrackets opening closing) {sep : Text} (hsep : Passes opening closing sep) :
    (items : List (Padded Value)) → Passes opening closing (itemsText sep items)
  | [] => .nil
  | ⟨before, v, behind⟩ :: items => by
    exact hsep.append ((Passes.blank h before).append ((v.passes_text h).append
      ((Passes.blank h behind).append (passes_itemsText h (.comma h) items))))

theorem Value.passes_membersText (h : AreBrackets opening closing) {sep : Text} (hsep : Passes opening closing sep) :
    (members : List (Member Value)) → Passes opening closing (membersText sep members)
  | [] => .nil
  | ⟨⟨before, key, behind⟩, ⟨before', v, behind'⟩⟩ :: members => by
    have hcolon : ':' ≠ opening ∧ ':' ≠ closing := by cases h <;> decide
    have hkey := Passes.quoted h key (by cases h <;> decide) (by cases h <;> decide)
    have hvalue : Passes opening closing
        (':' :: (before'.text ++ (v.text ++ (behind'.text ++ membersText [','] members)))) :=
      ((Passes.blank h before').append ((v.passes_text h).append
        ((Passes.blank h behind').append (passes_membersText h (.comma h) members)))).cons hcolon.1 hcolon.2
    simpa [membersText] using
      hsep.append ((Passes.blank h before).append (hkey.append ((Passes.blank h behind).append hvalue)))

end

end Brackets

/-! ### Reading a value -/

variable {r : Text}

/-- Behind blanks there is a character that ends a number, a boolean or null. -/
def EndsValue (r : Text) : Prop :=
  ∃ (blank : Blank) (c : Char) (t : Text), r = blank.text ++ c :: t ∧ c ∈ [',', '\x7d', ']']

theorem not_isBlank_of_isScalarChar {c : Char} (h : isScalarChar c = true) : isBlank c = false := by
  simp only [isScalarChar, Bool.or_eq_true, decide_eq_true_eq, List.mem_cons, List.not_mem_nil, or_false] at h
  rcases h with h | rfl | rfl | rfl
  · exact not_isBlank_of_isAlphanum h
  all_goals decide

theorem TextOf.forall {p : Char → Bool} (t : TextOf p) : ∀ c ∈ t.text, p c = true :=
  List.all_eq_true.1 t.all

theorem TextOf.not_mem {p : Char → Bool} (t : TextOf p) {c : Char} (hc : p c = false) : c ∉ t.text := by
  intro hmem
  rw [t.forall c hmem] at hc
  cases hc

theorem Scalar.exists_eq_cons (s : Scalar) : ∃ c t, s.text = c :: t ∧ isScalarChar c = true := by
  obtain ⟨c, t, ht⟩ := List.exists_cons_of_ne_nil s.ne_nil
  exact ⟨c, t, ht, s.forall c (ht ▸ List.mem_cons_self)⟩

theorem Value.exists_text_eq_cons (v : Value) : ∃ c t, v.text = c :: t ∧ isBlank c = false := by
  cases v with
  | string t => exact ⟨'"', _, rfl, rfl⟩
  | scalar s =>
    obtain ⟨c, t, ht, hc⟩ := s.exists_eq_cons
    exact ⟨c, t, ht, not_isBlank_of_isScalarChar hc⟩
  | array => exact ⟨'[', _, rfl, rfl⟩
  | object => exact ⟨'\x7b', _, rfl, rfl⟩

/-- What stands in no quotes and no brackets is read up to a comma or a closing bracket. -/
theorem value?_of_ne {c : Char} (hc : c ∉ ['"', '\x7b', '[']) (t : Text) :
    JsonPath.value? (c :: t) =
      some (Text.trim ((c :: t).takeWhile fun c => c != ',' && c != '\x7d' && c != ']')) := by
  unfold JsonPath.value?
  split <;> simp_all

theorem Scalar.value?_text (s : Scalar) (h : EndsValue r) : JsonPath.value? (s.text ++ r) = some s.text := by
  obtain ⟨blank, e, t, rfl, he⟩ := h
  obtain ⟨c, s', hs, hc⟩ := s.exists_eq_cons
  have hstart : c ∉ ['"', '\x7b', '['] := by
    intro hmem
    simp only [List.mem_cons, List.not_mem_nil, or_false] at hmem
    rcases hmem with rfl | rfl | rfl <;> exact absurd hc (by decide)
  have hstays : ∀ d ∈ s.text ++ blank.text, (d != ',' && d != '\x7d' && d != ']') = true := by
    have hnone (d : Char) (hscalar : isScalarChar d = false) (hblank : isBlank d = false) :
        d ∉ s.text ++ blank.text := by
      rw [List.mem_append, not_or]
      exact ⟨s.not_mem hscalar, blank.not_mem hblank⟩
    have hcomma := hnone ',' (by decide) (by decide)
    have hbrace := hnone '\x7d' (by decide) (by decide)
    have hbracket := hnone ']' (by decide) (by decide)
    grind
  have hcut : (s.text ++ (blank.text ++ e :: t)).takeWhile (fun c => c != ',' && c != '\x7d' && c != ']') =
      s.text ++ blank.text := by
    rw [← List.append_assoc, List.takeWhile_append_of_pos hstays, List.takeWhile_cons_of_neg (by grind),
      List.append_nil]
  have hwhole : JsonPath.value? (s.text ++ (blank.text ++ e :: t)) = some (Text.trim (s.text ++ blank.text)) := by
    rw [← hcut, hs]
    exact value?_of_ne hstart _
  rw [hwhole, Text.trim_append_right blank.all, Text.trim_of_not_isBlank]
  exact fun d hd => not_isBlank_of_isScalarChar (s.forall d hd)

/-- The text of a collection is read up to the bracket that closes it. -/
private theorem balanced_collection {opening closing : Char} {t : Text} (h : AreBrackets opening closing)
    (ht : Passes opening closing t) (r : Text) :
    JsonPath.balanced opening closing 0 (opening :: (t ++ closing :: r)) = opening :: (t ++ [closing]) :=
  ht.balanced_enclosed (by cases h <;> decide) 0 r

/-- Whatever stands behind a value, its end is found. -/
theorem Value.value?_text (v : Value) (h : EndsValue r) : JsonPath.value? (v.text ++ r) = some v.content := by
  cases v with
  | string t =>
    have hend : Text.splitFirst? "\"" (t.text ++ ("\"" ++ r)) = some (t.text, r) :=
      Text.splitFirst?_of_not_mem (t.not_mem (by decide)) [] r
    have htext : (string t).text ++ r = '"' :: (t.text ++ ("\"" ++ r)) := by simp [text]
    rw [htext, JsonPath.value?, hend]
    rfl
  | scalar s => exact s.value?_text h
  | array blank items =>
    have htext : (array blank items).text ++ r = '[' :: ((blank.text ++ itemsText [] items) ++ ']' :: r) := by
      simp [text]
    have hinner := (Passes.blank .square blank).append (passes_itemsText .square .nil items)
    rw [htext, JsonPath.value?, balanced_collection .square hinner]
    simp [content, text]
  | object blank members =>
    have htext : (object blank members).text ++ r =
        '\x7b' :: ((blank.text ++ membersText [] members) ++ '\x7d' :: r) := by
      simp [text]
    have hinner := (Passes.blank .curly blank).append (passes_membersText .curly .nil members)
    rw [htext, JsonPath.value?, balanced_collection .curly hinner]
    simp [content, text]

/-- Blanks in front of a value do not matter. -/
theorem Value.value?_trimStart (before : Blank) (v : Value) (h : EndsValue r) :
    JsonPath.value? (Text.trimStart (before.text ++ (v.text ++ r))) = some v.content := by
  obtain ⟨c, t, ht, hc⟩ := v.exists_text_eq_cons
  have hstart : Text.trimStart (before.text ++ (v.text ++ r)) = v.text ++ r := by
    rw [Text.trimStart, List.dropWhile_append_of_pos before.forall, ht]
    exact List.dropWhile_cons_of_neg (by simp [hc])
  rw [hstart, v.value?_text h]

end DirectiveEngine.JsonText
