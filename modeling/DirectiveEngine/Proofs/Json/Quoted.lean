import DirectiveEngine.Proofs.Json.Written

/-!
# What stands in quotes

A path is searched for among the texts in quotes, and the next colon leads on from there.  In the list of what stands in
quotes in a document (`Value.quotes`) these are two steps (`search`, `nextColon`), and on the text they come to the same
(`QuotedIn.search_answers`).
-/

namespace DirectiveEngine.JsonText

/-! ### Quoted texts -/

/-- A text in quotes: a key with its value, or a string. -/
inductive Quoted where
  | key (name : Text) (v : Value)
  | string (t : Text)

namespace Quoted

def text : Quoted → Text
  | key name _ => name
  | string t => t

def key? : Quoted → Option Text
  | key name _ => some name
  | string _ => none

def string? : Quoted → Option Text
  | key _ _ => none
  | string t => some t

end Quoted

namespace Value

mutual

/-- What stands in quotes in a value, at any depth and in the order in which it is written. -/
def quotes : Value → List Quoted
  | string t => [.string t.text]
  | scalar _ => []
  | array _ items => itemsQuotes items
  | object _ members => membersQuotes members

def itemsQuotes : List (Padded Value) → List Quoted
  | [] => []
  | ⟨_, v, _⟩ :: items => quotes v ++ itemsQuotes items

def membersQuotes : List (Member Value) → List Quoted
  | [] => []
  | ⟨⟨_, key, _⟩, ⟨_, v, _⟩⟩ :: members => .key key.text v :: (quotes v ++ membersQuotes members)

end

/-- The keys of an object and of all that it holds. -/
def keys (v : Value) : List Text :=
  v.quotes.filterMap Quoted.key?

/-- The strings in a value. -/
def strings (v : Value) : List Text :=
  v.quotes.filterMap Quoted.string?

/-- What stands in quotes where a path goes on.  A string has lost its own. -/
def quotesInside : Value → List Quoted
  | string _ => []
  | v => v.quotes

end Value

/-! ### Searching -/

/-- Where a search leads. -/
inductive Lead where
  | member (v : Value)
  | nothing
  /-- To a colon in a string, which is that of no member. -/
  | inString

/-- Where the first colon leads. -/
def nextColon : List Quoted → Lead
  | [] => .nothing
  | .key _ v :: _ => .member v
  | .string t :: qs => if ':' ∈ t then .inString else nextColon qs

/-- Where the first colon behind the first place of a text in quotes leads. -/
def search (key : Text) (qs : List Quoted) : Lead :=
  nextColon (qs.dropWhile fun q => q.text != key)

/-- What is read where a search leads. -/
def Lead.Answers : Lead → Option Text → Prop
  | member v, answer => answer = some v.content
  | nothing, answer => answer = none
  | inString, _ => True

@[simp] theorem Lead.answers_member {v : Value} {answer : Option Text} :
    (member v).Answers answer ↔ answer = some v.content :=
  Iff.rfl

@[simp] theorem Lead.answers_nothing {answer : Option Text} : nothing.Answers answer ↔ answer = none :=
  Iff.rfl

/-! ### The scanner -/

variable {t r key : Text} {qs : List Quoted}

/-- What may stand behind a value in front of the next comma or colon. -/
def isClosing (c : Char) : Bool :=
  isBlank c || c ∈ [']', '\x7d']

/-- A part of a path that does not reach from one text in quotes to the next: there a comma or a colon stands. -/
structure IsSegment (key : Text) : Prop where
  no_quote : '"' ∉ key
  no_separator : ∀ c ∈ (key.dropWhile isClosing).head?, c ∉ [',', ':']

/-- The value behind the first colon. -/
def afterColon? (t : Text) : Option Text :=
  (Text.splitFirst? ":" t).bind fun p => JsonPath.value? p.2.trimStart

theorem afterColon?_append {a : Text} (ha : ':' ∉ a) (t : Text) : afterColon? (a ++ t) = afterColon? t := by
  have hcut : Text.splitFirst? ":" (a ++ t) = (Text.splitFirst? ":" t).map fun p => (a ++ p.1, p.2) :=
    Text.splitFirst?_append ha [] t
  rw [afterColon?, hcut, Option.bind_map]
  rfl

theorem afterColon?_colon (t : Text) : afterColon? (':' :: t) = JsonPath.value? t.trimStart := by
  have hcut : Text.splitFirst? ":" (":" ++ t) = some ([], t) := Text.splitFirst?_append_self (by decide) t
  rw [afterColon?]
  show (Text.splitFirst? ":" (":" ++ t)).bind _ = _
  rw [hcut]
  rfl

theorem step?_eq (t key : Text) :
    JsonPath.step? t key = (Text.splitFirst? ('"' :: key ++ ['"']) t).bind fun p =>
      afterColon? ('"' :: key ++ ['"'] ++ p.2) :=
  rfl

/-- Where the key does not stand in quotes, the search goes on. -/
theorem step?_cons {c : Char} (h : ¬ '"' :: key ++ ['"'] <+: c :: t) :
    JsonPath.step? (c :: t) key = JsonPath.step? t key := by
  rw [step?_eq, step?_eq, Text.splitFirst?_cons h, Option.bind_map]
  rfl

theorem step?_append {a : Text} (ha : '"' ∉ a) (t key : Text) :
    JsonPath.step? (a ++ t) key = JsonPath.step? t key := by
  induction a with
  | nil => rfl
  | cons c a ih =>
    rw [List.cons_append, step?_cons, ih fun h => ha (List.mem_cons_of_mem c h)]
    exact fun h => ha (List.mem_cons.2 (.inl (List.cons_prefix_cons.1 h).1))

/-- Where the key stands in quotes, the next colon leads on. -/
theorem step?_found (hkey : ':' ∉ key) (t : Text) :
    JsonPath.step? ('"' :: (key ++ '"' :: t)) key = afterColon? t := by
  have hquoted : ':' ∉ '"' :: key ++ ['"'] := by simpa using hkey
  have htext : '"' :: (key ++ '"' :: t) = '"' :: key ++ ['"'] ++ t := by simp
  rw [step?_eq, htext, Text.splitFirst?_append_self (by simp), Option.bind_some, afterColon?_append hquoted]

/-- No part of a path runs from here up to a quote. -/
def Closed (t : Text) : Prop :=
  ∀ key, IsSegment key → ¬ key ++ ['"'] <+: t

namespace Closed

theorem nil : Closed [] :=
  fun _ _ h => absurd (List.prefix_nil.1 h) (by simp)

theorem cons {c : Char} (hc : isClosing c = true) (ht : Closed t) : Closed (c :: t) := by
  intro key hkey h
  cases key with
  | nil =>
    obtain rfl : '"' = c := (List.cons_prefix_cons.1 h).1
    exact absurd hc (by decide)
  | cons d key =>
    obtain ⟨rfl, hrest⟩ := List.cons_prefix_cons.1 h
    have hsep := hkey.no_separator
    rw [List.dropWhile_cons_of_pos hc] at hsep
    exact ht key ⟨List.not_mem_of_not_mem_cons hkey.no_quote, hsep⟩ hrest

theorem append {a : Text} (ha : ∀ c ∈ a, isClosing c = true) (ht : Closed t) : Closed (a ++ t) := by
  induction a with
  | nil => exact ht
  | cons c a ih => exact cons (ha c List.mem_cons_self) (ih fun d hd => ha d (List.mem_cons_of_mem c hd))

theorem blank (b : Blank) (ht : Closed t) : Closed (b.text ++ t) :=
  append (fun c hc => by rw [isClosing, b.forall c hc, Bool.true_or]) ht

theorem separator {c : Char} (hc : c ∈ [',', ':']) (t : Text) : Closed (c :: t) := by
  have hstays : isClosing c = false ∧ c ≠ '"' := by
    simp only [List.mem_cons, List.not_mem_nil, or_false] at hc
    rcases hc with rfl | rfl <;> decide
  intro key hkey h
  cases key with
  | nil => exact hstays.2 (List.cons_prefix_cons.1 h).1.symm
  | cons d key =>
    obtain ⟨rfl, -⟩ := List.cons_prefix_cons.1 h
    have hsep := hkey.no_separator
    rw [List.dropWhile_cons_of_neg (by rw [hstays.1]; decide)] at hsep
    exact hsep d rfl hc

end Closed

/-- Another text in quotes is passed over, if the key does not stand between the quotes around it. -/
theorem step?_other {s : Text} (hkey : IsSegment key) (hs : '"' ∉ s) (hne : s ≠ key) (ht : Closed t) :
    JsonPath.step? ('"' :: (s ++ '"' :: t)) key = JsonPath.step? t key := by
  have hfront : ¬ '"' :: key ++ ['"'] <+: '"' :: (s ++ '"' :: t) := by
    intro h
    exact hne (Text.eq_of_prefix_append_cons hkey.no_quote hs (List.cons_prefix_cons.1 h).2).symm
  have hbehind : ¬ '"' :: key ++ ['"'] <+: '"' :: t :=
    fun h => ht key hkey (List.cons_prefix_cons.1 h).2
  rw [step?_cons hfront, step?_append hs, step?_cons hbehind]

/-! ### Texts and what stands in quotes in them -/

/-- These are the texts in quotes in a text, and all colons but those of the keys stand in them. -/
inductive QuotedIn : List Quoted → Text → Prop
  | nil : QuotedIn [] []
  | skip {qs : List Quoted} {c : Char} {t : Text} : c ≠ '"' → c ≠ ':' → QuotedIn qs t → QuotedIn qs (c :: t)
  | string {qs : List Quoted} {s t : Text} : '"' ∉ s → Closed t → QuotedIn qs t →
    QuotedIn (.string s :: qs) ('"' :: (s ++ '"' :: t))
  | key {qs : List Quoted} {name t : Text} (between : Blank) {v : Value} : '"' ∉ name → ':' ∉ name →
    JsonPath.value? t.trimStart = some v.content → QuotedIn qs t →
    QuotedIn (.key name v :: qs) ('"' :: (name ++ '"' :: (between.text ++ ':' :: t)))

namespace QuotedIn

theorem append {a : Text} (hquote : '"' ∉ a) (hcolon : ':' ∉ a) (h : QuotedIn qs t) : QuotedIn qs (a ++ t) := by
  induction a with
  | nil => exact h
  | cons c a ih =>
    exact .skip (Ne.symm (List.ne_of_not_mem_cons hquote)) (Ne.symm (List.ne_of_not_mem_cons hcolon))
      (ih (List.not_mem_of_not_mem_cons hquote) (List.not_mem_of_not_mem_cons hcolon))

theorem nextColon_answers (h : QuotedIn qs t) : (nextColon qs).Answers (afterColon? t) := by
  induction h with
  | nil => rfl
  | @skip qs c t _ hcolon _ ih =>
    have hpass : afterColon? ([c] ++ t) = afterColon? t :=
      afterColon?_append (by simpa using hcolon.symm) t
    rw [List.singleton_append] at hpass
    rwa [hpass]
  | @string qs s t _ _ _ ih =>
    unfold nextColon
    split
    · trivial
    · rename_i hcolon
      have hquoted : ':' ∉ '"' :: (s ++ ['"']) := by simpa using hcolon
      have hpass := afterColon?_append hquoted t
      simp only [List.cons_append, List.append_assoc, List.nil_append] at hpass
      rwa [hpass]
  | @key qs name t between v _ hname hvalue _ _ =>
    have hbetween : ':' ∉ between.text := between.not_mem (by decide)
    have hfront : ':' ∉ '"' :: (name ++ '"' :: between.text) := by simpa using ⟨hname, hbetween⟩
    have hpass := afterColon?_append hfront (':' :: t)
    simp only [List.cons_append, List.append_assoc] at hpass
    rw [hpass, afterColon?_colon, hvalue]
    rfl

/-- Searching the text leads where searching the list does. -/
theorem search_answers (h : QuotedIn qs t) (hkey : IsSegment key) : (search key qs).Answers (JsonPath.step? t key) := by
  induction h with
  | nil => rfl
  | @skip qs c t hquote _ _ ih =>
    have hpass : JsonPath.step? (c :: t) key = JsonPath.step? t key :=
      step?_cons fun h => hquote (List.cons_prefix_cons.1 h).1.symm
    rwa [hpass]
  | @string qs s t hs hclosed hqs ih =>
    by_cases hfound : s = key
    · subst hfound
      have hsearch : search s (.string s :: qs) = nextColon (.string s :: qs) := by simp [search, Quoted.text]
      rw [hsearch, nextColon]
      split
      · trivial
      · rename_i hcolon
        rw [step?_found hcolon]
        exact hqs.nextColon_answers
    · have hsearch : search key (.string s :: qs) = search key qs := by simp [search, Quoted.text, hfound]
      rwa [hsearch, step?_other hkey hs hfound hclosed]
  | @key qs name t between v hname hcolon hvalue hqs ih =>
    by_cases hfound : name = key
    · subst hfound
      have hsearch : search name (.key name v :: qs) = .member v := by simp [search, Quoted.text, nextColon]
      rw [hsearch, step?_found hcolon, afterColon?_append (between.not_mem (by decide)), afterColon?_colon, hvalue]
      rfl
    · have hsearch : search key (.key name v :: qs) = search key qs := by simp [search, Quoted.text, hfound]
      have hpass : JsonPath.step? (between.text ++ ':' :: t) key = JsonPath.step? t key :=
        (step?_append (between.not_mem (by decide)) _ key).trans (step?_append (a := [':']) (by decide) t key)
      rwa [hsearch, step?_other hkey hname hfound (.blank between (.separator (by decide) t)), hpass]

end QuotedIn

/-! ### Values and what stands in quotes in them -/

theorem EndsValue.of_blank (blank : Blank) {c : Char} (hc : c ∈ [',', '\x7d', ']']) (t : Text) :
    EndsValue (blank.text ++ c :: t) :=
  ⟨blank, c, t, rfl, hc⟩

private theorem QuotedIn.blank (b : Blank) (h : QuotedIn qs t) : QuotedIn qs (b.text ++ t) :=
  h.append (b.not_mem (by decide)) (b.not_mem (by decide))

/-- Further items stand behind a comma. -/
private theorem closed_itemsText (items : List (Padded Value)) (h : Closed r) :
    Closed (Value.itemsText [','] items ++ r) := by
  cases items with
  | nil => exact h
  | cons item items => exact .separator (by decide) _

private theorem closed_membersText (members : List (Member Value)) (h : Closed r) :
    Closed (Value.membersText [','] members ++ r) := by
  cases members with
  | nil => exact h
  | cons member members => exact .separator (by decide) _

/-- Behind the value of a member there is a comma or the brace that closes the object. -/
private theorem endsValue_membersText (blank : Blank) (members : List (Member Value)) (t : Text) :
    EndsValue (blank.text ++ (Value.membersText [','] members ++ '\x7d' :: t)) := by
  cases members with
  | nil => exact .of_blank blank (by decide) t
  | cons member members => exact .of_blank blank (by decide) _

mutual

theorem Value.quotedIn_text {qs : List Quoted} {r : Text} :
    (v : Value) → QuotedIn qs r → Closed r → QuotedIn (v.quotes ++ qs) (v.text ++ r)
  | .string t, h, hr => by
    simpa [quotes, text] using QuotedIn.string (t.not_mem (by decide)) hr h
  | .scalar s, h, _ => h.append (s.not_mem (by decide)) (s.not_mem (by decide))
  | .array blank items, h, hr => by
    have hclose : QuotedIn qs (']' :: r) := .skip (by decide) (by decide) h
    have hitems := quotedIn_itemsText [] (by simp) (by simp) items hclose (.cons (by decide) hr)
    simpa [quotes, text] using (hitems.blank blank).skip (c := '[') (by decide) (by decide)
  | .object blank members, h, hr => by
    have hclose : QuotedIn qs ('\x7d' :: r) := .skip (by decide) (by decide) h
    have hmembers := quotedIn_membersText [] (by simp) (by simp) members hclose (.cons (by decide) hr)
    simpa [quotes, text] using (hmembers.blank blank).skip (c := '\x7b') (by decide) (by decide)

theorem Value.quotedIn_itemsText {qs : List Quoted} {r : Text} (sep : Text) (hquote : '"' ∉ sep)
    (hcolon : ':' ∉ sep) :
    (items : List (Padded Value)) → QuotedIn qs r → Closed r →
      QuotedIn (itemsQuotes items ++ qs) (itemsText sep items ++ r)
  | [], h, _ => h
  | ⟨before, v, behind⟩ :: items, h, hr => by
    have hitems := quotedIn_itemsText [','] (by decide) (by decide) items h hr
    have hv := v.quotedIn_text (hitems.blank behind) (.blank behind (closed_itemsText items hr))
    simpa [itemsQuotes, itemsText] using (hv.blank before).append hquote hcolon

theorem Value.quotedIn_membersText {qs : List Quoted} {r : Text} (sep : Text) (hquote : '"' ∉ sep)
    (hcolon : ':' ∉ sep) :
    (members : List (Member Value)) → QuotedIn qs ('\x7d' :: r) → Closed ('\x7d' :: r) →
      QuotedIn (membersQuotes members ++ qs) (membersText sep members ++ '\x7d' :: r)
  | [], h, _ => h
  | ⟨⟨before, key, behind⟩, ⟨before', v, behind'⟩⟩ :: members, h, hr => by
    have hmembers := quotedIn_membersText [','] (by decide) (by decide) members h hr
    have hv := v.quotedIn_text (hmembers.blank behind') (.blank behind' (closed_membersText members hr))
    have hvalue := v.value?_trimStart before' (endsValue_membersText behind' members r)
    have hkey := QuotedIn.key behind (key.not_mem (by decide)) (key.not_mem (by decide)) hvalue (hv.blank before')
    simpa [membersQuotes, membersText] using (hkey.blank before).append hquote hcolon

end

end DirectiveEngine.JsonText
