import DirectiveEngine.Proofs.Condition
import DirectiveEngine.Proofs.Json.Quoted

/-!
# Paths in documents

A path leads from one value to the next, where each key is searched for in what the one before led to (`Value.follow`).
That is what reading the text comes to (`extract_follow`), so a key is found at any depth.  In documents without
ambiguous keys it leads where walking from member to member does (`extract_walk`).
-/

namespace DirectiveEngine.JsonText

variable {key : Text} {path : List Text} {v w : Value}

namespace Value

/-- The value of the first member of an object that has the key. -/
def member? (key : Text) : Value → Option Value
  | object _ members => (members.find? fun m => m.key.value.text == key).map fun m => m.value.value
  | _ => none

/-- Where a path leads from an object to one of its members for each key. -/
def walk? : List Text → Value → Option Value
  | [], v => some v
  | key :: keys, v => (v.member? key).bind (walk? keys)

/-- Where a path leads if each key is searched for in what the one before led to. -/
def follow : List Text → Value → Lead
  | [], v => .member v
  | key :: keys, v =>
    match search key v.quotesInside with
    | .member w => w.follow keys
    | lead => lead

end Value

/-! ### Reading a path -/

/-- Searching in what a path reads of a value leads where searching in the value does. -/
theorem Value.step?_content (v : Value) (hkey : IsSegment key) :
    (search key v.quotesInside).Answers (JsonPath.step? v.content key) := by
  have hwhole (v : Value) : (search key v.quotes).Answers (JsonPath.step? v.text key) := by
    have hquoted := v.quotedIn_text .nil .nil
    rw [List.append_nil, List.append_nil] at hquoted
    exact hquoted.search_answers hkey
  cases v with
  | string t =>
    have hnone := step?_append (t.not_mem (c := '"') (by decide)) [] key
    rw [List.append_nil] at hnone
    exact hnone
  | scalar s => exact hwhole (.scalar s)
  | array blank items => exact hwhole (.array blank items)
  | object blank members => exact hwhole (.object blank members)

theorem Value.follow?_content (v : Value) (hpath : ∀ key ∈ path, IsSegment key) :
    (v.follow path).Answers (JsonPath.follow? path v.content) := by
  induction path generalizing v with
  | nil => rfl
  | cons key keys ih =>
    have hstep := v.step?_content (hpath key List.mem_cons_self)
    rw [follow, JsonPath.follow?]
    cases hlead : search key v.quotesInside with
    | member w =>
      rw [hlead, Lead.answers_member] at hstep
      rw [hstep]
      exact ih w fun key hkey => hpath key (List.mem_cons_of_mem _ hkey)
    | nothing =>
      rw [hlead, Lead.answers_nothing] at hstep
      rw [hstep]
      rfl
    | inString => trivial

/-- The blanks around a document are not a part of it. -/
theorem Document.trim_text (d : Document) : d.text.trim = d.root.text := by
  rw [text, Text.trim_append_left d.before.all, Text.trim_append_right d.behind.all, Text.trim_eq_self_iff]
  have htext : d.root.text = '\x7b' :: (d.blank.text ++ Value.membersText [] d.members) ++ ['\x7d'] := by
    simp [root, Value.text]
  rw [htext]
  refine ⟨fun c hc => ?_, fun c hc => ?_⟩
  · obtain rfl : '\x7b' = c := by simpa using hc
    decide
  · rw [List.getLast?_concat, Option.mem_some_iff] at hc
    subst hc
    decide

theorem Document.extract_text (d : Document) (path : Text) :
    JsonPath.extract d.text path = (JsonPath.follow? (path.splitOn '.') d.root.content).getD [] := by
  rw [JsonPath.extract, d.trim_text]
  rfl

/-! ### Unambiguous documents -/

/-- Each key stands in one place only, and is no string. -/
structure Value.IsUnambiguous (v : Value) : Prop where
  distinct : v.keys.Nodup
  apart : ∀ s ∈ v.strings, s ∉ v.keys

/-- What holds no more in quotes is as unambiguous. -/
theorem Value.IsUnambiguous.of_sublist (hv : v.IsUnambiguous) (h : w.quotes.Sublist v.quotes) : w.IsUnambiguous := by
  have hkeys : w.keys.Sublist v.keys := h.filterMap _
  refine ⟨hv.distinct.sublist hkeys, fun s hs hmem => ?_⟩
  exact hv.apart s ((h.filterMap _).subset hs) (hkeys.subset hmem)

/-- In front of a key only other texts stand in quotes. -/
theorem Value.IsUnambiguous.text_ne {front rest : List Quoted} (hv : v.IsUnambiguous)
    (h : v.quotes = front ++ .key key w :: rest) {q : Quoted} (hq : q ∈ front) : q.text ≠ key := by
  have hkeys : v.keys = front.filterMap Quoted.key? ++ key :: rest.filterMap Quoted.key? := by
    simp [keys, h, Quoted.key?]
  rintro rfl
  cases q with
  | key name u =>
    have hfront : name ∈ front.filterMap Quoted.key? := List.mem_filterMap.2 ⟨_, hq, rfl⟩
    have hnodup := hv.distinct
    rw [hkeys] at hnodup
    exact (List.nodup_append.1 hnodup).2.2 name hfront name List.mem_cons_self rfl
  | string t =>
    have hquoted : Quoted.string t ∈ v.quotes := h ▸ List.mem_append_left _ hq
    refine hv.apart t (List.mem_filterMap.2 ⟨_, hquoted, rfl⟩) ?_
    rw [hkeys]
    exact List.mem_append_right _ List.mem_cons_self

/-- What stands in quotes in a member stands in quotes in the object, behind its key. -/
theorem Value.exists_quotes_of_member? (h : v.member? key = some w) :
    ∃ front rest, v.quotesInside = v.quotes ∧ v.quotes = front ++ .key key w :: (w.quotes ++ rest) := by
  cases v with
  | object blank members =>
    show ∃ front rest, _ ∧ membersQuotes members = front ++ .key key w :: (w.quotes ++ rest)
    rw [member?] at h
    induction members with
    | nil => cases h
    | cons member members ih =>
      obtain ⟨⟨before, name, behind⟩, ⟨before', v, behind'⟩⟩ := member
      by_cases hname : name.text = key
      · obtain rfl : v = w := by simpa [hname] using h
        exact ⟨[], membersQuotes members, rfl, by simp [membersQuotes, hname]⟩
      · obtain ⟨front, rest, -, hquotes⟩ := ih (by simpa [hname] using h)
        exact ⟨.key name.text v :: (v.quotes ++ front), rest, rfl, by simp [membersQuotes, hquotes]⟩
  | _ => cases h

/-- The values in an unambiguous one are unambiguous, and a search for the key of a member leads to it. -/
theorem Value.IsUnambiguous.member (hv : v.IsUnambiguous) (h : v.member? key = some w) :
    search key v.quotesInside = .member w ∧ w.IsUnambiguous := by
  obtain ⟨front, rest, hinside, hquotes⟩ := exists_quotes_of_member? h
  have hpass : ∀ q ∈ front, (q.text != key) = true := fun q hq => bne_iff_ne.2 (hv.text_ne hquotes hq)
  have hsub : w.quotes.Sublist v.quotes := by
    rw [hquotes]
    exact ((List.sublist_append_left _ _).cons _).trans (List.sublist_append_right _ _)
  refine ⟨?_, hv.of_sublist hsub⟩
  rw [hinside, hquotes, search, List.dropWhile_append_of_pos hpass,
    List.dropWhile_cons_of_neg (by simp [Quoted.text])]
  rfl

/-- Following a path leads where walking it does. -/
theorem Value.IsUnambiguous.follow_eq (hv : v.IsUnambiguous) (h : v.walk? path = some w) :
    v.follow path = .member w := by
  induction path generalizing v with
  | nil =>
    obtain rfl : v = w := Option.some.inj h
    rfl
  | cons key keys ih =>
    obtain ⟨u, hu, hwalk⟩ := Option.bind_eq_some_iff.1 h
    obtain ⟨hsearch, hunambiguous⟩ := hv.member hu
    rw [follow, hsearch]
    exact ih hunambiguous hwalk

/-! ### Keys of members -/

theorem Value.isKeyChar_of_member? (h : v.member? key = some w) : ∀ c ∈ key, isKeyChar c = true := by
  cases v with
  | object blank members =>
    obtain ⟨m, hm, -⟩ := Option.map_eq_some_iff.1 h
    have hkey : m.key.value.text = key := by simpa using List.find?_some hm
    exact hkey ▸ m.key.value.forall
  | _ => cases h

theorem Value.isKeyChar_of_walk? (h : v.walk? path = some w) : ∀ key ∈ path, ∀ c ∈ key, isKeyChar c = true := by
  induction path generalizing v with
  | nil => simp
  | cons key keys ih =>
    obtain ⟨u, hu, hwalk⟩ := Option.bind_eq_some_iff.1 h
    exact List.forall_mem_cons.2 ⟨isKeyChar_of_member? hu, ih hwalk⟩

private theorem not_mem_of_isKeyChar (h : ∀ c ∈ key, isKeyChar c = true) {c : Char} (hc : isKeyChar c = false) :
    c ∉ key := by
  intro hmem
  rw [h c hmem] at hc
  cases hc

theorem IsSegment.of_isKeyChar (h : ∀ c ∈ key, isKeyChar c = true) : IsSegment key := by
  refine ⟨not_mem_of_isKeyChar h (by decide), fun c hc hmem => ?_⟩
  have hkey : isKeyChar c = true := h c ((List.dropWhile_sublist _).subset (List.mem_of_mem_head? hc))
  simp only [List.mem_cons, List.not_mem_nil, or_false] at hmem
  rcases hmem with rfl | rfl <;> exact absurd hkey (by decide)

/-! ### Paths to members -/

/-- A path to a member of an unambiguous document reads its value: a string without its quotes, and anything else as
it is written. -/
theorem extract_walk (d : Document) (hd : d.root.IsUnambiguous) (hne : path ≠ [])
    (hwalk : d.root.walk? path = some v) : JsonPath.extract d.text (Text.join "." path) = v.content := by
  have hkeys := Value.isKeyChar_of_walk? hwalk
  have hcut : (Text.join "." path).splitOn '.' = path :=
    List.splitOn_intercalate '.' (fun key hkey => not_mem_of_isKeyChar (hkeys key hkey) (by decide)) hne
  have hpath : ∀ key ∈ (Text.join "." path).splitOn '.', IsSegment key :=
    fun key hkey => .of_isKeyChar (hkeys key (hcut ▸ hkey))
  have hread := d.root.follow?_content hpath
  rw [hcut, hd.follow_eq hwalk, Lead.answers_member] at hread
  rw [d.extract_text, hcut, hread, Option.getD_some]

/-- A string with a colon and a comma stands in front of the member, and an array behind it. -/
theorem extract_walk_nested :
    let stats : Value := .object (.mk " ")
      [⟨{ value := .mk "kills", behind := .mk " " }, { before := .mk "\n", value := .scalar { text := "12" } }⟩,
        ⟨{ value := .mk "tags" }, { value := .array (.mk []) [{ value := .string (.mk "a") }] }⟩]
    let d : Document :=
      { before := .mk " "
        members :=
          [⟨{ value := .mk "motto" }, { value := .string (.mk "kills: 1, 2") }⟩,
            ⟨{ before := .mk " ", value := .mk "stats" }, { value := stats }⟩] }
    let path : List Text := ["stats", "kills"]
    d.text = " \x7b\"motto\":\"kills: 1, 2\", \"stats\":\x7b \"kills\" :\n12,\"tags\":[\"a\"]\x7d\x7d" ∧
      d.root.IsUnambiguous ∧ path ≠ [] ∧ d.root.walk? path = some (.scalar { text := "12" }) ∧
        JsonPath.extract d.text "stats.kills" = "12" := by
  intro stats d path
  have hd : d.root.IsUnambiguous := ⟨by decide +kernel, by decide +kernel⟩
  have hne : path ≠ [] := List.cons_ne_nil _ _
  have hwalk : d.root.walk? path = some (.scalar { text := "12" }) := rfl
  exact ⟨by decide +kernel, hd, hne, hwalk, extract_walk d hd hne hwalk⟩

/-! ### Paths to no member -/

/-- The value of a variable is read at the path behind its name. -/
private theorem variableValue_path {store : Store} {actor : Actor} {name path json : Text} (hname : '.' ∉ name)
    (hstored : store.resolve actor name = json) :
    Condition.variableValue store actor (name ++ ("." ++ path)) = JsonPath.extract json path := by
  have hcut : Text.splitFirst? "." (name ++ ("." ++ path)) = some (name, path) :=
    Text.splitFirst?_of_not_mem hname [] path
  rw [Condition.variableValue, hcut, ← hstored]

/-- Each key leads from its first place in quotes, at any depth of the value before, to the member whose colon comes
next.  If it stands nowhere or no colon comes, then the path reads as empty, and no condition that asks for a text
holds. -/
theorem extract_follow (d : Document) {path : Text} (hpath : ∀ key ∈ path.splitOn '.', IsSegment key) :
    (∀ v, d.root.follow (path.splitOn '.') = .member v → JsonPath.extract d.text path = v.content) ∧
      (d.root.follow (path.splitOn '.') = .nothing → JsonPath.extract d.text path = [] ∧
        ∀ (facts : ActorFacts) (store : Store) (name : Text), store.resolve facts.actor name = d.text → '.' ∉ name →
          ':' ∉ name ++ path → '%' ∉ name ++ path →
            Condition.holds facts store ("var:" ++ (name ++ ("." ++ (path ++ ":!=")))) = false) := by
  have hread := d.root.follow?_content hpath
  constructor
  · intro v hlead
    rw [hlead, Lead.answers_member] at hread
    rw [d.extract_text, hread, Option.getD_some]
  · intro hlead
    rw [hlead, Lead.answers_nothing] at hread
    have hempty : JsonPath.extract d.text path = [] := by rw [d.extract_text, hread, Option.getD_none]
    refine ⟨hempty, fun facts store name hstored hname hcolon hpercent => ?_⟩
    have hreference {c : Char} (hc : c ∉ name ++ path) (hdot : c ≠ '.') : c ∉ name ++ ("." ++ path) := by
      rw [List.mem_append, not_or] at hc
      simpa [hdot] using hc
    have hholds : Condition.holds facts store ("var:" ++ (name ++ ("." ++ path) ++ ":!=")) =
        !(Condition.variableValue store facts.actor (name ++ ("." ++ path))).isEmpty :=
      Condition.holds_variable (hreference hcolon (by decide)) (hreference hpercent (by decide)) (some "!=")
        (by simp)
    rw [variableValue_path hname hstored, hempty] at hholds
    simpa using hholds

/-- The name of a user is found without the way to it, and no address is found in the user. -/
theorem extract_follow_email :
    let user : Value := .object (.mk []) [⟨{ value := .mk "name" }, { value := .string (.mk "Steve") }⟩]
    let d : Document :=
      { members :=
          [⟨{ value := .mk "user" }, { before := .mk " ", value := user }⟩,
            ⟨{ value := .mk "kind" }, { value := .string (.mk "email") }⟩] }
    let nested : Text := "name"
    let missing : Text := "user.email"
    let facts : ActorFacts := ⟨.player "p", none, fun _ => false⟩
    let store : Store := { shared := [("profile", d.text)] }
    d.text = "\x7b\"user\": \x7b\"name\":\"Steve\"\x7d,\"kind\":\"email\"\x7d" ∧
      ((∀ key ∈ nested.splitOn '.', IsSegment key) ∧
        d.root.follow (nested.splitOn '.') = .member (.string (.mk "Steve")) ∧
        JsonPath.extract d.text nested = "Steve") ∧
      ((∀ key ∈ missing.splitOn '.', IsSegment key) ∧ d.root.follow (missing.splitOn '.') = .nothing ∧
        JsonPath.extract d.text missing = []) ∧
      (store.resolve facts.actor "profile" = d.text ∧ '.' ∉ ("profile" : Text) ∧ ':' ∉ "profile" ++ missing ∧
        '%' ∉ "profile" ++ missing) ∧
      Condition.holds facts store "var:profile.user.email:!=" = false := by
  intro user d nested missing facts store
  have hsegments {path : Text} (h : (path.splitOn '.').all (fun key => key.all isKeyChar) = true) :
      ∀ key ∈ path.splitOn '.', IsSegment key :=
    fun key hkey => .of_isKeyChar (List.all_eq_true.1 (List.all_eq_true.1 h key hkey))
  have hnested : ∀ key ∈ nested.splitOn '.', IsSegment key := hsegments (by decide +kernel)
  have hmissing : ∀ key ∈ missing.splitOn '.', IsSegment key := hsegments (by decide +kernel)
  have hmember : d.root.follow (nested.splitOn '.') = .member (.string (.mk "Steve")) := rfl
  have hnothing : d.root.follow (missing.splitOn '.') = .nothing := rfl
  have hstored : store.resolve facts.actor "profile" = d.text := by decide +kernel
  have hname : '.' ∉ ("profile" : Text) := by decide
  have hcolon : ':' ∉ "profile" ++ missing := by decide
  have hpercent : '%' ∉ "profile" ++ missing := by decide
  obtain ⟨hempty, hholds⟩ := (extract_follow d hmissing).2 hnothing
  exact ⟨by decide +kernel, ⟨hnested, hmember, (extract_follow d hnested).1 _ hmember⟩, ⟨hmissing, hnothing, hempty⟩,
    ⟨hstored, hname, hcolon, hpercent⟩, hholds facts store "profile" hstored hname hcolon hpercent⟩

/-- A key that is no member of the document is found in a member, so a path that does not lead anywhere from member to
member reads as the value there. -/
theorem extract_inner_key :
    let inner : Value :=
      .object (.mk []) [⟨{ value := .mk "b" }, { before := .mk " ", value := .scalar { text := "1" } }⟩]
    let d : Document := { members := [⟨{ value := .mk "a" }, { before := .mk " ", value := inner }⟩] }
    let facts : ActorFacts := ⟨.player "p", none, fun _ => false⟩
    let store : Store := { shared := [("name", d.text)] }
    d.text = "\x7b\"a\": \x7b\"b\": 1\x7d\x7d" ∧ d.root.walk? ["b"] = none ∧ JsonPath.extract d.text "b" = "1" ∧
      Condition.holds facts store "var:name.b:!=" = true := by
  intro inner d facts store
  exact ⟨by decide +kernel, rfl, by decide +kernel, by decide +kernel⟩

end DirectiveEngine.JsonText
