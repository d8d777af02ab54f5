import DirectiveEngine.Proofs.Yaml.Edit

/-!
# Setting and looking up

A path can be set unless it leads through a mapping with a tag (`Yaml.set?_eq_none_iff`), so in a document without tags
every path can be set.  There setting and looking up obey the laws of a lens (`Yaml.set?_lawful`): what was set is found,
setting a path again replaces what was set, and a path that diverges leads where it led before.
-/

namespace DirectiveEngine.Yaml

variable {key : Text} {path : List Text} {d e v w : Yaml} {entries entries' : List (Yaml × Yaml)}
  {f g : Option Yaml → Option Yaml}

/-! ### One entry -/

/-- An update looks at the entry under its key only. -/
theorem updateEntry_congr (h : f ( entry? key entries) = g ( entry? key entries)) :
    updateEntry key f entries = updateEntry key g entries := by
  induction entries with
  | nil => exact congrArg _ h
  | cons entry entries ih =>
    obtain ⟨k, v⟩ := entry
    rw [entry?_cons] at h
    unfold updateEntry
    split
    · rename_i hk
      rw [if_pos hk] at h
      rw [h]
    · rename_i hk
      rw [if_neg hk] at h
      rw [ih h]

theorem updateEntry_eq_none_iff : updateEntry key f entries = none ↔ f ( entry? key entries) = none := by
  induction entries with
  | nil => exact Option.map_eq_none_iff
  | cons entry entries ih =>
    obtain ⟨k, v⟩ := entry
    rw [entry?_cons]
    unfold updateEntry
    split
    · exact Option.map_eq_none_iff
    · rw [Option.map_eq_none_iff, ih]

/-- Of two updates under one key the second one looks at what the first one left. -/
theorem updateEntry_updateEntry (h : updateEntry key f entries = some entries') :
    updateEntry key g entries' = updateEntry key (fun old => (f old).bind fun new => g (some new)) entries := by
  induction entries generalizing entries' with
  | nil =>
    obtain ⟨v, hv, rfl⟩ := Option.map_eq_some_iff.1 h
    have hkey : isString key (string key) = true := isString_iff.2 rfl
    simp only [updateEntry, hkey, if_true, hv, Option.bind_some]
  | cons entry entries ih =>
    obtain ⟨k, old⟩ := entry
    unfold updateEntry at h
    split at h
    · rename_i hk
      obtain ⟨v, hv, rfl⟩ := Option.map_eq_some_iff.1 h
      simp only [updateEntry, if_pos hk, hv, Option.bind_some]
    · rename_i hk
      obtain ⟨rest, hrest, rfl⟩ := Option.map_eq_some_iff.1 h
      simp only [updateEntry, if_neg hk, ih hrest]

/-! ### Mappings with tags -/

/-- A mapping with a tag on it. -/
def isTaggedMapping : Yaml → Bool
  | tagged _ v => v.isMapping
  | _ => false

/-- Along a path stands a mapping with a tag, in which the rest of the path is to be set. -/
def IsBlocked (path : List Text) (d : Yaml) : Prop :=
  ∃ front, front <+: path ∧ front ≠ path ∧ (get? front d).any isTaggedMapping = true

theorem entriesForUpdate?_eq_none_iff : entriesForUpdate? d = none ↔ d.isTaggedMapping = true := by
  cases d with
  | tagged tag v =>
    rw [entriesForUpdate?, isTaggedMapping]
    · have hbare : (tagged tag v).isMapping = v.isMapping := rfl
      rw [hbare]
      cases v.isMapping <;> simp
    · nofun
  | null | bool _ | int _ | float _ | string _ | sequence _ | mapping _ =>
    simp [entriesForUpdate?, isTaggedMapping, isMapping, untag]

theorem not_isBlocked_nil : ¬ IsBlocked [] d := by
  rintro ⟨front, hfront, hne, -⟩
  exact hne (List.prefix_nil.1 hfront)

theorem isBlocked_cons_iff :
    IsBlocked (key :: path) d ↔ d.isTaggedMapping = true ∨ ∃ w, member? key d = some w ∧ IsBlocked path w := by
  constructor
  · rintro ⟨front, hfront, hne, htagged⟩
    cases front with
    | nil => exact .inl htagged
    | cons key' front =>
      obtain ⟨rfl, hrest⟩ := List.cons_prefix_cons.1 hfront
      rw [get?] at htagged
      cases hmember : member? key' d with
      | none =>
        rw [hmember] at htagged
        cases htagged
      | some w =>
        rw [hmember] at htagged
        exact .inr ⟨w, rfl, front, hrest, fun h => hne (h ▸ rfl), htagged⟩
  · rintro (htagged | ⟨w, hmember, front, hfront, hne, htagged⟩)
    · exact ⟨[], List.nil_prefix, by simp, htagged⟩
    · refine ⟨key :: front, List.cons_prefix_cons.2 ⟨rfl, hfront⟩, by simpa using hne, ?_⟩
      rw [get?, hmember]
      exact htagged

/-- What is missing is made on the way. -/
theorem not_isBlocked_empty : ¬ IsBlocked path (mapping []) := by
  cases path with
  | nil => exact not_isBlocked_nil
  | cons key path =>
    rw [isBlocked_cons_iff]
    rintro (h | ⟨w, hmember, -⟩)
    · cases h
    · cases hmember

/-! ### One path -/

theorem set?_cons (h : entriesForUpdate? d = some entries) (key : Text) (path : List Text) (v : Yaml) :
    set? (key :: path) d v =
      (updateEntry key (fun old => set? path (old.getD (mapping [])) v) entries).map mapping := by
  rw [set?, h, Option.bind_eq_bind, Option.bind_some, Option.map_eq_bind]
  rfl

/-- A path can be set unless it leads through a mapping with a tag. -/
theorem set?_eq_none_iff : set? path d v = none ↔ IsBlocked path d := by
  induction path generalizing d with
  | nil => simp [set?, not_isBlocked_nil]
  | cons key path ih =>
    rw [isBlocked_cons_iff]
    cases hentries : entriesForUpdate? d with
    | none =>
      rw [set?, hentries]
      exact iff_of_true rfl (.inl (entriesForUpdate?_eq_none_iff.1 hentries))
    | some entries =>
      have huntagged : d.isTaggedMapping ≠ true := fun h => by
        cases hentries.symm.trans (entriesForUpdate?_eq_none_iff.2 h)
      rw [set?_cons hentries, Option.map_eq_none_iff, updateEntry_eq_none_iff, ih, or_iff_right huntagged,
        member?_of_entriesForUpdate? hentries]
      cases entry? key entries with
      | none => simp [not_isBlocked_empty]
      | some w => simp

/-- Of two values that are set under one path the first one is forgotten. -/
theorem set?_set? (h : set? path d w = some e) : set? path e v = set? path d v := by
  induction path generalizing d e with
  | nil => rfl
  | cons key path ih =>
    cases hentries : entriesForUpdate? d with
    | none =>
      rw [set?, hentries] at h
      cases h
    | some entries =>
      rw [set?_cons hentries] at h
      obtain ⟨entries', hupdate, rfl⟩ := Option.map_eq_some_iff.1 h
      obtain ⟨-, ⟨new, hnew, -⟩, -⟩ := updateEntry_eq_some hupdate
      rw [set?_cons hentries, set?_cons (d := mapping entries') rfl, updateEntry_updateEntry hupdate]
      refine congrArg _ (updateEntry_congr ?_)
      rw [hnew, Option.bind_some]
      exact ih hnew

/-! ### Documents without tags -/

mutual

/-- No tag stands on a value or on anything in it. -/
def isUntagged : Yaml → Bool
  | tagged _ _ => false
  | sequence items => itemsUntagged items
  | mapping entries => entriesUntagged entries
  | _ => true

def itemsUntagged : List Yaml → Bool
  | [] => true
  | v :: vs => v.isUntagged && itemsUntagged vs

def entriesUntagged : List (Yaml × Yaml) → Bool
  | [] => true
  | (k, v) :: entries => k.isUntagged && v.isUntagged && entriesUntagged entries

end

theorem isUntagged_of_entry? (h : entriesUntagged entries = true) (hw : entry? key entries = some w) :
    w.isUntagged = true := by
  induction entries with
  | nil => cases hw
  | cons entry entries ih =>
    obtain ⟨k, v⟩ := entry
    rw [entriesUntagged, Bool.and_eq_true, Bool.and_eq_true] at h
    rw [entry?_cons] at hw
    split at hw
    · exact Option.some.inj hw ▸ h.1.2
    · exact ih h.2 hw

theorem isUntagged_of_member? (h : d.isUntagged = true) (hw : member? key d = some w) : w.isUntagged = true := by
  cases d with
  | mapping entries =>
    rw [isUntagged] at h
    exact isUntagged_of_entry? h hw
  | tagged tag v =>
    rw [isUntagged] at h
    cases h
  | null | bool _ | int _ | float _ | string _ | sequence _ => cases hw

theorem not_isBlocked_of_isUntagged (h : d.isUntagged = true) : ¬ IsBlocked path d := by
  induction path generalizing d with
  | nil => exact not_isBlocked_nil
  | cons key path ih =>
    rw [isBlocked_cons_iff]
    rintro (htagged | ⟨w, hmember, hblocked⟩)
    · cases d with
      | tagged tag v =>
        rw [isUntagged] at h
        cases h
      | null | bool _ | int _ | float _ | string _ | sequence _ | mapping _ => cases htagged
    · exact ih (isUntagged_of_member? h hmember) hblocked

theorem exists_set? (h : d.isUntagged = true) (path : List Text) (v : Yaml) : ∃ e, set? path d v = some e :=
  Option.ne_none_iff_exists'.1 fun hnone => not_isBlocked_of_isUntagged h (set?_eq_none_iff.1 hnone)

/-- In a document without tags every dotted key can be set.  What was set is found, setting the key again replaces it,
and no key is seen to change but those that lead to it or through it. -/
theorem set?_lawful (h : d.isUntagged = true) (k k' : Text) (v w : Yaml) :
    ∃ dv dw, set? (pathOf k) d v = some dv ∧ set? (pathOf k) d w = some dw ∧
      get? (pathOf k) dv = some v ∧
      set? (pathOf k) dw v = some dv ∧
      (Apart k k' → get? (pathOf k') dv = get? (pathOf k') d) := by
  obtain ⟨dv, hv⟩ := exists_set? h (pathOf k) v
  obtain ⟨dw, hw⟩ := exists_set? h (pathOf k) w
  refine ⟨dv, dw, hv, hw, get?_set? hv, ?_, fun hapart => get?_set?_of_apart hv hapart.1 hapart.2⟩
  rw [set?_set? hw, hv]

/-- A number gives way to a mapping, and an entry beside it, under keys of which one is no string, stays. -/
theorem set?_lawful_nested :
    let d : Yaml := mapping [(string "a", int 1), (int 3, sequence [null]), (string "b", mapping [(string "c", bool true)])]
    d.isUntagged = true ∧ Apart "a.x" "b.c" ∧
      ∃ dv dw, set? (pathOf "a.x") d (int 2) = some dv ∧ set? (pathOf "a.x") d (string "w") = some dw ∧
        get? (pathOf "a.x") dv = some (int 2) ∧ set? (pathOf "a.x") dw (int 2) = some dv ∧
        get? (pathOf "b.c") dv = some (bool true) := by
  intro d
  have hd : d.isUntagged = true := by
    decide
  have hapart : Apart "a.x" "b.c" := by
    decide +kernel
  obtain ⟨dv, dw, hv, hw, hget, hset, hframe⟩ := set?_lawful hd "a.x" "b.c" (int 2) (string "w")
  exact ⟨hd, hapart, dv, dw, hv, hw, hget, hset, hframe hapart⟩

end DirectiveEngine.Yaml
