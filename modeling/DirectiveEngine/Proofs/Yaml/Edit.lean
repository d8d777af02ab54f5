import DirectiveEngine.Proofs.Text.Trim
import DirectiveEngine.Yaml.Path
import DirectiveEngine.Yaml.PlainText

/-!
# Editing documents

What is set under a path is found there (`Yaml.get?_set?`), and nothing else is seen to change but what lies on that path
or below it (`Yaml.get?_set?_of_apart`).  So after a row of edits, of which none is below another one, each key holds
what was set last (`Yaml.get?_edit?_of_last`), and a key apart from all of them what it held before
(`Yaml.get?_edit?_of_apart`).
-/

namespace DirectiveEngine.Yaml

variable {key other : Text} {path q : List Text} {d e v : Yaml} {entries entries' : List (Yaml × Yaml)}

/-! ### One entry -/

theorem entry?_cons (key : Text) (k v : Yaml) (entries : List (Yaml × Yaml)) :
    entry? key ((k, v) :: entries) = if isString key k then some v else entry? key entries := by
  unfold entry?
  rw [List.find?_cons]
  cases isString key k <;> rfl

theorem isString_iff {k : Yaml} : isString key k = true ↔ k = string key := by
  cases k <;> simp [isString]

/-- An update changes the entry under its key, or adds one. -/
theorem updateEntry_eq_some {f : Option Yaml → Option Yaml} (h : updateEntry key f entries = some entries') :
    entries' ≠ [] ∧ (∃ v, f ( entry? key entries) = some v ∧ entry? key entries' = some v) ∧
      ∀ other ≠ key, entry? other entries' = entry? other entries := by
  induction entries generalizing entries' with
  | nil =>
    obtain ⟨v, hv, rfl⟩ := Option.map_eq_some_iff.1 h
    refine ⟨by simp, ⟨v, hv, by simp [isString, entry?]⟩, fun other hne => ?_⟩
    simp [entry?_cons, isString, Ne.symm hne]
  | cons entry entries ih =>
    obtain ⟨k, old⟩ := entry
    unfold updateEntry at h
    split at h
    · rename_i hk
      obtain ⟨v, hv, rfl⟩ := Option.map_eq_some_iff.1 h
      refine ⟨by simp, ⟨v, by rw [entry?_cons, if_pos hk, hv], by rw [entry?_cons, if_pos hk]⟩, fun other hne => ?_⟩
      rw [isString_iff] at hk
      simp [entry?_cons, hk, isString, Ne.symm hne]
    · rename_i hk
      obtain ⟨rest, hrest, rfl⟩ := Option.map_eq_some_iff.1 h
      obtain ⟨-, ⟨v, hv, hkey⟩, hothers⟩ := ih hrest
      refine ⟨by simp, ⟨v, by rw [entry?_cons, if_neg hk, hv], by rw [entry?_cons, if_neg hk, hkey]⟩,
        fun other hne => ?_⟩
      rw [entry?_cons, entry?_cons, hothers other hne]

theorem member?_of_isMapping_eq_false (h : d.isMapping = false) (key : Text) : member? key d = none := by
  unfold isMapping at h
  unfold member?
  generalize d.untag = bare at h
  cases bare with
  | mapping entries => cases h
  | null | bool _ | int _ | float _ | string _ | sequence _ | tagged _ _ => rfl

/-- The members of a document are those that an edit starts from. -/
theorem member?_of_entriesForUpdate? (h : entriesForUpdate? d = some entries) (key : Text) :
    member? key d = entry? key entries := by
  unfold entriesForUpdate? at h
  split at h
  · cases h
    rfl
  · split at h
    · cases h
    · rename_i hmapping
      cases h
      rw [member?_of_isMapping_eq_false (Bool.eq_false_iff.2 hmapping)]
      rfl

theorem member?_mapping (key : Text) (entries : List (Yaml × Yaml)) :
    member? key (mapping entries) = entry? key entries :=
  rfl

/-! ### One path -/

/-- Setting a path edits one entry of a mapping, below which the rest of the path is set. -/
theorem set?_cons_eq_some (h : set? (key :: path) d v = some e) :
    ∃ entries, e = mapping entries ∧ entries ≠ [] ∧
      (∃ w, set? path ((member? key d).getD (mapping [])) v = some w ∧ member? key e = some w) ∧
      ∀ other ≠ key, member? other e = member? other d := by
  simp only [set?, Option.bind_eq_bind, Option.bind_eq_some_iff] at h
  obtain ⟨entries, hentries, entries', hupdate, heq⟩ := h
  cases heq
  obtain ⟨hne, hkey, hothers⟩ := updateEntry_eq_some hupdate
  refine ⟨entries', rfl, hne, ?_, fun other hother => ?_⟩
  · rwa [member?_of_entriesForUpdate? hentries]
  · rw [member?_mapping, hothers other hother, member?_of_entriesForUpdate? hentries]

theorem get?_set? (h : set? path d v = some e) : get? path e = some v := by
  induction path generalizing d e with
  | nil => exact h.symm
  | cons key path ih =>
    obtain ⟨-, -, -, ⟨w, hset, hmember⟩, -⟩ := set?_cons_eq_some h
    rw [get?, hmember]
    exact ih hset

theorem get?_set?_of_apart (h : set? path d v = some e) (hpath : ¬ path <+: q) (hq : ¬ q <+: path) :
    get? q e = get? q d := by
  induction path generalizing d e q with
  | nil => exact absurd List.nil_prefix hpath
  | cons key path ih =>
    cases q with
    | nil => exact absurd List.nil_prefix hq
    | cons other q =>
      obtain ⟨-, -, -, ⟨w, hset, hmember⟩, hothers⟩ := set?_cons_eq_some h
      by_cases hother : other = key
      · subst hother
        have hpath : ¬ path <+: q := fun hp => hpath (List.cons_prefix_cons.2 ⟨rfl, hp⟩)
        have hq : ¬ q <+: path := fun hp => hq (List.cons_prefix_cons.2 ⟨rfl, hp⟩)
        rw [get?, get?, hmember, Option.bind_some, ih hset hpath hq]
        cases member? other d with
        | some old => rfl
        | none =>
          -- a mapping that is made on the way holds nothing but what is set
          cases q with
          | nil => exact absurd List.nil_prefix hq
          | cons _ _ => rfl
      · rw [get?, get?, hothers other hother]

/-! ### Rows of edits -/

/-- The document after texts are set under dotted keys, each as the value that it denotes. -/
def edit? (d : Yaml) (writes : List (Text × Text)) : Option Yaml :=
  writes.foldlM (fun d w => set? (pathOf w.1) d (ofText w.2)) d

theorem edit?_append (d : Yaml) (writes writes' : List (Text × Text)) :
    d.edit? (writes ++ writes') = (d.edit? writes).bind fun e => e.edit? writes' :=
  List.foldlM_append

theorem edit?_cons (d : Yaml) (k t : Text) (writes : List (Text × Text)) :
    d.edit? ((k, t) :: writes) = (set? (pathOf k) d (ofText t)).bind fun e => e.edit? writes :=
  List.foldlM_cons

/-- Neither of two dotted keys leads through the other one. -/
def Apart (k k' : Text) : Prop :=
  ¬ pathOf k <+: pathOf k' ∧ ¬ pathOf k' <+: pathOf k

instance (k k' : Text) : Decidable (Apart k k') :=
  inferInstanceAs (Decidable (_ ∧ _))

theorem pathOf_ne_nil (k : Text) : pathOf k ≠ [] :=
  List.splitOn_ne_nil '.' k

theorem pathOf_injective {k k' : Text} (h : pathOf k = pathOf k') : k = k' := by
  have hjoin (k : Text) : ['.'].intercalate (pathOf k) = k := List.intercalate_splitOn '.'
  rw [← hjoin k, h, hjoin]

theorem get?_edit?_of_apart {writes : List (Text × Text)} {k : Text} (h : d.edit? writes = some e)
    (hapart : ∀ w ∈ writes, Apart k w.1) : get? (pathOf k) e = get? (pathOf k) d := by
  induction writes generalizing d with
  | nil =>
    cases h
    rfl
  | cons w writes ih =>
    obtain ⟨k', t⟩ := w
    rw [edit?_cons, Option.bind_eq_some_iff] at h
    obtain ⟨e', hset, hrest⟩ := h
    obtain ⟨hpath, hq⟩ := hapart _ List.mem_cons_self
    rw [ih hrest fun w hw => hapart w (List.mem_cons_of_mem _ hw), get?_set?_of_apart hset hq hpath]

/-- Among keys of which none leads through another one, each holds what was set last under it. -/
theorem get?_edit?_of_last {before behind : List (Text × Text)} {k t : Text}
    (h : d.edit? (before ++ (k, t) :: behind) = some e) (hlast : ∀ w ∈ behind, w.1 ≠ k)
    (hkeys : ∀ w ∈ behind, (pathOf k <+: pathOf w.1 → pathOf k = pathOf w.1) ∧
      (pathOf w.1 <+: pathOf k → pathOf w.1 = pathOf k)) :
    get? (pathOf k) e = some (ofText t) := by
  rw [edit?_append, Option.bind_eq_some_iff] at h
  obtain ⟨d', -, h⟩ := h
  rw [edit?_cons, Option.bind_eq_some_iff] at h
  obtain ⟨e', hset, hrest⟩ := h
  have hapart : ∀ w ∈ behind, Apart k w.1 := fun w hw =>
    ⟨fun hp => hlast w hw (pathOf_injective ((hkeys w hw).1 hp).symm),
      fun hp => hlast w hw (pathOf_injective ((hkeys w hw).2 hp))⟩
  rw [get?_edit?_of_apart hrest hapart, get?_set? hset]

/-! ### Written documents -/

private theorem mem_joinLines {c : Char} {line : Text} (hc : c ∈ line) (indent : Nat) (ls : List Text) :
    c ∈ joinLines indent (line :: ls) := by
  cases ls with
  | nil => exact hc
  | cons l ls => simp [joinLines, hc]

/-- The text of an entry has a colon between its key and its value. -/
private theorem colon_mem_entryTexts (indent : Nat) (k v : Yaml) (entries : List (Yaml × Yaml)) :
    ∃ line ls, entryTexts indent ((k, v) :: entries) = line :: ls ∧ ':' ∈ line := by
  rw [entryTexts]
  refine ⟨_, _, rfl, ?_⟩
  split <;> simp

/-- A mapping with entries is not written as blank text. -/
theorem trim_write_mapping (h : entries ≠ []) : (write (mapping entries)).trim ≠ [] := by
  obtain ⟨⟨k, v⟩, rest, rfl⟩ := List.exists_cons_of_ne_nil h
  have hcolon : ':' ∈ write (mapping ((k, v) :: rest)) := by
    obtain ⟨line, ls, hlines, hmem⟩ := colon_mem_entryTexts 0 k v rest
    rw [write, rootText, hlines]
    exact List.mem_append_left _ (mem_joinLines hmem 0 ls)
  intro hblank
  exact absurd (List.all_eq_true.1 (Text.trim_eq_nil_iff.1 hblank) _ hcolon) (by decide)

/-- An edited document has entries. -/
theorem exists_mapping_of_set? (hpath : path ≠ []) (h : set? path d v = some e) :
    ∃ entries, e = mapping entries ∧ entries ≠ [] := by
  obtain ⟨key, path, rfl⟩ := List.exists_cons_of_ne_nil hpath
  obtain ⟨entries, he, hne, -, -⟩ := set?_cons_eq_some h
  exact ⟨entries, he, hne⟩

/-! ### Comparing documents -/

mutual

/-- Whether two documents without floats are the same, entry by entry. -/
def eqb : Yaml → Yaml → Bool
  | null, null => true
  | bool a, bool b => a == b
  | int a, int b => a == b
  | string a, string b => a == b
  | sequence a, sequence b => eqbItems a b
  | mapping a, mapping b => eqbEntries a b
  | tagged s a, tagged t b => s == t && eqb a b
  | _, _ => false

def eqbItems : List Yaml → List Yaml → Bool
  | [], [] => true
  | a :: as, b :: bs => eqb a b && eqbItems as bs
  | _, _ => false

def eqbEntries : List (Yaml × Yaml) → List (Yaml × Yaml) → Bool
  | [], [] => true
  | (k, v) :: as, (l, w) :: bs => eqb k l && eqb v w && eqbEntries as bs
  | _, _ => false

end

mutual

theorem eq_of_eqb : ∀ {a b : Yaml}, eqb a b = true → a = b
  | null, b, h => by cases b <;> simp_all [eqb]
  | bool _, b, h => by cases b <;> simp_all [eqb]
  | int _, b, h => by cases b <;> simp_all [eqb]
  | float _, b, h => by cases b <;> simp_all [eqb]
  | string _, b, h => by cases b <;> simp_all [eqb]
  | sequence as, b, h => by
    cases b with
    | sequence bs => exact congrArg sequence (eq_of_eqbItems (by simpa [eqb] using h))
    | _ => simp [eqb] at h
  | mapping as, b, h => by
    cases b with
    | mapping bs => exact congrArg mapping (eq_of_eqbEntries (by simpa [eqb] using h))
    | _ => simp [eqb] at h
  | tagged s a, b, h => by
    cases b with
    | tagged t b =>
      rw [eqb, Bool.and_eq_true, beq_iff_eq] at h
      rw [h.1, eq_of_eqb h.2]
    | _ => simp [eqb] at h

theorem eq_of_eqbItems : ∀ {as bs : List Yaml}, eqbItems as bs = true → as = bs
  | [], bs, h => by cases bs <;> simp_all [eqbItems]
  | a :: as, bs, h => by
    cases bs with
    | nil => simp [eqbItems] at h
    | cons b bs =>
      rw [eqbItems, Bool.and_eq_true] at h
      rw [eq_of_eqb h.1, eq_of_eqbItems h.2]

theorem eq_of_eqbEntries : ∀ {as bs : List (Yaml × Yaml)}, eqbEntries as bs = true → as = bs
  | [], bs, h => by cases bs <;> simp_all [eqbEntries]
  | (k, v) :: as, bs, h => by
    cases bs with
    | nil => simp [eqbEntries] at h
    | cons e bs =>
      obtain ⟨l, w⟩ := e
      rw [eqbEntries, Bool.and_eq_true, Bool.and_eq_true] at h
      rw [eq_of_eqb h.1.1, eq_of_eqb h.1.2, eq_of_eqbEntries h.2]

end

theorem eq_some_of_any_eqb {o : Option Yaml} (h : o.any e.eqb = true) : o = some e := by
  cases o with
  | none => cases h
  | some d => rw [eq_of_eqb h]

end DirectiveEngine.Yaml
