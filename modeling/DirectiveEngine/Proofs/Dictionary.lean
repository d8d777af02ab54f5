import DirectiveEngine.Dictionary
import Mathlib.Data.Char
import Mathlib.Data.List.Induction
import Mathlib.Data.List.Nodup

/-!
# Dictionaries in order

Whatever is inserted, the keys of a dictionary stay in code point order, each once (`ordered_insert`).  So a dictionary
is determined by its entries, and it is read back from any listing of them (`ofList_of_perm`).  A search in it finds the
entry with the least key (`Ordered.findSome?_eq_some_iff`).
-/

namespace DirectiveEngine

/-! ### The order of texts -/

namespace Text

theorem le_total (s t : Text) : le s t = true ∨ le t s = true := by
  induction s generalizing t with
  | nil => exact .inl rfl
  | cons a s ih =>
    cases t with
    | nil => exact .inr rfl
    | cons b t =>
      simp only [le, Bool.or_eq_true, Bool.and_eq_true, decide_eq_true_eq, beq_iff_eq]
      rcases lt_trichotomy a b with h | rfl | h
      · exact .inl (.inl h)
      · exact (ih t).imp (fun h => .inr ⟨rfl, h⟩) fun h => .inr ⟨rfl, h⟩
      · exact .inr (.inl h)

theorem le_refl (t : Text) : le t t = true :=
  (le_total t t).elim id id

theorem le_trans {s t u : Text} (hst : le s t = true) (htu : le t u = true) : le s u = true := by
  induction s generalizing t u with
  | nil => rfl
  | cons a s ih =>
    match t, u with
    | [], _ => simp [le] at hst
    | _ :: _, [] => simp [le] at htu
    | b :: t, c :: u =>
      simp only [le, Bool.or_eq_true, Bool.and_eq_true, decide_eq_true_eq, beq_iff_eq] at hst htu ⊢
      rcases hst with hab | ⟨rfl, hst⟩ <;> rcases htu with hbc | ⟨rfl, htu⟩
      · exact .inl (lt_trans hab hbc)
      · exact .inl hab
      · exact .inl hbc
      · exact .inr ⟨rfl, ih hst htu⟩

theorem le_antisymm {s t : Text} (hst : le s t = true) (hts : le t s = true) : s = t := by
  induction s generalizing t with
  | nil =>
    cases t with
    | nil => rfl
    | cons b t => simp [le] at hts
  | cons a s ih =>
    cases t with
    | nil => simp [le] at hst
    | cons b t =>
      simp only [le, Bool.or_eq_true, Bool.and_eq_true, decide_eq_true_eq, beq_iff_eq] at hst hts
      rcases hst with hab | ⟨rfl, hst⟩ <;> rcases hts with hba | ⟨heq, hts⟩
      · exact absurd hba (lt_asymm hab)
      · exact absurd (heq ▸ hab) (lt_irrefl _)
      · exact absurd hba (lt_irrefl _)
      · rw [ih hst hts]

end Text

/-! ### Keys in order -/

namespace Dictionary

variable {α : Type} {key : Text} {value : α} {d : Dictionary α}

theorem mem_keys_insert {k : Text} : k ∈ (insert key value d).map Prod.fst ↔ k = key ∨ k ∈ d.map Prod.fst := by
  induction d with
  | nil => simp [insert]
  | cons e d ih =>
    unfold insert
    split
    · rename_i heq
      simp [heq]
    · split
      · simp
      · simp only [List.map_cons, List.mem_cons, ih]
        exact or_left_comm

/-- The keys are in code point order, each once. -/
def Ordered (d : Dictionary α) : Prop :=
  (d.map Prod.fst).Pairwise fun k k' => k ≠ k' ∧ Text.le k k' = true

instance : Decidable d.Ordered :=
  inferInstanceAs (Decidable (List.Pairwise _ _))

theorem Ordered.nodup (h : d.Ordered) : (d.map Prod.fst).Nodup :=
  List.Pairwise.imp (fun h => h.1) h

theorem Ordered.pairwise (h : d.Ordered) : d.Pairwise fun e e' => e.1 ≠ e'.1 ∧ Text.le e.1 e'.1 = true :=
  List.pairwise_map.1 h

theorem ordered_insert (h : d.Ordered) (key : Text) (value : α) : (insert key value d).Ordered := by
  induction d with
  | nil => simp [insert, Ordered]
  | cons e d ih =>
    obtain ⟨k, v⟩ := e
    obtain ⟨hfirst, hrest⟩ := List.pairwise_cons.1 h
    unfold insert
    split
    · rename_i heq
      subst heq
      exact List.pairwise_cons.2 ⟨hfirst, hrest⟩
    · rename_i hne
      split
      · -- the new key stands in front of all others
        rename_i hle
        refine List.pairwise_cons.2 ⟨fun k' hk' => ?_, h⟩
        rcases List.mem_cons.1 hk' with rfl | hk'
        · exact ⟨hne, hle⟩
        · obtain ⟨hk, hkk'⟩ := hfirst k' hk'
          refine ⟨?_, Text.le_trans hle hkk'⟩
          rintro rfl
          exact hne (Text.le_antisymm hle hkk')
      · rename_i hle
        refine List.pairwise_cons.2 ⟨fun k' hk' => ?_, ih hrest⟩
        rcases mem_keys_insert.1 hk' with rfl | hk'
        · exact ⟨Ne.symm hne, (Text.le_total _ _).resolve_left hle⟩
        · exact hfirst k' hk'

theorem get?_eq_none_iff : d.get? key = none ↔ key ∉ d.map Prod.fst := by
  induction d with
  | nil => simp [get?]
  | cons e d ih =>
    rw [get?_cons, List.map_cons, List.mem_cons, not_or, ← ih]
    split
    · rename_i heq
      simp [heq]
    · rename_i hne
      simp [hne]

theorem Ordered.mem_iff (h : d.Ordered) : (key, value) ∈ d ↔ d.get? key = some value := by
  induction d with
  | nil => simp [get?]
  | cons e d ih =>
    obtain ⟨k, v⟩ := e
    obtain ⟨hfirst, hrest⟩ := List.pairwise_cons.1 h.pairwise
    rw [get?_cons, List.mem_cons, ih (List.pairwise_map.2 hrest)]
    split
    · rename_i heq
      subst heq
      have hnone : get? key d ≠ some value := fun hsome =>
        (hfirst _ ((ih (List.pairwise_map.2 hrest)).2 hsome)).1 rfl
      simp [hnone, eq_comm]
    · rename_i hne
      simp [hne]

/-- A key that is not there yet adds an entry. -/
theorem insert_perm (h : key ∉ d.map Prod.fst) : (insert key value d).Perm ((key, value) :: d) := by
  induction d with
  | nil => exact .refl _
  | cons e d ih =>
    obtain ⟨hne, hrest⟩ := not_or.1 (List.mem_cons.not.1 h)
    unfold insert
    split
    · rename_i heq
      exact absurd heq hne
    · split
      · exact .refl _
      · exact ((ih hrest).cons e).trans (.swap _ _ _)

/-! ### Listings -/

theorem ofList_concat (entries : List (Text × α)) (e : Text × α) :
    ofList (entries ++ [e]) = insert e.1 e.2 (ofList entries) := by
  simp [ofList]

theorem ordered_ofList (entries : List (Text × α)) : (ofList entries).Ordered := by
  induction entries using List.reverseRecOn with
  | nil => exact List.Pairwise.nil
  | append_singleton entries e ih =>
    rw [ofList_concat]
    exact ordered_insert ih e.1 e.2

theorem mem_keys_ofList {entries : List (Text × α)} :
    key ∈ (ofList entries).map Prod.fst ↔ key ∈ entries.map Prod.fst := by
  induction entries using List.reverseRecOn with
  | nil => rfl
  | append_singleton entries e ih =>
    rw [ofList_concat, mem_keys_insert, ih, List.map_append, List.map_singleton, List.mem_append, List.mem_singleton,
      or_comm]

/-- Entries under distinct keys are all kept. -/
theorem ofList_perm {entries : List (Text × α)} (h : (entries.map Prod.fst).Nodup) : (ofList entries).Perm entries := by
  induction entries using List.reverseRecOn with
  | nil => exact .refl _
  | append_singleton entries e ih =>
    rw [List.map_append, List.map_singleton, List.nodup_append_comm, List.singleton_append, List.nodup_cons] at h
    have hentries : (ofList entries).Perm entries := ih h.2
    have hfresh : e.1 ∉ (ofList entries).map Prod.fst := mem_keys_ofList.not.2 h.1
    rw [ofList_concat]
    exact (insert_perm hfresh).trans ((hentries.cons e).trans (List.perm_append_singleton e entries).symm)

/-- Entries under one key are one entry. -/
theorem Ordered.eq_of_key {e e' : Text × α} (h : d.Ordered) (he : e ∈ d) (he' : e' ∈ d) (hkey : e.1 = e'.1) : e = e' :=
  List.inj_on_of_nodup_map h.nodup he he' hkey

theorem Ordered.eq_of_perm {d' : Dictionary α} (h : d.Ordered) (h' : d'.Ordered) (hperm : d.Perm d') : d = d' := by
  refine hperm.eq_of_pairwise (fun e e' he he' hle hle' => ?_) h.pairwise h'.pairwise
  exact h.eq_of_key he (hperm.mem_iff.2 he') (Text.le_antisymm hle.2 hle'.2)

/-- A dictionary is read back from its entries, in whatever order these are listed. -/
theorem ofList_of_perm {entries : List (Text × α)} (h : d.Ordered) (hperm : entries.Perm d) : ofList entries = d := by
  have hentries : (ofList entries).Perm entries := ofList_perm ((hperm.map Prod.fst).nodup_iff.2 h.nodup)
  exact (ordered_ofList entries).eq_of_perm h (hentries.trans hperm)

/-! ### Searches -/

section

variable {β : Type} {f : Text × α → Option β} {b : β}

private theorem least_of_findSome? (h : d.Ordered) (hfind : d.findSome? f = some b) :
    ∃ e ∈ d, f e = some b ∧ ∀ e' ∈ d, f e' ≠ none → Text.le e.1 e'.1 = true := by
  obtain ⟨before, e, after, rfl, he, hbefore⟩ := List.findSome?_eq_some_iff.1 hfind
  refine ⟨e, by simp, he, fun e' he' hsome => ?_⟩
  rcases List.mem_append.1 he' with he' | he'
  · exact absurd (hbefore e' he') hsome
  · rcases List.mem_cons.1 he' with rfl | he'
    · exact Text.le_refl e'.1
    · exact ((List.pairwise_cons.1 (List.pairwise_append.1 h.pairwise).2.1).1 e' he').2

/-- What is found first is the entry with the least key. -/
theorem Ordered.findSome?_eq_some_iff (h : d.Ordered) : d.findSome? f = some b ↔
    ∃ e ∈ d, f e = some b ∧ ∀ e' ∈ d, f e' ≠ none → Text.le e.1 e'.1 = true := by
  refine ⟨least_of_findSome? h, ?_⟩
  rintro ⟨e, he, hb, hleast⟩
  cases hfind : d.findSome? f with
  | none => cases hb.symm.trans (List.findSome?_eq_none_iff.1 hfind e he)
  | some b' =>
    obtain ⟨e', he', hb', hleast'⟩ := least_of_findSome? h hfind
    have hle : Text.le e.1 e'.1 = true := hleast e' he' (by simp [hb'])
    have hle' : Text.le e'.1 e.1 = true := hleast' e he (by simp [hb])
    rw [← hb, ← hb', h.eq_of_key he he' (Text.le_antisymm hle hle')]

end

end Dictionary

theorem mem_sortedSet {t : Text} {ts : List Text} : t ∈ sortedSet ts ↔ t ∈ ts := by
  rw [sortedSet, Dictionary.mem_keys_ofList]
  simp

end DirectiveEngine
