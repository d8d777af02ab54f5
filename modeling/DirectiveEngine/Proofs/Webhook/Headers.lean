import DirectiveEngine.Proofs.Dictionary
import DirectiveEngine.Webhook.Headers

/-!
# Headers that are sent

Headers are sent all together or not at all, whatever the rules for names and values are: a single unfit one is enough,
and the first of them is reported (`HeaderRules.build_all_or_nothing`).  Names that differ in letter case only are one
name, under which the last of the headers counts, so that a content type in any letter case is kept.
-/

namespace DirectiveEngine

variable {headers hs : Dictionary Text} {h : Text × Text} {key name value : Text} {fault : HeaderFault}

/-! ### The last header under a name -/

/-- The value of the last header, in code point order of the names, whose name is `key` in lowercase. -/
def IsLastUnder (headers : Dictionary Text) (key value : Text) : Prop :=
  ∃ name, (name, value) ∈ headers ∧ name.lowerAscii = key ∧
    ∀ h ∈ headers, h.1.lowerAscii = key → Text.le h.1 name = true

/-- A header behind all others is the last one under its name. -/
theorem isLastUnder_concat (hordered : Dictionary.Ordered (hs ++ [h])) : IsLastUnder (hs ++ [h]) key value ↔
    if key = h.1.lowerAscii then value = h.2 else IsLastUnder hs key value := by
  have hlast : ∀ h' ∈ hs, h'.1 ≠ h.1 ∧ Text.le h'.1 h.1 = true := fun h' hmem =>
    (List.pairwise_append.1 hordered.pairwise).2.2 h' hmem h List.mem_cons_self
  split
  · rename_i hkey
    constructor
    · rintro ⟨name, hmem, -, hgreatest⟩
      have hle : Text.le h.1 name = true := hgreatest h (by simp) hkey.symm
      rcases List.mem_append.1 hmem with hmem | hmem
      · exact absurd (Text.le_antisymm (hlast _ hmem).2 hle) (hlast _ hmem).1
      · rw [← List.mem_singleton.1 hmem]
    · rintro rfl
      refine ⟨h.1, by simp, hkey.symm, fun h' hmem _ => ?_⟩
      rcases List.mem_append.1 hmem with hmem | hmem
      · exact (hlast h' hmem).2
      · rw [List.mem_singleton.1 hmem]
        exact Text.le_refl h.1
  · rename_i hkey
    -- the header at the end has another name, so it neither is the last one under this name nor comes behind it
    refine exists_congr fun name => ?_
    constructor
    · rintro ⟨hmem, hname, hgreatest⟩
      refine ⟨(List.mem_append.1 hmem).resolve_right fun hmem => ?_, hname, fun h' hmem => hgreatest h' (by simp [hmem])⟩
      rw [← List.mem_singleton.1 hmem] at hkey
      exact hkey hname.symm
    · rintro ⟨hmem, hname, hgreatest⟩
      refine ⟨by simp [hmem], hname, fun h' hmem hname' => ?_⟩
      rcases List.mem_append.1 hmem with hmem | hmem
      · exact hgreatest h' hmem hname'
      · rw [List.mem_singleton.1 hmem] at hname'
        exact absurd hname'.symm hkey

/-- Under a name in lowercase the last of the headers is kept. -/
theorem get?_ofList_lower (hordered : headers.Ordered) :
    (Dictionary.ofList (headers.map fun h => (h.1.lowerAscii, h.2))).get? key = some value ↔
      IsLastUnder headers key value := by
  induction headers using List.reverseRecOn with
  | nil => simp [Dictionary.ofList, Dictionary.get?, IsLastUnder]
  | append_singleton hs h ih =>
    have hhs : Dictionary.Ordered hs := List.pairwise_map.2 (List.pairwise_append.1 hordered.pairwise).1
    rw [List.map_append, List.map_singleton, Dictionary.ofList_concat, Dictionary.get?_insert,
      isLastUnder_concat hordered, ← ih hhs]
    split
    · simp [eq_comm]
    · rfl

theorem get?_ofList_lower_eq_none_iff :
    (Dictionary.ofList (headers.map fun h => (h.1.lowerAscii, h.2))).get? key = none ↔
      ∀ h ∈ headers, h.1.lowerAscii ≠ key := by
  rw [Dictionary.get?_eq_none_iff, Dictionary.mem_keys_ofList, List.map_map, List.mem_map, not_exists]
  exact forall_congr' fun h => not_and

/-- What is sent for headers that fit: one entry for each name in lowercase, and a content type. -/
structure IsSentFor (headers sent : Dictionary Text) : Prop where
  ordered : sent.Ordered
  mem_iff : ∀ key value, (key, value) ∈ sent ↔ IsLastUnder headers key value ∨
    key = "content-type" ∧ value = "application/json" ∧ ∀ h ∈ headers, h.1.lowerAscii ≠ "content-type"
  key_mem_iff : ∀ key, key ∈ sent.map Prod.fst ↔ (∃ h ∈ headers, h.1.lowerAscii = key) ∨ key = "content-type"

namespace HeaderRules

variable (r : HeaderRules)

/-! ### Unfit headers -/

def Fits (h : Text × Text) : Prop :=
  r.isName h.1 = true ∧ r.isValue h.2 = true

instance (h : Text × Text) : Decidable (r.Fits h) :=
  inferInstanceAs (Decidable (_ ∧ _))

/-- The first header, in code point order of the names, that does not fit, and what is wrong with it. -/
def IsFirstUnfit (headers : Dictionary Text) (name : Text) (fault : HeaderFault) : Prop :=
  ∃ value, (name, value) ∈ headers ∧ ¬ r.Fits (name, value) ∧
    fault = (if r.isName name = true then HeaderFault.value else HeaderFault.name) ∧
    ∀ h ∈ headers, ¬ r.Fits h → Text.le name h.1 = true

theorem fault?_eq_some_iff : r.fault? name value = some fault ↔
    ¬ r.Fits (name, value) ∧ fault = if r.isName name = true then HeaderFault.value else HeaderFault.name := by
  unfold fault? Fits
  cases r.isName name <;> cases r.isValue value <;> simp [eq_comm]

theorem fault?_eq_none_iff (h : Text × Text) : r.fault? h.1 h.2 = none ↔ r.Fits h := by
  unfold fault? Fits
  cases r.isName h.1 <;> cases r.isValue h.2 <;> simp

private theorem build_eq_error_iff_findSome? {failure : Text × HeaderFault} : r.build headers = .error failure ↔
    (headers.findSome? fun h => (r.fault? h.1 h.2).map fun f => (h.1, f)) = some failure := by
  unfold build
  split
  · rename_i hfind
    simp [hfind]
  · rename_i hfind
    rw [hfind]
    refine iff_of_false (fun h => ?_) (by simp)
    simp only at h
    split at h <;> cases h

/-- Building fails if and only if some header does not fit. -/
theorem exists_build_eq_error_iff : (∃ failure, r.build headers = .error failure) ↔ ∃ h ∈ headers, ¬ r.Fits h := by
  simp only [build_eq_error_iff_findSome?, ← Option.isSome_iff_exists, List.findSome?_isSome_iff, Option.isSome_map]
  simp only [Option.isSome_iff_ne_none, ne_eq, fault?_eq_none_iff]

/-- The first header that does not fit is reported. -/
theorem build_eq_error_iff (hordered : headers.Ordered) :
    r.build headers = .error (name, fault) ↔ r.IsFirstUnfit headers name fault := by
  rw [build_eq_error_iff_findSome?, hordered.findSome?_eq_some_iff]
  simp only [ne_eq, Option.map_eq_none_iff, fault?_eq_none_iff, Option.map_eq_some_iff, fault?_eq_some_iff,
    Prod.mk.injEq, IsFirstUnfit]
  constructor
  · rintro ⟨⟨name', value⟩, hmem, ⟨fault', ⟨hunfit, hfault⟩, rfl, rfl⟩, hleast⟩
    exact ⟨value, hmem, hunfit, hfault, hleast⟩
  · rintro ⟨value, hmem, hunfit, hfault, hleast⟩
    exact ⟨(name, value), hmem, ⟨fault, ⟨hunfit, hfault⟩, rfl, rfl⟩, hleast⟩

/-! ### Headers that fit -/

/-- What is given comes before the content type that is added. -/
private theorem exists_build_eq_ok (hfits : ∀ h ∈ headers, r.Fits h) :
    ∃ sent, r.build headers = .ok sent ∧ sent.Ordered ∧
      ∀ key, sent.get? key = ((Dictionary.ofList (headers.map fun h => (h.1.lowerAscii, h.2))).get? key).or
        (if key = "content-type" then some ("application/json" : Text) else none) := by
  have hfind : (headers.findSome? fun h => (r.fault? h.1 h.2).map fun f => (h.1, f)) = none := by
    simpa [fault?_eq_none_iff] using hfits
  unfold build
  rw [hfind]
  simp only
  cases htype : (Dictionary.ofList (headers.map fun h => (h.1.lowerAscii, h.2))).get? "content-type" with
  | some value =>
    refine ⟨_, rfl, Dictionary.ordered_ofList _, fun key => ?_⟩
    split
    · rename_i hkey
      rw [hkey, htype, Option.some_or]
    · rw [Option.or_none]
  | none =>
    refine ⟨_, rfl, Dictionary.ordered_insert (Dictionary.ordered_ofList _) _ _, fun key => ?_⟩
    rw [Dictionary.get?_insert]
    split
    · rename_i hkey
      rw [hkey, htype, Option.none_or]
    · rw [Option.or_none]

/-- Headers that all fit are sent. -/
theorem build_of_fits (hordered : headers.Ordered) (hfits : ∀ h ∈ headers, r.Fits h) :
    ∃ sent, r.build headers = .ok sent ∧ IsSentFor headers sent := by
  obtain ⟨sent, hsent, hsentOrdered, hget⟩ := r.exists_build_eq_ok hfits
  refine ⟨sent, hsent, hsentOrdered, fun key value => ?_, fun key => ?_⟩
  · rw [hsentOrdered.mem_iff, hget, Option.or_eq_some_iff, get?_ofList_lower hordered, get?_ofList_lower_eq_none_iff]
    refine or_congr_right ?_
    by_cases hkey : key = "content-type"
    · rw [if_pos hkey, Option.some_inj, hkey]
      exact ⟨fun ⟨hnone, hvalue⟩ => ⟨rfl, hvalue.symm, hnone⟩, fun ⟨_, hvalue, hnone⟩ => ⟨hnone, hvalue.symm⟩⟩
    · rw [if_neg hkey]
      exact iff_of_false (fun h => nomatch h.2) fun h => hkey h.1
  · rw [← Decidable.not_iff_not, ← Dictionary.get?_eq_none_iff, hget, Option.or_eq_none_iff,
      get?_ofList_lower_eq_none_iff, not_or]
    refine and_congr (by simp only [not_exists, not_and, ne_eq]) ?_
    by_cases hkey : key = "content-type"
    · rw [if_pos hkey]
      exact iff_of_false nofun (not_not_intro hkey)
    · rw [if_neg hkey]
      exact iff_of_true rfl hkey

/-- Headers are sent all together or not at all.  Building fails if and only if one of them does not fit, and the first
of these is reported.  Otherwise each name in lowercase is sent once, with the value of the last header under it, and a
content type is added if and only if none is given in any letter case. -/
theorem build_all_or_nothing (hordered : headers.Ordered) :
    ((∃ failure, r.build headers = .error failure) ↔ ∃ h ∈ headers, ¬ r.Fits h) ∧
      (∀ name fault, r.build headers = .error (name, fault) ↔ r.IsFirstUnfit headers name fault) ∧
        ((∀ h ∈ headers, r.Fits h) → ∃ sent, r.build headers = .ok sent ∧ IsSentFor headers sent) :=
  ⟨r.exists_build_eq_error_iff, fun _ _ => r.build_eq_error_iff hordered, r.build_of_fits hordered⟩

/-- Two names that differ in letter case, with another one between them. -/
theorem build_all_or_nothing_case :
    Dictionary.Ordered [(("A" : Text), ("1" : Text)), ("B", "2"), ("a", "3")] ∧
      ∃ sent, buildHeaders [("A", "1"), ("B", "2"), ("a", "3")] = .ok sent ∧
        IsSentFor [("A", "1"), ("B", "2"), ("a", "3")] sent :=
  have hordered : Dictionary.Ordered [(("A" : Text), ("1" : Text)), ("B", "2"), ("a", "3")] := by decide
  ⟨hordered, (build_all_or_nothing .http hordered).2.2 (by decide +kernel)⟩

/-- The values of the last name count, and the first fault is reported. -/
example :
    buildHeaders [("A", "1"), ("B", "2"), ("a", "3")] =
        .ok [("a", "3"), ("b", "2"), ("content-type", "application/json")] ∧
      buildHeaders [("A", "1"), ("b c", "\n"), ("c d", "")] = .error ("b c", .name) := by
  decide +kernel

end HeaderRules

end DirectiveEngine
