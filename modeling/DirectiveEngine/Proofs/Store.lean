import DirectiveEngine.Proofs.Text.Search
import DirectiveEngine.Store

/-!
# Reading variables

A variable reads as it was set last, under its name in any letter case (`Store.get_set`), and only its own scope changes
(`Store.scope_set`).  What a reference reads is cut out of the value of a variable, also where it leads into JSON
(`JsonPath.mem_of_mem_extract`), so it holds no character that the values lack.
-/

namespace DirectiveEngine

variable {t key : Text} {c : Char}

namespace JsonPath

private theorem mem_of_mem_balanced {opening closing : Char} {depth : Nat}
    (h : c ∈ balanced opening closing depth t) : c ∈ t := by
  fun_induction balanced opening closing depth t <;> grind

private theorem mem_of_value? {value : Text} (h : value? t = some value) (hc : c ∈ value) : c ∈ t := by
  unfold value? at h
  split at h
  · simp at h
  · obtain ⟨⟨a, b⟩, hs, rfl⟩ := Option.map_eq_some_iff.1 h
    exact List.mem_cons_of_mem _ (Text.mem_of_splitFirst? hs (.inl hc))
  · exact mem_of_mem_balanced (Option.some.inj h ▸ hc)
  · exact mem_of_mem_balanced (Option.some.inj h ▸ hc)
  · rw [← Option.some.inj h] at hc
    exact List.takeWhile_sublist _ |>.subset (Text.mem_of_mem_trim hc)

private theorem mem_of_step? {value : Text} (h : step? t key = some value) (hc : c ∈ value) : c ∈ t := by
  simp only [step?, Option.bind_eq_bind, Option.bind_eq_some_iff] at h
  obtain ⟨⟨before, after⟩, hs, ⟨skipped, rest⟩, hs', hv⟩ := h
  have hrest := Text.mem_of_splitFirst? hs' (.inr (Text.mem_of_mem_trimStart (mem_of_value? hv hc)))
  rw [Text.eq_of_splitFirst? hs]
  simp_all

private theorem mem_of_follow? {keys : List Text} {value : Text} (h : follow? keys t = some value)
    (hc : c ∈ value) :
    c ∈ t := by
  induction keys generalizing t with
  | nil => rwa [Option.some.inj h]
  | cons key keys ih =>
    obtain ⟨inner, hstep, hrest⟩ := Option.bind_eq_some_iff.1 h
    exact mem_of_step? hstep (ih hrest)

/-- A path cuts its value out of the JSON text. -/
theorem mem_of_mem_extract {path : Text} (h : c ∈ extract t path) : c ∈ t := by
  unfold extract at h
  cases hf : follow? (path.splitOn '.') t.trim with
  | none => simp [hf] at h
  | some value =>
    rw [hf] at h
    exact Text.mem_of_mem_trim (mem_of_follow? hf h)

end JsonPath

namespace Store

variable {s : Store} {actor : Actor}

/-- What is set in the scope of one actor is not seen in that of another. -/
theorem scope_set (s : Store) (actor : Actor) (key value : Text) (other : Actor) :
    (s.set actor key value).scope other =
      if other = actor then Dictionary.insert key.lower value (s.scope actor) else s.scope other := by
  cases actor with
  | console => cases other <;> simp [scope, set]
  | player id =>
    cases other with
    | console => simp [scope, set]
    | player id' => by_cases hid : id' = id <;> simp [scope, set, Dictionary.get?_insert, hid]

/-- A name is the same variable in any letter case. -/
theorem get_set (s : Store) (actor : Actor) (key value name : Text) :
    (s.set actor key value).get actor name = if name.lower = key.lower then value else s.get actor name := by
  unfold get
  rw [scope_set, if_pos rfl, Dictionary.get?_insert]
  split <;> rfl

/-- A variable of another name keeps its value, whoever it belongs to. -/
theorem get_set_of_ne (s : Store) {actor other : Actor} {key name : Text} (value : Text) (h : name.lower ≠ key.lower) :
    (s.set actor key value).get other name = s.get other name := by
  unfold get
  rw [scope_set]
  split
  · rename_i hactor
    rw [Dictionary.get?_insert, if_neg h, hactor]
  · rfl

theorem resolve_set_self (s : Store) (actor : Actor) (key : Text) {value : Text} (h : value ≠ []) :
    (s.set actor key value).resolve actor key = value := by
  rw [resolve, get_set, if_pos rfl, List.isEmpty_eq_false_iff.2 h]
  rfl

theorem resolve_set_of_ne (s : Store) {actor : Actor} {key name : Text} (value : Text) (h : name.lower ≠ key.lower) :
    (s.set actor key value).resolve actor name = s.resolve actor name := by
  rw [resolve, get_set_of_ne s value h, get_set_of_ne s value h, resolve]

/-- A reference without a dot is a name. -/
theorem lookup_of_not_mem (s : Store) (actor : Actor) {reference : Text} (h : '.' ∉ reference) :
    s.lookup actor reference = s.resolve actor reference := by
  have hnone : Text.splitFirst? "." reference = none := Text.splitFirst?_eq_none List.mem_cons_self h
  rw [lookup, hnone]

/-- An actor reads the same in two stores. -/
structure ReadsAlike (actor : Actor) (s t : Store) : Prop where
  get : ∀ key, s.get actor key = t.get actor key
  shared : ∀ key, s.get .console key = t.get .console key
  resolve : ∀ key, s.resolve actor key = t.resolve actor key
  lookup : ∀ reference, s.lookup actor reference = t.lookup actor reference

/-- An actor reads its own scope and the shared one only. -/
theorem readsAlike_of_scope {t : Store} (hown : s.scope actor = t.scope actor)
    (hshared : s.scope .console = t.scope .console) : ReadsAlike actor s t := by
  have hget (key : Text) : s.get actor key = t.get actor key := by rw [get, hown, get]
  have hconsole (key : Text) : s.get .console key = t.get .console key := by rw [get, hshared, get]
  have hresolve (key : Text) : s.resolve actor key = t.resolve actor key := by
    rw [resolve, hget, hconsole, resolve]
  refine ⟨hget, hconsole, hresolve, fun reference => ?_⟩
  unfold lookup
  simp only [hresolve]

theorem not_mem_resolve (h : ∀ actor key, c ∉ s.get actor key) : c ∉ s.resolve actor key := by
  unfold resolve
  split
  · exact h .console key
  · exact h actor key

theorem not_mem_lookup (h : ∀ actor key, c ∉ s.get actor key) (reference : Text) :
    c ∉ s.lookup actor reference := by
  unfold lookup
  split
  · rename_i name path _
    simp only
    split
    · simp
    · exact fun hc => not_mem_resolve h (JsonPath.mem_of_mem_extract hc)
  · exact not_mem_resolve h

end Store

end DirectiveEngine
