import DirectiveEngine.Proofs.Template.Percent

/-!
# Names of variables between percent signs

The pass for names goes on at the closing sign of a name that it leaves, and the scanner for spans one character behind
the opening one.  There is no sign between the two, so the pass is the scanner for the names of set variables
(`replaceImplicitVariables_eq`).
-/

namespace DirectiveEngine

variable {store : Store} {actor : Actor} {name v t : Text}

/-- The value of a name that may be that of a variable, if the variable is set to something. -/
def implicit? (store : Store) (actor : Actor) (name : Text) : Option Text :=
  if isImplicitVariable name = true ∧ store.resolve actor name ≠ [] then some (store.resolve actor name) else none

theorem implicit?_eq_some_iff :
    implicit? store actor name = some v ↔ implicitValue store actor name = v ∧ v ≠ [] := by
  rw [implicit?, implicitValue, Option.ite_none_right_eq_some]
  by_cases hname : isImplicitVariable name = true
  · rw [if_pos hname]
    constructor
    · rintro ⟨⟨-, hne⟩, hv⟩
      exact ⟨Option.some.inj hv, Option.some.inj hv ▸ hne⟩
    · rintro ⟨rfl, hne⟩
      exact ⟨⟨hname, hne⟩, rfl⟩
  · rw [if_neg hname]
    constructor
    · exact fun h => absurd h.1.1 hname
    · rintro ⟨rfl, hne⟩
      exact absurd rfl hne

theorem implicit?_eq_none_iff : implicit? store actor name = none ↔ implicitValue store actor name = [] := by
  constructor
  · intro h
    by_contra hne
    have hsome := implicit?_eq_some_iff.2 ⟨rfl, hne⟩
    rw [h] at hsome
    cases hsome
  · intro h
    refine Option.eq_none_iff_forall_ne_some.2 fun v hv => ?_
    obtain ⟨hvalue, hne⟩ := implicit?_eq_some_iff.1 hv
    exact hne (hvalue.symm.trans h)

theorem resolve_of_implicit? (h : implicit? store actor name = some v) : store.resolve actor name = v :=
  Option.some.inj (Option.ite_none_right_eq_some.1 h).2

/-- The two scanners leave the same between one sign and the next. -/
private theorem replaceImplicitVariables_scanner (store : Store) (actor : Actor) (t : Text) :
    replaceImplicitVariables store actor t = replaceDelimited "%" "%" (implicit? store actor) t := by
  fun_induction replaceImplicitVariables store actor t with
  | case1 t hnone => exact (replaceDelimited_of_none hnone).symm
  | case2 t before after hopen hnone => exact (replaceDelimited_of_unclosed hopen hnone).symm
  | case3 t before after hopen name rest hclose value hempty ih =>
    have hspan : IsSpan "%" "%" name rest ("%" ++ after) := isSpan_of_splitFirst? (by decide) hclose
    have hafter : after = name ++ '%' :: rest := by simpa using Text.eq_of_splitFirst? hclose
    have hnone : implicit? store actor name = none := implicit?_eq_none_iff.2 (List.isEmpty_iff.1 hempty)
    have hstep : replaceDelimited "%" "%" (implicit? store actor) t =
        before ++ '%' :: replaceDelimited "%" "%" (implicit? store actor) after :=
      replaceDelimited_of_declined hopen hclose hnone
    have hpass : replaceDelimited "%" "%" (implicit? store actor) after =
        name ++ replaceDelimited "%" "%" (implicit? store actor) ('%' :: rest) :=
      hafter ▸ replaceDelimited_append hspan.sign_not_mem
    rw [hstep, hpass, ih]
    simp
  | case4 t before after hopen name rest hclose value hempty ih =>
    have hvalue : implicit? store actor name = some value :=
      implicit?_eq_some_iff.2 ⟨rfl, fun hnil => hempty (List.isEmpty_iff.2 hnil)⟩
    rw [replaceDelimited_of_some (by decide) hopen hclose hvalue, ih]

/-- The pass for names is the scanner for the names of set variables.  A text without such a name stays, and the values
are put in between the pieces into which the names cut the text, the same for all stores that set these names. -/
theorem replaceImplicitVariables_eq (store : Store) (actor : Actor) (t : Text) :
    replaceImplicitVariables store actor t = replaceDelimited "%" "%" (implicit? store actor) t ∧
      ((∀ name, '%' ∉ name → ("%" ++ name ++ "%" : Text) <:+: t → implicit? store actor name = none) →
        replaceImplicitVariables store actor t = t) ∧
      ∃ x : Cut, x.written "%" "%" = t ∧ x.IsExact "%" "%" (fun name => implicit? store actor name ≠ none) t ∧
        ∀ (store' : Store) (actor' : Actor),
          (∀ name, implicit? store' actor' name = none ↔ implicit? store actor name = none) →
          replaceImplicitVariables store' actor' t = x.fill (x.spans.map fun s => store'.resolve actor' s.inner) := by
  refine ⟨replaceImplicitVariables_scanner store actor t, fun hunset => ?_, ?_⟩
  · have hskips : Skips "%" "%" (fun name => implicit? store actor name ≠ none) t [] := by
      intro u v name rest ht _ hspan
      refine Classical.not_not.2 (hunset name hspan.sign_not_mem ⟨u, rest, ?_⟩)
      rw [ht, ← List.append_nil v, hspan.eq]
      simp
    rw [replaceImplicitVariables_scanner, replaceDelimited_of_skips (by decide) (by decide) hskips]
  · have hsign : ("%" : Text) ≠ [] := by decide
    obtain ⟨x, hx⟩ := Cut.exists_isExact hsign "%" (fun name => implicit? store actor name ≠ none) t
    refine ⟨x, hx.written, hx, fun store' actor' hsame => ?_⟩
    rw [replaceImplicitVariables_scanner, hx.replaceDelimited_map hsign hsign
      (fun name => not_congr (hsame name)) fun name v => resolve_of_implicit?]

/-- The closing sign of a name that is left opens the next one, and a value is not read again. -/
theorem replaceImplicitVariables_eq_adjacent :
    let store : Store := Store.set {} .console "b" "%b%!"
    replaceImplicitVariables store .console "%a%b%" = replaceDelimited "%" "%" (implicit? store .console) "%a%b%" ∧
      replaceImplicitVariables store .console "%a%b%" = "%a%b%!" ∧
      replaceImplicitVariables {} .console "%a%b%" = "%a%b%" := by
  intro store
  refine ⟨(replaceImplicitVariables_eq store .console "%a%b%").1, by decide +kernel, ?_⟩
  exact (replaceImplicitVariables_eq {} .console "%a%b%").2.1 fun name _ _ => if_neg fun h => h.2 rfl

end DirectiveEngine
