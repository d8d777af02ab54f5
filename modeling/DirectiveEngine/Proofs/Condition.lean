import DirectiveEngine.Condition
import DirectiveEngine.Proofs.Template.Delimited
import DirectiveEngine.Template.Variable

/-!
# Conditions on variables

A condition cuts its reference out between colons and a placeholder between percent signs, and only a placeholder stops
at an unset variable.  Both read the same, since no path leads anywhere in an empty text
(`Condition.variableValue_eq_lookup`).  So a condition compares what the placeholder becomes (`holds_variable_iff`).
-/

namespace DirectiveEngine

variable {store : Store} {facts : ActorFacts} {reference t expected : Text}

/-! ### One value under a reference -/

/-- A path has at least one key, and none is found in an empty text. -/
theorem JsonPath.extract_nil (path : Text) : JsonPath.extract [] path = [] := by
  obtain ⟨key, keys, hkeys⟩ := List.exists_cons_of_ne_nil (List.splitOn_ne_nil '.' path)
  rw [extract, hkeys]
  rfl

theorem Condition.variableValue_eq_lookup (store : Store) (actor : Actor) (reference : Text) :
    Condition.variableValue store actor reference = store.lookup actor reference := by
  unfold Condition.variableValue Store.lookup
  cases Text.splitFirst? "." reference with
  | none => rfl
  | some parts =>
    obtain ⟨name, path⟩ := parts
    by_cases hunset : store.resolve actor name = []
    · simp [hunset, JsonPath.extract_nil]
    · simp [hunset]

/-- A placeholder that stands alone becomes the value of its variable. -/
theorem replaceVariableTokens_alone (store : Store) (actor : Actor) (h : '%' ∉ reference) :
    replaceVariableTokens store actor ("%var:" ++ (reference ++ "%")) = store.lookup actor reference := by
  have hopen : Text.splitFirst? "%var:" ("%var:" ++ (reference ++ "%")) = some ([], reference ++ "%") :=
    Text.splitFirst?_append_self (by decide) _
  have hclose : Text.splitFirst? "%" (reference ++ "%") = some (reference, []) :=
    Text.splitFirst?_of_not_mem h [] []
  have hvalue : (fun reference => some (store.lookup actor reference)) reference =
      some (store.lookup actor reference) :=
    rfl
  rw [replaceVariableTokens, replaceDelimited_of_some (by decide) hopen hclose hvalue,
    replaceDelimited_of_none (Text.splitFirst?_nil (by decide)), List.nil_append, List.append_nil]

/-! ### The parts of a condition -/

namespace Condition

theorem substituteActor_of_not_mem (facts : ActorFacts) (h : '%' ∉ t) : substituteActor facts t = t := by
  have hstays (token value : Text) : Text.replaceAll ('%' :: token) value t = t :=
    Text.replaceAll_of_none (Text.splitFirst?_eq_none List.mem_cons_self h)
  have hplayerId : Text.replaceAll "%player_uuid%" (facts.actor.id?.getD []) t = t := hstays _ _
  have hid : Text.replaceAll "%uuid%" (facts.actor.id?.getD []) t = t := hstays _ _
  rw [substituteActor, hplayerId, hid]
  exact hstays _ _

/-- What is expected of a variable, as it stands behind the reference. -/
def expectation : Option Text → Text
  | none => []
  | some expected => ':' :: expected

/-- A condition on a variable is decided by its value, whatever else is known of the actor. -/
theorem holds_variable (hcolon : ':' ∉ reference) (hpercent : '%' ∉ reference) (expected? : Option Text)
    (hexpected : ∀ expected ∈ expected?, '%' ∉ expected) :
    holds facts store ("var:" ++ (reference ++ expectation expected?)) =
      holdsVariable store facts.actor reference expected? := by
  have hstays : '%' ∉ ("var:" : Text) ++ (reference ++ expectation expected?) := by
    cases expected? with
    | none => simpa [expectation] using hpercent
    | some expected => simpa [expectation] using ⟨hpercent, hexpected expected rfl⟩
  have hkind : Text.splitFirst? ":" ("var:" ++ (reference ++ expectation expected?)) =
      some (("var" : String).toList, reference ++ expectation expected?) :=
    Text.splitFirst?_of_not_mem (a := "var") (by decide) [] _
  have hrest : Text.splitUpTo ":" 1 (reference ++ expectation expected?) = reference :: expected?.toList := by
    cases expected? with
    | none =>
      have hnone : Text.splitFirst? ":" (reference ++ expectation none) = none := by
        rw [expectation, List.append_nil]
        exact Text.splitFirst?_eq_none List.mem_cons_self hcolon
      rw [Text.splitUpTo, hnone, expectation, List.append_nil]
      rfl
    | some expected =>
      have hsome : Text.splitFirst? ":" (reference ++ expectation (some expected)) = some (reference, expected) :=
        Text.splitFirst?_of_not_mem hcolon [] expected
      rw [Text.splitUpTo, hsome]
      rfl
  have hparts : Text.splitUpTo ":" 2 ("var:" ++ (reference ++ expectation expected?)) =
      ("var" : String).toList :: reference :: expected?.toList := by
    rw [Text.splitUpTo, hkind, ← hrest]
  rw [holds, substituteActor_of_not_mem facts hstays, hparts]
  cases expected? <;> rfl

/-- A text that starts with no sign is compared as it is. -/
theorem holdsVariable_some (actor : Actor) (reference : Text) (hsign : ¬ "!=" <+: expected) :
    holdsVariable store actor reference (some expected) = (variableValue store actor reference == expected) := by
  unfold holdsVariable
  split
  · contradiction
  · rename_i h
    exact absurd (Option.some.inj h ▸ List.prefix_rfl) hsign
  · rename_i other _ h
    exact absurd (Option.some.inj h ▸ List.prefix_append "!=".toList other) hsign
  · rename_i h
    rw [Option.some.inj h]

theorem holdsVariable_unequal (actor : Actor) (reference : Text) (hne : expected ≠ []) :
    holdsVariable store actor reference (some ("!=" ++ expected)) =
      !(variableValue store actor reference == expected) := by
  obtain ⟨c, t, rfl⟩ := List.exists_cons_of_ne_nil hne
  rfl

end Condition

/-! ### Conditions and placeholders -/

/-- A condition on a variable tells what the placeholder for it becomes: whether that is some text, whether it is
another one, and whether it is any text at all. -/
theorem holds_variable_iff (facts : ActorFacts) (store : Store) (hcolon : ':' ∉ reference) (hpercent : '%' ∉ reference)
    (hne : expected ≠ []) (hexpected : '%' ∉ expected) (hsign : ¬ "!=" <+: expected) :
    let text := replaceVariableTokens store facts.actor ("%var:" ++ (reference ++ "%"))
    let holds (rest : Text) : Bool := Condition.holds facts store ("var:" ++ (reference ++ rest))
    (holds (":" ++ expected) = true ↔ text = expected) ∧
      holds (":!=" ++ expected) = !holds (":" ++ expected) ∧
      (holds [] = true ↔ text ≠ []) ∧ (holds ":!=" = true ↔ text ≠ []) := by
  intro text holds
  have htext : Condition.variableValue store facts.actor reference = text :=
    (Condition.variableValue_eq_lookup ..).trans (replaceVariableTokens_alone store facts.actor hpercent).symm
  have hcondition (expected? : Option Text) (h : ∀ expected ∈ expected?, '%' ∉ expected) :
      holds (Condition.expectation expected?) = Condition.holdsVariable store facts.actor reference expected? :=
    Condition.holds_variable hcolon hpercent expected? h
  have hequal : holds (":" ++ expected) = (text == expected) := by
    rw [← htext, ← Condition.holdsVariable_some _ _ hsign]
    exact hcondition (some expected) (by simpa using hexpected)
  have hunequal : holds (":!=" ++ expected) = !(text == expected) := by
    rw [← htext, ← Condition.holdsVariable_unequal _ _ hne]
    exact hcondition (some ("!=" ++ expected)) (by simpa using hexpected)
  have hset : holds [] = !text.isEmpty := by
    rw [← htext]
    exact hcondition none (by simp)
  have hsome : holds ":!=" = !text.isEmpty := by
    rw [← htext]
    exact hcondition (some "!=") (by simp)
  refine ⟨by rw [hequal, beq_iff_eq], by rw [hunequal, hequal], ?_, ?_⟩
  · rw [hset]
    simp
  · rw [hsome]
    simp

/-- A path into JSON, an expected text with a colon in it, and a player who is not online. -/
theorem holds_variable_iff_path :
    let facts : ActorFacts := ⟨.player "p", none, fun _ => false⟩
    let store : Store := { shared := [("site", "\x7b\"at\": \x7b\"url\": \"a:b\"\x7d\x7d")] }
    let text := replaceVariableTokens store facts.actor ("%var:" ++ (("site.at.url" : Text) ++ "%"))
    let holds (rest : Text) : Bool := Condition.holds facts store ("var:" ++ (("site.at.url" : Text) ++ rest))
    (':' ∉ ("site.at.url" : Text) ∧ '%' ∉ ("site.at.url" : Text) ∧ ("a:b" : Text) ≠ [] ∧ '%' ∉ ("a:b" : Text) ∧
      ¬ ("!=" : Text) <+: "a:b") ∧
      text = "a:b" ∧ holds ":a:b" = true ∧ holds ":!=a:b" = false ∧ holds [] = true ∧ holds ":!=" = true := by
  intro facts store text holds
  have htext : text = "a:b" := by decide +kernel
  have hcolon : ':' ∉ ("site.at.url" : Text) := by decide
  have hpercent : '%' ∉ ("site.at.url" : Text) := by decide
  have hne : ("a:b" : Text) ≠ [] := by decide
  have hexpected : '%' ∉ ("a:b" : Text) := by decide
  have hsign : ¬ ("!=" : Text) <+: "a:b" := by decide
  obtain ⟨hequal, hunequal, hset, hsome⟩ := holds_variable_iff facts store hcolon hpercent hne hexpected hsign
  have hholds : holds ":a:b" = true := hequal.2 htext
  have hany : text ≠ [] := fun hempty => hne (htext.symm.trans hempty)
  exact ⟨⟨hcolon, hpercent, hne, hexpected, hsign⟩, htext, hholds, hunequal.trans (congrArg not hholds), hset.2 hany,
    hsome.2 hany⟩

end DirectiveEngine
