import DirectiveEngine.Proofs.Condition
import DirectiveEngine.Proofs.Directive.RoundTrip
import DirectiveEngine.Proofs.Engine.Loop
import DirectiveEngine.Proofs.Text.LetterCase

/-!
# Assigning and reading back

A variable that an assignment sets reads as the value that is written there, whatever it read before, and blanks may
stand around the name and the value.  But they are taken off before a tilde is, so that a blank in front of a tilde
stays at the end of the name, and another variable is set (`assignment_reads_back`).
-/

namespace DirectiveEngine

variable {σ : Type} {t name v g₁ g₂ g₃ g₄ : Text}

open Run (after value)

/-! ### Reading an assignment -/

namespace Directive

theorem parse_plus {rest : Text} (hbracket : '[' ∉ rest) (htrim : Text.trim ('+' :: rest) = '+' :: rest) :
    parse ('+' :: rest) =
      { raw := '+' :: rest, delay := 0, gate := .always, asConsole := false, quiet := false, weight? := none,
        kind := .assignment (parseAssignment? rest), body := [] } := by
  have hmark : (takeMark '/' (Text.trim ('+' :: rest))).2 = '+' :: rest := by
    rw [htrim]
    rfl
  have hmessage : Text.stripPrefix? "#message" ('+' :: rest) = none := rfl
  rw [parse_of_not_mem (by simpa using hbracket) (by rw [hmark, hmessage]), hmark, htrim]
  rfl

section Gaps

variable (hname : IsWord name) (hne : name ≠ []) (hblank : ∀ g ∈ [g₁, g₂, g₃, g₄], Text.isBlankText g = true)
include hname hblank

private theorem not_mem_gaps {c : Char} (hc : isBlank c = false) (hword : isWordChar c = false) (htilde : c ≠ '~')
    (quiet : Bool) : c ∉ g₁ ++ name ++ g₂ ++ (if quiet then '~' :: g₃ else []) := by
  have hgap : ∀ g ∈ [g₁, g₂, g₃, g₄], c ∉ g := by
    intro g hg hmem
    rw [List.all_eq_true.1 (hblank g hg) c hmem] at hc
    exact absurd hc (by decide)
  have hletter : c ∉ name := by
    intro hmem
    rw [hname c hmem] at hword
    exact absurd hword (by decide)
  simp only [List.forall_mem_cons] at hgap
  cases quiet <;> simp [hletter, htilde, hgap.1, hgap.2.1, hgap.2.2.1]

include hne

private theorem trim_gaps (quiet : Bool) : Text.trim (g₁ ++ name ++ g₂ ++ (if quiet then '~' :: g₃ else [])) =
    if quiet then name ++ g₂ ++ ['~'] else name := by
  cases quiet with
  | false =>
    rw [if_neg Bool.false_ne_true, if_neg Bool.false_ne_true, List.append_nil,
      Text.trim_append_right (hblank g₂ (by simp)), Text.trim_append_left (hblank g₁ (by simp)), hname.trim]
  | true =>
    have hhead : ∀ c ∈ (name ++ g₂).head?, isBlank c = false := by
      rw [List.head?_append_of_ne_nil _ hne]
      exact fun c hc => hname.not_isBlank c (List.mem_of_head? hc)
    have hcut : g₁ ++ name ++ g₂ ++ '~' :: g₃ = g₁ ++ (name ++ g₂ ++ ['~'] ++ g₃) := by simp
    rw [if_pos rfl, if_pos rfl, hcut, Text.trim_append_left (hblank g₁ (by simp)),
      Text.trim_append_right (hblank g₃ (by simp)), Text.trim_append hhead (by decide) (by simp)]

/-- Only the blanks between the name and a tilde are kept. -/
theorem parseAssignment?_gaps (hv : v.trim = v) (quiet : Bool) :
    parseAssignment? (g₁ ++ name ++ g₂ ++ (if quiet then '~' :: g₃ else []) ++ ':' :: (g₄ ++ v)) =
      some ⟨if quiet then name ++ g₂ else name, v, quiet⟩ := by
  have hcolon : ':' ∉ g₁ ++ name ++ g₂ ++ (if quiet then '~' :: g₃ else []) :=
    not_mem_gaps hname hblank (by decide) (by decide) (by decide) quiet
  have hvalue : Text.trim (g₄ ++ v) = v := (Text.trim_append_left (hblank g₄ (by simp)) v).trans hv
  rw [parseAssignment?, splitAtColon?_of_not_mem (by simp [hne]) hcolon, hvalue, trim_gaps hname hne hblank,
    Option.map_some]
  cases quiet with
  | false =>
    have hlast : Text.stripLast? '~' name = none := by
      refine if_neg fun hlast => ?_
      exact hname.words.not_mem (c := '~') (by decide) (List.mem_of_getLast? hlast)
    simp [hlast]
  | true =>
    have hlast : Text.stripLast? '~' (name ++ g₂ ++ ['~']) = some (name ++ g₂) := by simp [Text.stripLast?]
    simp only [if_true, hlast]

/-- The action is nothing but an assignment. -/
theorem parse_gaps (hv : IsItem v) (quiet : Bool) :
    let action : Text := '+' :: (g₁ ++ name ++ g₂ ++ (if quiet then '~' :: g₃ else []) ++ ':' :: (g₄ ++ v))
    parse action =
      { raw := action, delay := 0, gate := .always, asConsole := false, quiet := false, weight? := none,
        kind := .assignment (some ⟨if quiet then name ++ g₂ else name, v, quiet⟩), body := [] } := by
  intro action
  have hbracket : '[' ∉ g₁ ++ name ++ g₂ ++ (if quiet then '~' :: g₃ else []) ++ ':' :: (g₄ ++ v) := by
    have hfront := not_mem_gaps (c := '[') hname hblank (by decide) (by decide) (by decide) quiet
    have hgap : '[' ∉ g₄ := fun hmem => absurd (List.all_eq_true.1 (hblank g₄ (by simp)) '[' hmem) (by decide)
    have hvalue : '[' ∉ ':' :: (g₄ ++ v) := by simp [hgap, hv.words.not_mem (c := '[') (by decide)]
    exact List.not_mem_append hfront hvalue
  have htrim : action.trim = action := by
    have hcut : action = '+' :: (g₁ ++ name ++ g₂ ++ (if quiet then '~' :: g₃ else []) ++ ':' :: g₄) ++ v := by
      simp [action]
    rw [hcut]
    exact Text.trim_append (fun c hc => Option.some.inj hc ▸ rfl) hv.trim hv.ne_nil
  rw [← parseAssignment?_gaps hname hne hblank hv.trim quiet]
  exact parse_plus hbracket htrim

end Gaps

end Directive

/-! ### Setting a variable -/

theorem store_after_executeAssignment (e : Engine σ) (inv : Invocation) {spec : AssignmentSpec}
    (hname : IsPlainLine spec.name) (hvalue : IsPlainLine spec.value) (w : World σ) :
    (after (e.executeAssignment inv spec) w).store = w.store.set inv.actor spec.name spec.value := by
  have hstill {t : Text} (ht : IsPlainLine t) (v : World σ) :
      value (e.resolveFor inv t) v = t ∧ after (e.resolveFor inv t) v = v :=
    ⟨e.value_resolve_plain ht _ _ v, e.after_resolve_plain ht _ _ v⟩
  have htold (loud : Bool) (t : Text) (v : World σ) :
      (after (if loud then e.tell inv.actor t .green else pure ()) v).store = v.store := by
    cases loud <;> rfl
  rw [Engine.executeAssignment, Run.after_bind, (hstill hname w).1, (hstill hname w).2, Run.after_bind,
    (hstill hvalue w).1, (hstill hvalue w).2, Run.after_bind, htold]
  rfl

/-- An assignment of plain texts sets the variable of its name. -/
theorem store_after_invoke_assignment (e : Engine σ) {action : Text} {spec : AssignmentSpec} {d : Directive}
    (hd : Directive.parse action = d) (hkind : d.kind = .assignment (some spec)) (hdelay : d.delay = 0)
    (hgate : d.gate = .always) (hweight : d.weight? = none) (hname : IsPlainLine spec.name)
    (hvalue : IsPlainLine spec.value) (draw : Nat) (actor : Actor) (args : List Text) (w : World σ) :
    (after (e.invoke draw actor args [action]) w).store = w.store.set actor spec.name spec.value := by
  let inv : Invocation := ⟨w.invocations, actor, args⟩
  have hperform : e.perform inv d = e.executeAssignment inv spec := by
    rw [Engine.perform, hkind]
  have hsafe : Run.IsSafe (e.executeAssignment inv spec) :=
    .bind (e.isSafe_resolve_plain hname actor args) fun _ => .bind (e.isSafe_resolve_plain hvalue actor args) fun _ =>
      .bind (.modifyGet _) fun _ => .guarded (e.isSafe_tell _ _ _) _
  rw [after_invoke_single e hd hdelay hgate hweight, hperform, (Run.attempt_of_not_panics (hsafe _)).2]
  exact store_after_executeAssignment e inv hname hvalue _

/-! ### Reading it back -/

/-- A reference to a variable with a plain value becomes that value. -/
theorem Engine.value_resolve_reference (e : Engine σ) {actor : Actor} {w : World σ} (hsign : '%' ∉ name)
    (hback : '\\' ∉ name) (hplain : IsPlainLine (w.store.lookup actor name)) (args : List Text) :
    value (e.resolve actor args ("%var:" ++ (name ++ "%"))) w = w.store.lookup actor name := by
  have hspan : ("%var:" ++ (name ++ "%") : Text) = '%' :: ("var:" ++ name ++ ['%']) := by simp
  have hwordless : IsWordless ("%var:" ++ (name ++ "%")) := by
    rw [hspan]
    exact isWordless_span (by simpa using hsign) (by simp) (by simp)
  obtain ⟨inner, hexpand⟩ := e.expand_wordless hwordless (by simpa using hback) w actor args
  rw [replaceVariableTokens_alone _ _ hsign, replaceServerTokens_of_not_mem (hplain.not_mem (by decide))] at hexpand
  exact (e.resolve_of_expand hexpand hplain).1

theorem Engine.value_resolve_name (e : Engine σ) {actor : Actor} {w : World σ} (hname : IsWord name)
    (hplain : IsPlainLine (w.store.resolve actor name)) (args : List Text) :
    value (e.resolve actor args ("%var:" ++ (name ++ "%"))) w = w.store.resolve actor name := by
  have hlookup : w.store.lookup actor name = w.store.resolve actor name :=
    w.store.lookup_of_not_mem actor (hname.words.not_mem (by decide))
  rw [← hlookup] at hplain ⊢
  exact e.value_resolve_reference (hname.words.not_mem (by decide)) (hname.words.not_mem (by decide)) hplain args

/-- An assignment of a text of words under a name, with blanks around its parts, sets the variable of that name, but if
there is a tilde with blanks in front, these are part of the name.  So the name reads as the value, unless there are
such blanks, and then it reads as it did before. -/
theorem assignment_reads_back (e : Engine σ) (hname : IsWord name) (hne : name ≠ []) (hv : IsItem v)
    (hblank : ∀ g ∈ [g₁, g₂, g₃, g₄], Text.isBlankText g = true) (quiet : Bool) (draw : Nat) (actor : Actor)
    (args args' : List Text) (w : World σ) :
    let action : Text := '+' :: (g₁ ++ name ++ g₂ ++ (if quiet then '~' :: g₃ else []) ++ ':' :: (g₄ ++ v))
    let u := after (e.invoke draw actor args [action]) w
    let read := value (e.resolve actor args' ("%var:" ++ (name ++ "%"))) u
    u.store = w.store.set actor (if quiet then name ++ g₂ else name) v ∧
      ((quiet = true → g₂ = []) → read = v) ∧
        (quiet = true → g₂ ≠ [] → IsPlainLine (w.store.resolve actor name) → read = w.store.resolve actor name) := by
  intro action u read
  have hstore : u.store = w.store.set actor (if quiet then name ++ g₂ else name) v := by
    have hplain : IsPlainLine (if quiet then name ++ g₂ else name) := by
      refine isPlainLine_of_chars fun c hc => ?_
      split at hc
      · exact (List.mem_append.1 hc).symm.imp (List.all_eq_true.1 (hblank g₂ (by simp)) c) (hname c)
      · exact .inr (hname c hc)
    exact store_after_invoke_assignment e (Directive.parse_gaps hname hne hblank hv quiet) rfl rfl rfl rfl hplain
      hv.words.isPlainLine draw actor args w
  have hread (hplain : IsPlainLine (u.store.resolve actor name)) : read = u.store.resolve actor name :=
    e.value_resolve_name hname hplain args'
  clear_value read u
  refine ⟨hstore, fun hgap => ?_, fun hquiet hgap hplain => ?_⟩
  · have hkey : (if quiet then name ++ g₂ else name) = name := by
      split
      · rename_i hquiet
        rw [hgap hquiet, List.append_nil]
      · rfl
    have hset : u.store.resolve actor name = v := by
      rw [hstore, hkey, Store.resolve_set_self _ _ _ hv.ne_nil]
    exact (hread (by rw [hset]; exact hv.words.isPlainLine)).trans hset
  · have hkept : u.store.resolve actor name = w.store.resolve actor name := by
      rw [hstore, if_pos hquiet, Store.resolve_set_of_ne _ _ (Text.lower_append_ne hgap name).symm]
    exact (hread (by rw [hkept]; exact hplain)).trans hkept

/-- A tilde right behind the name, and blanks of several kinds elsewhere. -/
theorem assignment_reads_back_score :
    let e : Engine Script := { host := Script.host, config := {} }
    let w : World Script := { host := { files := ⟨[], [], []⟩ }, store := { shared := [("score_1", "old")] } }
    let u := after (e.invoke 0 .console [] ["+ \tScore_1~\n : 40 to 2"]) w
    value (e.resolve .console [] "%var:Score_1%") u = "40 to 2" := by
  intro e w u
  have hname : IsWord "Score_1" := by decide
  have hv : IsItem "40 to 2" := ⟨by decide, by decide, by decide⟩
  have hblank : ∀ g ∈ [(" \t" : Text), "", "\n ", " "], Text.isBlankText g = true := by decide
  have htext : ("+ \tScore_1~\n : 40 to 2" : Text) =
      '+' :: (" \t" ++ "Score_1" ++ "" ++ (if true then '~' :: "\n " else []) ++ ':' :: (" " ++ "40 to 2")) := by
    decide
  have h := (assignment_reads_back e hname (by decide) hv hblank true 0 .console [] [] w).2.1 fun _ => rfl
  rwa [← htext] at h

/-- With a blank in front of the tilde another variable is set, and the one of that name stays unset. -/
theorem assignment_unread :
    let e : Engine Script := { host := Script.host, config := {} }
    let u := after (e.invoke 0 .console [] ["+n ~:v"]) { host := { files := ⟨[], [], []⟩ } }
    u.store = { shared := [("n ", "v")] } ∧ value (e.resolve .console [] "%var:n%") u = [] := by
  exact ⟨by decide +kernel, by decide +kernel⟩

end DirectiveEngine
