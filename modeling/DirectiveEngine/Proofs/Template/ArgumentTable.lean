import DirectiveEngine.Proofs.Template.Percent
import Mathlib.Data.List.Chain

/-!
# The table of argument placeholders

The passes for arguments come in turns (`replaceArguments_eq_foldl`), and each puts in values for the placeholders that
it knows (`Replaces`).  So what the turns make of a text of placeholders is what they make of each of them
(`ArgumentTurn.foldl_fill`), and that is the value in the table (`replaceArguments_eq_table`).

This needs the placeholders to stay apart.  A value that is put in between two placeholders of later turns may look like
a placeholder, and then the closing sign of the one and the opening sign of the other make it one.
-/

namespace DirectiveEngine

variable {args : List Text} {b u v : Text} {m n : Nat}

/-! ### Placeholders -/

/-- What is asked for behind the number of a placeholder. -/
inductive ArgumentForm where
  | single
  | tail
  | tailOr (default : Text)
  | singleOr (bar : Bool) (default : Text)

inductive ArgumentToken where
  | all
  | numbered (n : Nat) (form : ArgumentForm)

namespace ArgumentForm

def suffix : ArgumentForm → Text
  | single => []
  | tail => "-"
  | tailOr d => "-::" ++ d
  | singleOr false d => "::" ++ d
  | singleOr true d => "|" ++ d

/-- Defaults do not close the placeholder, and one behind a bar is not cut before it. -/
def IsWellFormed : ArgumentForm → Prop
  | single => True
  | tail => True
  | tailOr d => '%' ∉ d
  | singleOr false d => '%' ∉ d
  | singleOr true d => '%' ∉ d ∧ ¬ "::" <:+: d

instance : DecidablePred IsWellFormed
  | single => inferInstanceAs (Decidable True)
  | tail => inferInstanceAs (Decidable True)
  | tailOr d => inferInstanceAs (Decidable ('%' ∉ d))
  | singleOr false d => inferInstanceAs (Decidable ('%' ∉ d))
  | singleOr true d => inferInstanceAs (Decidable ('%' ∉ d ∧ ¬ "::" <:+: d))

theorem suffix_inj {x y : ArgumentForm} (h : x.suffix = y.suffix) : x = y := by
  rcases x with _ | _ | d | ⟨_ | _, d⟩ <;> rcases y with _ | _ | d' | ⟨_ | _, d'⟩ <;> simp_all [suffix]

theorem head_suffix (x : ArgumentForm) : ∀ c ∈ x.suffix.head?, isDigit c = false := by
  rcases x with _ | _ | d | ⟨_ | _, d⟩ <;> simp [suffix] <;> decide

theorem sign_not_mem_suffix {x : ArgumentForm} (h : x.IsWellFormed) : '%' ∉ x.suffix := by
  rcases x with _ | _ | d | ⟨_ | _, d⟩ <;> simp_all [suffix, IsWellFormed]

end ArgumentForm

namespace ArgumentToken

def body : ArgumentToken → Text
  | all => "args"
  | numbered n form => "arg" ++ (natText n ++ form.suffix)

def written (x : ArgumentToken) : Text :=
  '%' :: (x.body ++ ['%'])

def IsWellFormed : ArgumentToken → Prop
  | all => True
  | numbered n form => 0 < n ∧ n ≤ maxIndex ∧ form.IsWellFormed

instance : DecidablePred IsWellFormed
  | all => inferInstanceAs (Decidable True)
  | numbered n form => inferInstanceAs (Decidable (0 < n ∧ n ≤ maxIndex ∧ form.IsWellFormed))

private theorem all_ne_numbered {x : ArgumentForm} : all.body ≠ (numbered n x).body := by
  intro h
  have hname : "arg" ++ "s" = "arg" ++ (natText n ++ x.suffix) := h
  have hdigits : "s" = natText n ++ x.suffix := List.append_cancel_left hname
  obtain ⟨c, t, hn⟩ := List.exists_cons_of_ne_nil (natText_ne_nil n)
  have hdigit : isDigit c = true := isDigit_natText (n := n) (by simp [hn])
  rw [hn, List.cons_append] at hdigits
  rw [← (List.cons.inj hdigits).1] at hdigit
  exact absurd hdigit (by decide)

/-- A placeholder is told from each other one. -/
theorem body_inj {x y : ArgumentToken} (h : x.body = y.body) : x = y := by
  cases x with
  | all =>
    cases y with
    | all => rfl
    | numbered n form => exact absurd h all_ne_numbered
  | numbered m form =>
    cases y with
    | all => exact absurd h.symm all_ne_numbered
    | numbered n form' =>
      obtain ⟨rfl, hsuffix⟩ := natText_append_inj form.head_suffix form'.head_suffix (List.append_cancel_left h)
      rw [ArgumentForm.suffix_inj hsuffix]

theorem sign_not_mem_body {x : ArgumentToken} (h : x.IsWellFormed) : '%' ∉ x.body := by
  cases x with
  | all => decide
  | numbered n form =>
    have hnumber : '%' ∉ natText n := not_mem_natText (by decide)
    simp [body, hnumber, ArgumentForm.sign_not_mem_suffix h.2.2]

end ArgumentToken

/-! ### Turns -/

/-- One of the passes. -/
inductive ArgumentTurn where
  | all
  | tailOr (n : Nat)
  | tail (n : Nat)
  | single
  deriving DecidableEq

/-- The last number for which tails are replaced. -/
def tailBound (args : List Text) : Nat :=
  max (args.length + 5) 10

namespace ArgumentTurn

/-- What is put in the place of a span with such a body. -/
def value? (args : List Text) : ArgumentTurn → Text → Option Text
  | all, b => if b = "arg" ++ "s" then some (Text.join " " args) else none
  | tailOr n, b =>
    (Text.stripPrefix? ("arg" ++ (natText n ++ "-::")) b).bind fun d => some ((argumentsFrom? args n).getD d)
  | tail n, b => if b = "arg" ++ (natText n ++ "-") then some ((argumentsFrom? args n).getD []) else none
  | single, b => (Text.stripPrefix? ("arg" ++ ([] : Text)) b).bind (argumentValue? args)

def pass (args : List Text) : ArgumentTurn → Text → Text
  | all => Text.replaceAll "%args%" (Text.join " " args)
  | tailOr n =>
    replaceDelimited ("%arg" ++ natText n ++ "-::") "%" fun d => some ((argumentsFrom? args n).getD d)
  | tail n => Text.replaceAll ("%arg" ++ natText n ++ "-%") ((argumentsFrom? args n).getD [])
  | single => replaceDelimited "%arg" "%" (argumentValue? args)

/-- The turns before the last one. -/
def early (args : List Text) : List ArgumentTurn :=
  all :: (List.range' 1 (tailBound args)).flatMap fun n => [tailOr n, tail n]

end ArgumentTurn

def argumentTurns (args : List Text) : List ArgumentTurn :=
  ArgumentTurn.early args ++ [.single]

theorem replaceArguments_eq_foldl (args : List Text) (t : Text) :
    replaceArguments args t = (argumentTurns args).foldl (fun t p => p.pass args t) t := by
  simp only [argumentTurns, ArgumentTurn.early, List.foldl_append, List.foldl_cons, List.foldl_flatMap]
  rfl

/-! ### A pass over spans -/

/-- Behind a sign in front of the text there is no body, up to the next sign, that has a value. -/
def Declines (f : Text → Option Text) (t : Text) : Prop :=
  ∀ u r, t = u ++ '%' :: r → '%' ∉ u → f u = none

/-- A pass that gives spans the values of their bodies, and goes over those without a value. -/
structure Replaces (f : Text → Option Text) (P : Text → Text) : Prop where
  append : ∀ {a t}, '%' ∉ a → P (a ++ t) = a ++ P t
  nil : P [] = []
  served : ∀ {b v t}, '%' ∉ b → f b = some v → P ('%' :: (b ++ '%' :: t)) = v ++ P t
  kept : ∀ {b t}, '%' ∉ b → f b = none → Declines f t → P ('%' :: (b ++ '%' :: t)) = '%' :: (b ++ '%' :: P t)

namespace Replaces

theorem replaceAll (hu : '%' ∉ u) (new : Text) :
    Replaces (fun b => if b = u then some new else none) (Text.replaceAll ('%' :: (u ++ ['%'])) new) where
  append ha := Text.replaceAll_append ha _ _ _
  nil := Text.replaceAll_nil _ _
  served {b v t} _ hv := by
    obtain ⟨rfl, hnew⟩ := Option.ite_none_right_eq_some.1 hv
    rw [← Option.some.inj hnew, replaceAll_span_self]
  kept {b t} hb hnone ht := by
    have hne : b ≠ u := fun heq => by simp [heq] at hnone
    have hsign : ¬ '%' :: (u ++ ['%']) <+: '%' :: t := by
      intro hp
      obtain ⟨-, r, rfl⟩ := List.cons_prefix_cons.1 hp
      have hdeclined := ht u r (by simp) hu
      simp at hdeclined
    rw [replaceAll_span hb hu hne, Text.replaceAll_cons hsign]

theorem replaceDelimited (hu : '%' ∉ u) (g : Text → Option Text) :
    Replaces (fun b => (Text.stripPrefix? u b).bind g) (DirectiveEngine.replaceDelimited ('%' :: u) ['%'] g) where
  append ha := replaceDelimited_append ha
  nil := replaceDelimited_of_none (Text.splitFirst?_nil (by simp))
  served {b v t} hb hv := replaceDelimited_span_of_some hb hv t
  kept {b t} hb hnone ht := by
    rw [replaceDelimited_span_of_none hb hu hnone, replaceDelimited_sign]
    rintro inner r rfl hinner
    have hdeclined : (Text.stripPrefix? u (u ++ inner)).bind g = none :=
      ht (u ++ inner) r (by simp) (by simp [hu, hinner])
    rwa [Text.stripPrefix?, Text.isPrefixOf?_append_self] at hdeclined

end Replaces

namespace ArgumentTurn

theorem replaces (args : List Text) (p : ArgumentTurn) : Replaces (p.value? args) (p.pass args) := by
  have hname {n : Nat} {r : Text} (hr : '%' ∉ r) : '%' ∉ "arg" ++ (natText n ++ r) := by
    simp [hr, not_mem_natText (c := '%') (n := n) (by decide)]
  cases p with
  | all => exact .replaceAll (u := "arg" ++ "s") (by decide) _
  | tailOr n =>
    have hpass := Replaces.replaceDelimited (u := "arg" ++ (natText n ++ "-::")) (hname (by decide))
      fun d => some ((argumentsFrom? args n).getD d)
    have hopen : ("%arg" ++ natText n) ++ "-::" = '%' :: ("arg" ++ (natText n ++ "-::")) := by simp
    rw [pass, hopen]
    exact hpass
  | tail n =>
    have hpass := Replaces.replaceAll (u := "arg" ++ (natText n ++ "-")) (hname (by decide))
      ((argumentsFrom? args n).getD [])
    have hwhole : ("%arg" ++ natText n) ++ "-%" = '%' :: ("arg" ++ (natText n ++ "-") ++ ['%']) := by simp
    rw [pass, hwhole]
    exact hpass
  | single => exact .replaceDelimited (u := "arg" ++ ([] : Text)) (by decide) _

/-- What has a value starts as all placeholders do. -/
theorem prefix_of_value? {p : ArgumentTurn} (h : p.value? args b = some v) : "arg" <+: b := by
  cases p with
  | all => exact (Option.ite_none_right_eq_some.1 h).1 ▸ List.prefix_append _ _
  | tailOr n =>
    obtain ⟨d, hd, -⟩ := Option.bind_eq_some_iff.1 h
    rw [Text.eq_append_of_isPrefixOf? hd, List.append_assoc]
    exact List.prefix_append _ _
  | tail n => exact (Option.ite_none_right_eq_some.1 h).1 ▸ List.prefix_append _ _
  | single =>
    obtain ⟨d, hd, -⟩ := Option.bind_eq_some_iff.1 h
    rw [Text.eq_append_of_isPrefixOf? hd, List.append_assoc]
    exact List.prefix_append _ _

/-- Values have no signs if neither the arguments nor the body have. -/
theorem sign_not_mem_value? (hargs : ∀ a ∈ args, '%' ∉ a) (hb : '%' ∉ b) {p : ArgumentTurn}
    (h : p.value? args b = some v) : '%' ∉ v := by
  have htail {n : Nat} {d : Text} (hd : '%' ∉ d) : '%' ∉ (argumentsFrom? args n).getD d := by
    rw [getD_argumentsFrom?]
    split
    · exact Text.not_mem_join (by decide) fun a ha => hargs a (List.mem_of_mem_drop ha)
    · exact hd
  cases p with
  | all =>
    rw [← Option.some.inj (Option.ite_none_right_eq_some.1 h).2]
    exact Text.not_mem_join (by decide) hargs
  | tailOr n =>
    obtain ⟨d, hd, hv⟩ := Option.bind_eq_some_iff.1 h
    rw [Text.eq_append_of_isPrefixOf? hd] at hb
    exact Option.some.inj hv ▸ htail fun hmem => hb (List.mem_append_right _ hmem)
  | tail n => exact Option.some.inj (Option.ite_none_right_eq_some.1 h).2 ▸ htail List.not_mem_nil
  | single =>
    obtain ⟨inner, hinner, hv⟩ := Option.bind_eq_some_iff.1 h
    rw [Text.eq_append_of_isPrefixOf? hinner] at hb
    rcases argumentValue?_cases hv with hmem | ⟨sep, -, index, hsplit⟩
    · exact hargs v hmem
    · exact fun hmem => hb (List.mem_append_right _ (Text.mem_of_splitFirst? hsplit (.inr hmem)))

end ArgumentTurn

/-! ### Placeholders in their turn -/

namespace ArgumentToken

/-- What turns make of a placeholder: the first that has a value for it puts that in. -/
def after (args : List Text) (turns : List ArgumentTurn) (x : ArgumentToken) : Text :=
  (turns.findSome? fun p => p.value? args x.body).getD x.written

/-- The value of a placeholder in the table. -/
def value (args : List Text) : ArgumentToken → Text
  | all => Text.join " " args
  | numbered n .single => args[n - 1]?.getD (numbered n .single).written
  | numbered n .tail =>
    if n ≤ tailBound args then Text.join " " (args.drop (n - 1)) else (numbered n .tail).written
  | numbered n (.tailOr d) => if n ≤ args.length then Text.join " " (args.drop (n - 1)) else d
  | numbered n (.singleOr _ d) => args[n - 1]?.getD d

def IsSingle : ArgumentToken → Bool
  | numbered _ .single => true
  | numbered _ (.singleOr _ _) => true
  | _ => false

theorem written_append (x : ArgumentToken) (t : Text) : x.written ++ t = '%' :: (x.body ++ '%' :: t) := by
  simp [written]

end ArgumentToken

namespace ArgumentTurn

open ArgumentToken

variable {x : ArgumentToken} {form : ArgumentForm}

theorem value?_all_eq_some_iff : all.value? args x.body = some v ↔ x = .all ∧ Text.join " " args = v := by
  rw [value?, Option.ite_none_right_eq_some, Option.some_inj]
  exact and_congr_left' ⟨fun h => body_inj h, fun h => h ▸ rfl⟩

theorem value?_tail_eq_some_iff :
    (tail m).value? args x.body = some v ↔ x = .numbered m .tail ∧ Text.join " " (args.drop (m - 1)) = v := by
  rw [value?, getD_argumentsFrom?_nil, Option.ite_none_right_eq_some, Option.some_inj]
  exact and_congr_left' ⟨fun h => body_inj h, fun h => h ▸ rfl⟩

theorem value?_tailOr_eq_some_iff :
    (tailOr m).value? args x.body = some v ↔
      ∃ d, x = .numbered m (.tailOr d) ∧ (if m ≤ args.length then Text.join " " (args.drop (m - 1)) else d) = v := by
  rw [value?, Option.bind_eq_some_iff]
  refine exists_congr fun d => and_congr ?_ ?_
  · have hbody : (numbered m (.tailOr d)).body = "arg" ++ (natText m ++ "-::") ++ d := by
      simp [body, ArgumentForm.suffix]
    constructor
    · exact fun h => body_inj ((Text.eq_append_of_isPrefixOf? h).trans hbody.symm)
    · rintro rfl
      rw [hbody, Text.stripPrefix?, Text.isPrefixOf?_append_self]
  · rw [Option.some_inj, getD_argumentsFrom?]

theorem value?_single (args : List Text) (n : Nat) (form : ArgumentForm) :
    single.value? args (numbered n form).body = argumentValue? args (natText n ++ form.suffix) := by
  rw [value?, List.append_nil, body, Text.stripPrefix?, Text.isPrefixOf?_append_self, Option.bind_some]

theorem mem_early_iff {p : ArgumentTurn} :
    p ∈ early args ↔ p = all ∨ ∃ n, (0 < n ∧ n ≤ tailBound args) ∧ (p = tailOr n ∨ p = tail n) := by
  have hrange (n : Nat) : n ∈ List.range' 1 (tailBound args) ↔ 0 < n ∧ n ≤ tailBound args := by
    rw [List.mem_range'_1]
    omega
  simp [early, hrange]

theorem single_not_mem_early : single ∉ early args := by
  simp [mem_early_iff]

/-- Before the last turn each placeholder has at most one. -/
theorem eq_of_value? {p q : ArgumentTurn} {w : Text} (hp : p ≠ single) (hq : q ≠ single)
    (hv : p.value? args x.body = some v) (hw : q.value? args x.body = some w) : p = q := by
  have hturn {p : ArgumentTurn} {v : Text} (hp : p ≠ single) (hv : p.value? args x.body = some v) :
      x = .all ∧ p = all ∨ (∃ n, x = .numbered n .tail ∧ p = tail n) ∨
        ∃ n d, x = .numbered n (.tailOr d) ∧ p = tailOr n := by
    cases p with
    | all => exact .inl ⟨(value?_all_eq_some_iff.1 hv).1, rfl⟩
    | tail n => exact .inr (.inl ⟨n, (value?_tail_eq_some_iff.1 hv).1, rfl⟩)
    | tailOr n =>
      obtain ⟨d, hx, -⟩ := value?_tailOr_eq_some_iff.1 hv
      exact .inr (.inr ⟨n, d, hx, rfl⟩)
    | single => exact absurd rfl hp
  rcases hturn hp hv with ⟨rfl, rfl⟩ | ⟨n, rfl, rfl⟩ | ⟨n, d, rfl, rfl⟩ <;>
    rcases hturn hq hw with ⟨hx, rfl⟩ | ⟨m, hx, rfl⟩ | ⟨m, d', hx, rfl⟩ <;> cases hx <;> rfl

/-- A placeholder that has an early turn gets its value then. -/
theorem after_argumentTurns_of_mem {p : ArgumentTurn} (hp : p ∈ early args) (hv : p.value? args x.body = some v) :
    after args (argumentTurns args) x = v := by
  have hfind : ((early args).findSome? fun p => p.value? args x.body) = some v := by
    cases hfind : (early args).findSome? fun p => p.value? args x.body with
    | none =>
      have hnone := List.findSome?_eq_none_iff.1 hfind p hp
      rw [hv] at hnone
      cases hnone
    | some w =>
      obtain ⟨q, hq, hw⟩ := List.exists_of_findSome?_eq_some hfind
      obtain rfl : p = q := eq_of_value? (ne_of_mem_of_not_mem hp single_not_mem_early)
        (ne_of_mem_of_not_mem hq single_not_mem_early) hv hw
      exact hw.symm.trans hv
  rw [after, argumentTurns, List.findSome?_append, hfind]
  rfl

/-- Tails with great numbers and single arguments have no early turn. -/
theorem value?_of_mem_early {p : ArgumentTurn} {form : ArgumentForm} (hp : p ∈ early args)
    (h : n ≤ tailBound args → form ≠ .tail ∧ ∀ d, form ≠ .tailOr d) : p.value? args (numbered n form).body = none := by
  refine Option.eq_none_iff_forall_ne_some.2 fun v hv => ?_
  rcases mem_early_iff.1 hp with rfl | ⟨m, ⟨-, hbound⟩, rfl | rfl⟩
  · cases (value?_all_eq_some_iff.1 hv).1
  · obtain ⟨d, hx, -⟩ := value?_tailOr_eq_some_iff.1 hv
    cases hx
    exact (h hbound).2 d rfl
  · cases (value?_tail_eq_some_iff.1 hv).1
    exact (h hbound).1 rfl

/-- One without an early turn is left to the last. -/
theorem after_argumentTurns_of_ne {form : ArgumentForm}
    (h : n ≤ tailBound args → form ≠ .tail ∧ ∀ d, form ≠ .tailOr d) :
    after args (argumentTurns args) (numbered n form) =
      (argumentValue? args (natText n ++ form.suffix)).getD (numbered n form).written := by
  have hnone : ((early args).findSome? fun p => p.value? args (numbered n form).body) = none :=
    List.findSome?_eq_none_iff.2 fun p hp => value?_of_mem_early hp h
  rw [after, argumentTurns, List.findSome?_append, hnone, Option.none_or, List.findSome?_singleton, value?_single]

/-- In the end each placeholder has its value in the table. -/
theorem after_argumentTurns (hx : x.IsWellFormed) : after args (argumentTurns args) x = x.value args := by
  have hcolon {n : Nat} : ':' ∉ natText n := not_mem_natText (by decide)
  have hbar {n : Nat} : '|' ∉ natText n := not_mem_natText (by decide)
  rcases x with _ | ⟨n, form⟩
  · exact after_argumentTurns_of_mem (mem_early_iff.2 (.inl rfl)) (value?_all_eq_some_iff.2 ⟨rfl, rfl⟩)
  obtain ⟨hn, hmax, hform⟩ := hx
  rcases form with _ | _ | d | ⟨_ | _, d⟩
  · rw [after_argumentTurns_of_ne (by simp), ArgumentForm.suffix, List.append_nil,
      argumentValue?_of_not_mem hcolon hbar, argument?_natText hn hmax]
    rfl
  · by_cases hbound : n ≤ tailBound args
    · have hturn : tail n ∈ early args := mem_early_iff.2 (.inr ⟨n, ⟨hn, hbound⟩, .inr rfl⟩)
      rw [after_argumentTurns_of_mem hturn (value?_tail_eq_some_iff.2 ⟨rfl, rfl⟩), value, if_pos hbound]
    · rw [after_argumentTurns_of_ne fun h => absurd h hbound, ArgumentForm.suffix,
        argumentValue?_of_not_mem (by simp [hcolon]) (by simp [hbar]), argument?_minus, value, if_neg hbound]
      rfl
  · by_cases hbound : n ≤ tailBound args
    · have hturn : tailOr n ∈ early args := mem_early_iff.2 (.inr ⟨n, ⟨hn, hbound⟩, .inl rfl⟩)
      exact after_argumentTurns_of_mem hturn (value?_tailOr_eq_some_iff.2 ⟨d, rfl, rfl⟩)
    · have hlast : ¬ n ≤ args.length := by
        rw [tailBound] at hbound
        omega
      have hcut : natText n ++ (ArgumentForm.tailOr d).suffix = natText n ++ "-" ++ ("::" ++ d) := by
        simp [ArgumentForm.suffix]
      rw [after_argumentTurns_of_ne fun h => absurd h hbound, hcut, argumentValue?_colons (by simp [hcolon]),
        argument?_minus, value, if_neg hlast]
      rfl
  · rw [after_argumentTurns_of_ne (by simp), ArgumentForm.suffix, argumentValue?_colons hcolon,
      argument?_natText hn hmax]
    rfl
  · rw [after_argumentTurns_of_ne (by simp), ArgumentForm.suffix, argumentValue?_bar hcolon hbar hform.2,
      argument?_natText hn hmax]
    rfl

/-- A placeholder for a single argument is there until the last turn. -/
theorem after_of_isSingle {turns : List ArgumentTurn} {p : ArgumentTurn} (hx : x.IsSingle)
    (hturns : turns ++ [p] <+: argumentTurns args) : after args turns x = x.written := by
  have hearly : turns ⊆ early args := by
    rcases List.prefix_concat_iff.1 hturns with heq | hprefix
    · rw [(List.append_inj' heq rfl).1]
      exact List.Subset.refl _
    · exact ((List.prefix_append turns [p]).trans hprefix).subset
  have hnone : (turns.findSome? fun q => q.value? args x.body) = none := by
    refine List.findSome?_eq_none_iff.2 fun q hq => ?_
    rcases x with _ | ⟨n, _ | _ | d | ⟨bar, d⟩⟩ <;> simp only [IsSingle, Bool.false_eq_true] at hx
    · exact value?_of_mem_early (hearly hq) (by simp)
    · exact value?_of_mem_early (hearly hq) (by simp)
  rw [after, hnone]
  rfl

end ArgumentTurn

/-! ### Texts of placeholders -/

/-- A placeholder and the text behind it. -/
structure ArgumentSlot where
  token : ArgumentToken
  behind : Text

namespace ArgumentSlot

structure IsWellFormed (s : ArgumentSlot) : Prop where
  token : s.token.IsWellFormed
  behind : '%' ∉ s.behind

instance (s : ArgumentSlot) : Decidable s.IsWellFormed :=
  decidable_of_iff (s.token.IsWellFormed ∧ '%' ∉ s.behind) ⟨fun h => ⟨h.1, h.2⟩, fun h => ⟨h.token, h.behind⟩⟩

def fill (v : ArgumentToken → Text) (slots : List ArgumentSlot) : Text :=
  slots.flatMap fun s => v s.token ++ s.behind

theorem fill_cons (v : ArgumentToken → Text) (s : ArgumentSlot) (slots : List ArgumentSlot) :
    fill v (s :: slots) = v s.token ++ (s.behind ++ fill v slots) := by
  simp [fill]

/-- No turn takes the closing sign of a placeholder that it leaves for the opening one of another. -/
def AreApart (args : List Text) (slots : List ArgumentSlot) : Prop :=
  ∀ turns p, turns ++ [p] <+: argumentTurns args → ∀ s rest, s :: rest <:+ slots →
    (∀ q ∈ turns ++ [p], q.value? args s.token.body = none) →
    Declines (p.value? args) (s.behind ++ fill (ArgumentToken.after args turns) rest)

end ArgumentSlot

namespace ArgumentTurn

open ArgumentSlot ArgumentToken

variable {lead : Text} {slots : List ArgumentSlot} {turns later : List ArgumentTurn} {p : ArgumentTurn}
  (hargs : ∀ a ∈ args, '%' ∉ a) (hslots : ∀ s ∈ slots, s.IsWellFormed) (hapart : AreApart args slots)
include hargs hslots hapart

/-- A pass does to a text of placeholders what it does to each of them. -/
theorem pass_fill (hp : turns ++ [p] <+: argumentTurns args) :
    p.pass args (fill (after args turns) slots) = fill (after args (turns ++ [p])) slots := by
  have hpass := replaces args p
  induction slots with
  | nil => exact hpass.nil
  | cons s slots ih =>
    have hs : s.IsWellFormed := hslots s List.mem_cons_self
    have hsign : '%' ∉ s.token.body := sign_not_mem_body hs.token
    have hbehind : p.pass args (s.behind ++ fill (after args turns) slots) =
        s.behind ++ fill (after args (turns ++ [p])) slots := by
      rw [hpass.append hs.behind, ih fun s hs => hslots s (List.mem_cons_of_mem _ hs)]
      exact fun turns p hp s' rest hsuffix => hapart turns p hp s' rest (hsuffix.trans (List.suffix_cons s slots))
    rw [fill_cons, fill_cons]
    cases hearlier : turns.findSome? fun q => q.value? args s.token.body with
    | some v =>
      -- the placeholder has been replaced
      obtain ⟨q, -, hv⟩ := List.exists_of_findSome?_eq_some hearlier
      rw [after, after, List.findSome?_append, hearlier, Option.some_or, Option.getD_some,
        hpass.append (sign_not_mem_value? hargs hsign hv), hbehind]
    | none =>
      rw [after, after, List.findSome?_append, hearlier, Option.none_or, List.findSome?_singleton, Option.getD_none,
        written_append]
      cases hv : p.value? args s.token.body with
      | some v => rw [hpass.served hsign hv, hbehind, Option.getD_some]
      | none =>
        have hleft : ∀ q ∈ turns ++ [p], q.value? args s.token.body = none := by
          refine List.forall_mem_append.2 ⟨List.findSome?_eq_none_iff.1 hearlier, ?_⟩
          simpa using hv
        rw [hpass.kept hsign hv (hapart turns p hp s slots List.suffix_rfl hleft), hbehind, Option.getD_none,
          written_append]

/-- The turns do to a text of placeholders what they do to each of them. -/
theorem foldl_fill (hlead : '%' ∉ lead) (hturns : turns ++ later = argumentTurns args) :
    later.foldl (fun t p => p.pass args t) (lead ++ fill (after args turns) slots) =
      lead ++ fill (after args (argumentTurns args)) slots := by
  induction later generalizing turns with
  | nil => rw [List.foldl_nil, ← hturns, List.append_nil]
  | cons p later ih =>
    have hturns : turns ++ [p] ++ later = argumentTurns args := by simpa using hturns
    rw [List.foldl_cons, (replaces args p).append hlead, pass_fill hargs hslots hapart ⟨later, hturns⟩, ih hturns]

end ArgumentTurn

/-- Placeholders stay apart, whatever the arguments are, if no text between two of them starts with `arg`, and `arg`
does not start with any in front of a placeholder for several arguments. -/
theorem ArgumentSlot.areApart_of_isChain {slots : List ArgumentSlot} (hslots : ∀ s ∈ slots, s.IsWellFormed)
    (h : slots.IsChain fun s s' => ¬ "arg" <+: s.behind ∧ (¬ s.behind <+: "arg" ∨ s'.token.IsSingle)) :
    AreApart args slots := by
  rintro turns p hturns s rest hsuffix - u r heq -
  refine Option.eq_none_iff_forall_ne_some.2 fun v hv => ?_
  have hsign : '%' ∈ s.behind ++ fill (ArgumentToken.after args turns) rest := by simp [heq]
  have harg : "arg" <+: s.behind ++ fill (ArgumentToken.after args turns) rest :=
    (ArgumentTurn.prefix_of_value? hv).trans ⟨'%' :: r, heq.symm⟩
  cases rest with
  | nil =>
    rw [fill, List.flatMap_nil, List.append_nil] at hsign
    exact (hslots s (hsuffix.subset List.mem_cons_self)).behind hsign
  | cons s' rest =>
    obtain ⟨hstart, hshort | hsingle⟩ := (List.isChain_cons_cons.1 (h.suffix hsuffix)).1
    · exact (List.prefix_or_prefix_of_prefix harg (List.prefix_append s.behind _)).elim hstart hshort
    · rw [fill_cons, ArgumentTurn.after_of_isSingle hsingle hturns, ArgumentToken.written_append] at harg
      exact hstart (Text.prefix_of_prefix_append_cons (by decide) harg)

/-- Where the placeholders stay apart, each is given the value of the table, and nothing else is changed. -/
theorem replaceArguments_eq_table {lead : Text} {slots : List ArgumentSlot} (hargs : ∀ a ∈ args, '%' ∉ a)
    (hlead : '%' ∉ lead) (hslots : ∀ s ∈ slots, s.IsWellFormed) (hapart : ArgumentSlot.AreApart args slots) :
    replaceArguments args (lead ++ ArgumentSlot.fill ArgumentToken.written slots) =
      lead ++ ArgumentSlot.fill (ArgumentToken.value args) slots := by
  have hvalue : ArgumentSlot.fill (ArgumentToken.after args (argumentTurns args)) slots =
      ArgumentSlot.fill (ArgumentToken.value args) slots :=
    List.flatMap_congr fun s hs => by rw [ArgumentTurn.after_argumentTurns (hslots s hs).token]
  rw [replaceArguments_eq_foldl, ← hvalue]
  exact ArgumentTurn.foldl_fill hargs hslots hapart hlead (List.nil_append _)

/-- Values that look like placeholders, and placeholders without values. -/
theorem replaceArguments_eq_table_mixed :
    let args : List Text := ["x", "arg1 z"]
    let slots : List ArgumentSlot :=
      [⟨.all, ": "⟩, ⟨.numbered 1 .single, []⟩, ⟨.numbered 3 (.singleOr false "none"), " and "⟩,
        ⟨.numbered 2 .tail, ", "⟩, ⟨.numbered 12 .tail, []⟩, ⟨.numbered 12 .single, "!"⟩,
        ⟨.numbered 11 (.tailOr "arg1"), []⟩]
    (∀ a ∈ args, '%' ∉ a) ∧ '%' ∉ ("say " : Text) ∧ (∀ s ∈ slots, s.IsWellFormed) ∧
      ArgumentSlot.AreApart args slots ∧
      replaceArguments args "say %args%: %arg1%%arg3::none% and %arg2-%, %arg12-%%arg12%!%arg11-::arg1%" =
        "say x arg1 z: xnone and arg1 z, %arg12-%%arg12%!arg1" := by
  intro args slots
  have hargs : ∀ a ∈ args, '%' ∉ a := by decide
  have hlead : '%' ∉ ("say " : Text) := by decide
  have hslots : ∀ s ∈ slots, s.IsWellFormed := by decide
  have hapart : ArgumentSlot.AreApart args slots := ArgumentSlot.areApart_of_isChain hslots (by decide)
  have htable := replaceArguments_eq_table hargs hlead hslots hapart
  have hwritten : "say " ++ ArgumentSlot.fill ArgumentToken.written slots =
      "say %args%: %arg1%%arg3::none% and %arg2-%, %arg12-%%arg12%!%arg11-::arg1%" := by decide
  have hvalue : "say " ++ ArgumentSlot.fill (ArgumentToken.value args) slots =
      "say x arg1 z: xnone and arg1 z, %arg12-%%arg12%!arg1" := by decide
  exact ⟨hargs, hlead, hslots, hapart, by rw [← hwritten, htable, hvalue]⟩

/-- Between two placeholders that stay, a tail that looks like a third one. -/
theorem replaceArguments_ne_table :
    let args : List Text := ["arg1"]
    let slots : List ArgumentSlot :=
      [⟨.numbered 2 .single, []⟩, ⟨.numbered 1 .tail, []⟩, ⟨.numbered 1 .single, []⟩]
    (∀ a ∈ args, '%' ∉ a) ∧ (∀ s ∈ slots, s.IsWellFormed) ∧ (∀ s ∈ slots, ¬ "arg" <+: s.behind) ∧
      ArgumentSlot.fill ArgumentToken.written slots = "%arg2%%arg1-%%arg1%" ∧
      ArgumentSlot.fill (ArgumentToken.value args) slots = "%arg2%arg1arg1" ∧
      replaceArguments args "%arg2%%arg1-%%arg1%" = "%arg2arg1arg1%" := by
  decide +kernel

end DirectiveEngine
