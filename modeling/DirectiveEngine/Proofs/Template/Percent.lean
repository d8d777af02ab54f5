import DirectiveEngine.Proofs.Number
import DirectiveEngine.Proofs.Template.Cut
import DirectiveEngine.Template.Argument
import DirectiveEngine.Template.Server
import DirectiveEngine.Template.Variable
import Mathlib.Data.List.Infix

/-!
# Spans between percent signs

How the passes that replace placeholders go over `%b%` in front of some rest: each either replaces it or leaves it
and goes on at the closing sign.  That opens no span if there is no further sign, or if what stands behind it does not
start as a span does (`OpensNone`).
-/

namespace DirectiveEngine

variable {a b o t rest new : Text} {f : Text → Option Text} {value : Text → Text}

/-- A percent sign in front of the text opens no span that starts so. -/
def OpensNone (o t : Text) : Prop :=
  '%' ∈ t → ¬ o <+: t

theorem OpensNone.append (h : OpensNone o t) (u : Text) : OpensNone (o ++ u) t :=
  fun hsign hp => h hsign ((List.prefix_append o u).trans hp)

/-- What stands behind a closing sign opens no span with it. -/
def Follows (t : Text) : Prop :=
  t.head? = some ' ' ∨ '%' ∉ t

theorem Follows.opensNone (h : Follows t) (ho : o.head? ≠ some ' ') (hne : o ≠ []) : OpensNone o t := by
  rintro hsign hp
  obtain ⟨r, rfl⟩ := List.head?_eq_some_iff.1 (h.resolve_right (absurd hsign))
  obtain ⟨c, o, rfl⟩ := List.exists_cons_of_ne_nil hne
  exact ho (congrArg some (List.cons_prefix_cons.1 hp).1)

private theorem OpensNone.not_prefix (h : OpensNone o rest) : ¬ '%' :: (o ++ ['%']) <+: '%' :: rest := by
  intro hp
  obtain ⟨-, hp⟩ := List.cons_prefix_cons.1 hp
  exact h (hp.subset (by simp)) ((List.prefix_append o ['%']).trans hp)

/-! ### One text for a span -/

theorem replaceAll_span (hb : '%' ∉ b) (ho : '%' ∉ o) (hne : b ≠ o) :
    Text.replaceAll ('%' :: (o ++ ['%'])) new ('%' :: (b ++ '%' :: rest)) =
      '%' :: (b ++ Text.replaceAll ('%' :: (o ++ ['%'])) new ('%' :: rest)) := by
  have hp : ¬ '%' :: (o ++ ['%']) <+: '%' :: (b ++ '%' :: rest) := fun hp =>
    hne (Text.eq_of_prefix_append_cons ho hb (List.cons_prefix_cons.1 hp).2).symm
  rw [Text.replaceAll_cons hp, Text.replaceAll_append hb]

theorem replaceAll_span_self :
    Text.replaceAll ('%' :: (o ++ ['%'])) new ('%' :: (o ++ '%' :: rest)) =
      new ++ Text.replaceAll ('%' :: (o ++ ['%'])) new rest := by
  have heq : '%' :: (o ++ '%' :: rest) = '%' :: (o ++ ['%']) ++ rest := by simp
  rw [heq, Text.replaceAll_append_self (by simp)]

theorem replaceAll_closing (h : OpensNone o rest) :
    Text.replaceAll ('%' :: (o ++ ['%'])) new ('%' :: rest) =
      '%' :: Text.replaceAll ('%' :: (o ++ ['%'])) new rest :=
  Text.replaceAll_cons h.not_prefix

/-! ### Spans with a common start -/

theorem replaceDelimited_append (ha : '%' ∉ a) :
    replaceDelimited ('%' :: o) ['%'] f (a ++ t) = a ++ replaceDelimited ('%' :: o) ['%'] f t := by
  induction a with
  | nil => rfl
  | cons c a ih =>
    have hp : ¬ '%' :: o <+: c :: (a ++ t) := fun hp =>
      List.ne_of_not_mem_cons ha (List.cons_prefix_cons.1 hp).1
    rw [List.cons_append, replaceDelimited_cons (by simp) hp, ih (List.not_mem_of_not_mem_cons ha)]
    rfl

theorem replaceDelimited_span (hb : '%' ∉ b) (ho : '%' ∉ o) (hf : ∀ inner, b = o ++ inner → f inner = none) :
    replaceDelimited ('%' :: o) ['%'] f ('%' :: (b ++ '%' :: rest)) =
      '%' :: (b ++ replaceDelimited ('%' :: o) ['%'] f ('%' :: rest)) := by
  by_cases hp : o <+: b
  · obtain ⟨inner, rfl⟩ := hp
    have hinner : '%' ∉ inner := fun h => hb (by simp [h])
    have hs : Text.splitFirst? ('%' :: o) ('%' :: (o ++ inner ++ '%' :: rest)) =
        some ([], inner ++ '%' :: rest) := by
      simpa using Text.splitFirst?_append_self (List.cons_ne_nil '%' o) (inner ++ '%' :: rest)
    have hs' : Text.splitFirst? ['%'] (inner ++ '%' :: rest) = some (inner, rest) := by
      simpa using Text.splitFirst?_of_not_mem hinner [] rest
    rw [replaceDelimited_of_declined hs hs' (hf inner rfl), ← List.append_assoc, replaceDelimited_append hb]
    rfl
  · have hp' : ¬ '%' :: o <+: '%' :: (b ++ '%' :: rest) := fun h =>
      hp (Text.prefix_of_prefix_append_cons ho (List.cons_prefix_cons.1 h).2)
    rw [replaceDelimited_cons (by simp) hp', replaceDelimited_append hb]

theorem replaceDelimited_span_self {inner v : Text} (hinner : '%' ∉ inner) (hf : f inner = some v) (rest : Text) :
    replaceDelimited ('%' :: o) ['%'] f ('%' :: (o ++ inner ++ '%' :: rest)) =
      v ++ replaceDelimited ('%' :: o) ['%'] f rest := by
  have hs : Text.splitFirst? ('%' :: o) ('%' :: (o ++ inner ++ '%' :: rest)) = some ([], inner ++ '%' :: rest) := by
    simpa using Text.splitFirst?_append_self (List.cons_ne_nil '%' o) (inner ++ '%' :: rest)
  have hs' : Text.splitFirst? ['%'] (inner ++ '%' :: rest) = some (inner, rest) := by
    simpa using Text.splitFirst?_of_not_mem hinner [] rest
  simpa using replaceDelimited_of_some (by simp) hs hs' hf

/-- A span is replaced if what is behind its opening has a value. -/
theorem replaceDelimited_span_of_some {v : Text} (hb : '%' ∉ b) (h : (Text.stripPrefix? o b).bind f = some v)
    (rest : Text) :
    replaceDelimited ('%' :: o) ['%'] f ('%' :: (b ++ '%' :: rest)) =
      v ++ replaceDelimited ('%' :: o) ['%'] f rest := by
  obtain ⟨inner, hinner, hvalue⟩ := Option.bind_eq_some_iff.1 h
  obtain rfl := Text.eq_append_of_isPrefixOf? hinner
  exact replaceDelimited_span_self (fun hmem => hb (List.mem_append_right _ hmem)) hvalue rest

theorem replaceDelimited_span_of_none (hb : '%' ∉ b) (ho : '%' ∉ o) (h : (Text.stripPrefix? o b).bind f = none) :
    replaceDelimited ('%' :: o) ['%'] f ('%' :: (b ++ '%' :: rest)) =
      '%' :: (b ++ replaceDelimited ('%' :: o) ['%'] f ('%' :: rest)) := by
  refine replaceDelimited_span hb ho ?_
  rintro inner rfl
  rwa [Text.stripPrefix?, Text.isPrefixOf?_append_self] at h

theorem IsSpan.sign_not_mem {inner : Text} (h : IsSpan a ['%'] inner rest t) : '%' ∉ inner := by
  have hfirst : ¬ ['%'] <:+: inner ++ [] := h.first
  rwa [List.append_nil, List.singleton_infix_iff] at hfirst

/-- A sign in front of a text opens no span if that to the next sign is declined. -/
theorem replaceDelimited_sign (h : ∀ inner r, rest = o ++ inner ++ '%' :: r → '%' ∉ inner → f inner = none) :
    replaceDelimited ('%' :: o) ['%'] f ('%' :: rest) = '%' :: replaceDelimited ('%' :: o) ['%'] f rest := by
  refine replaceDelimited_cons_of_declined (List.cons_ne_nil '%' o) (List.cons_ne_nil '%' []) fun inner r hspan => ?_
  exact h inner r (by simpa using hspan.eq) hspan.sign_not_mem

theorem replaceDelimited_closing (h : OpensNone o rest) :
    replaceDelimited ('%' :: o) ['%'] f ('%' :: rest) = '%' :: replaceDelimited ('%' :: o) ['%'] f rest := by
  refine replaceDelimited_sign ?_
  rintro inner r rfl -
  rw [List.append_assoc] at h
  exact absurd (List.prefix_append o _) (h (by simp))

/-! ### Nested spans -/

theorem replaceNested_of_none (h : Text.splitFirst? (o ++ ['%']) t = none) : replaceNested o value t = t := by
  rw [replaceNested]
  split <;> simp_all

private theorem replaceNested_of_some {name : Text} (h : Text.splitFirst? (o ++ ['%']) t = some (a, b))
    (h' : Text.splitFirst? ['%'] b = some (name, '%' :: rest)) :
    replaceNested o value t = a ++ value name ++ replaceNested o value rest := by
  rw [replaceNested]
  split
  · simp_all
  · split <;> simp_all

private theorem replaceNested_of_unclosed (h : Text.splitFirst? (o ++ ['%']) t = some (a, b))
    (h' : ∀ name rest, Text.splitFirst? ['%'] b ≠ some (name, '%' :: rest)) :
    replaceNested o value t = a ++ (o ++ ['%']) ++ replaceNested o value b := by
  rw [replaceNested]
  split
  · simp_all
  · split <;> simp_all

theorem replaceNested_cons {c : Char} (h : ¬ o ++ ['%'] <+: c :: t) :
    replaceNested o value (c :: t) = c :: replaceNested o value t := by
  have hcons := Text.splitFirst?_cons h
  cases ht : Text.splitFirst? (o ++ ['%']) t with
  | none =>
    rw [ht] at hcons
    rw [replaceNested_of_none ht, replaceNested_of_none hcons]
  | some r =>
    rw [ht] at hcons
    by_cases hr : ∃ name rest, Text.splitFirst? ['%'] r.2 = some (name, '%' :: rest)
    · obtain ⟨name, rest, hr⟩ := hr
      rw [replaceNested_of_some ht hr, replaceNested_of_some hcons hr]
      simp
    · have hr' : ∀ name rest, Text.splitFirst? ['%'] r.2 ≠ some (name, '%' :: rest) := fun name rest h =>
        hr ⟨name, rest, h⟩
      rw [replaceNested_of_unclosed ht hr', replaceNested_of_unclosed hcons hr']
      simp

theorem replaceNested_append (ha : '%' ∉ a) :
    replaceNested ('%' :: o) value (a ++ t) = a ++ replaceNested ('%' :: o) value t := by
  induction a with
  | nil => rfl
  | cons c a ih =>
    have hp : ¬ '%' :: o ++ ['%'] <+: c :: (a ++ t) := fun hp =>
      List.ne_of_not_mem_cons ha (List.cons_prefix_cons.1 hp).1
    rw [List.cons_append, replaceNested_cons hp, ih (List.not_mem_of_not_mem_cons ha)]
    rfl

theorem replaceNested_span (hb : '%' ∉ b) (ho : '%' ∉ o) (hne : b ≠ o) :
    replaceNested ('%' :: o) value ('%' :: (b ++ '%' :: rest)) =
      '%' :: (b ++ replaceNested ('%' :: o) value ('%' :: rest)) := by
  have hp : ¬ '%' :: o ++ ['%'] <+: '%' :: (b ++ '%' :: rest) := fun hp =>
    hne (Text.eq_of_prefix_append_cons ho hb (List.cons_prefix_cons.1 hp).2).symm
  rw [replaceNested_cons hp, replaceNested_append hb]

theorem replaceNested_span_self {name : Text} (hname : '%' ∉ name) (value : Text → Text) (rest : Text) :
    replaceNested ('%' :: o) value ('%' :: (o ++ '%' :: (name ++ '%' :: '%' :: rest))) =
      value name ++ replaceNested ('%' :: o) value rest := by
  have hs : Text.splitFirst? ('%' :: o ++ ['%']) ('%' :: (o ++ '%' :: (name ++ '%' :: '%' :: rest))) =
      some ([], name ++ '%' :: '%' :: rest) := by
    simpa using Text.splitFirst?_append_self (List.cons_ne_nil '%' (o ++ ['%'])) (name ++ '%' :: '%' :: rest)
  have hs' : Text.splitFirst? ['%'] (name ++ '%' :: '%' :: rest) = some (name, '%' :: rest) := by
    simpa using Text.splitFirst?_of_not_mem hname [] ('%' :: rest)
  simpa using replaceNested_of_some hs hs'

theorem replaceNested_closing (h : OpensNone o rest) :
    replaceNested ('%' :: o) value ('%' :: rest) = '%' :: replaceNested ('%' :: o) value rest :=
  replaceNested_cons h.not_prefix

/-! ### A span alone -/

theorem opensNone_nil (o : Text) : OpensNone o [] :=
  fun hsign => absurd hsign List.not_mem_nil

theorem replaceAll_alone (hb : '%' ∉ b) (ho : '%' ∉ o) (hne : b ≠ o) :
    Text.replaceAll ('%' :: (o ++ ['%'])) new ('%' :: (b ++ ['%'])) = '%' :: (b ++ ['%']) := by
  rw [replaceAll_span hb ho hne, replaceAll_closing (opensNone_nil o), Text.replaceAll_nil]

theorem replaceDelimited_alone (hb : '%' ∉ b) (ho : '%' ∉ o) (hne : ∀ inner, b ≠ o ++ inner) :
    replaceDelimited ('%' :: o) ['%'] f ('%' :: (b ++ ['%'])) = '%' :: (b ++ ['%']) := by
  rw [replaceDelimited_span hb ho fun inner hinner => absurd hinner (hne inner),
    replaceDelimited_closing (opensNone_nil o), replaceDelimited_of_none (Text.splitFirst?_nil (by simp))]

/-- A nested span needs two signs behind the name in it. -/
theorem replaceNested_alone (hb : '%' ∉ b) (ho : '%' ∉ o) :
    replaceNested ('%' :: o) value ('%' :: (b ++ ['%'])) = '%' :: (b ++ ['%']) := by
  have hempty : replaceNested ('%' :: o) value [] = [] := replaceNested_of_none (Text.splitFirst?_nil (by simp))
  by_cases hne : b = o
  · subst hne
    have hs : Text.splitFirst? ('%' :: b ++ ['%']) ('%' :: (b ++ ['%'])) = some ([], []) := by
      simpa using Text.splitFirst?_append_self (List.cons_ne_nil '%' (b ++ ['%'])) []
    have hopen : ∀ name rest, Text.splitFirst? ['%'] [] ≠ some (name, '%' :: rest) := by
      rw [Text.splitFirst?_nil (by simp)]
      simp
    rw [replaceNested_of_unclosed hs hopen, hempty]
    simp
  · rw [replaceNested_span hb ho hne, replaceNested_closing (opensNone_nil o), hempty]

/-! ### Names of variables -/

section Implicit

variable {store : Store} {actor : Actor}

theorem replaceImplicitVariables_of_none (h : Text.splitFirst? ['%'] t = none) :
    replaceImplicitVariables store actor t = t := by
  rw [replaceImplicitVariables]
  split <;> simp_all

private theorem replaceImplicitVariables_of_unclosed (h : Text.splitFirst? ['%'] t = some (a, b))
    (h' : Text.splitFirst? ['%'] b = none) : replaceImplicitVariables store actor t = t := by
  rw [replaceImplicitVariables]
  split
  · rfl
  · split <;> simp_all

private theorem replaceImplicitVariables_of_some {name : Text} (h : Text.splitFirst? ['%'] t = some (a, b))
    (h' : Text.splitFirst? ['%'] b = some (name, rest)) :
    replaceImplicitVariables store actor t =
      if (implicitValue store actor name).isEmpty then
        a ++ '%' :: name ++ replaceImplicitVariables store actor ('%' :: rest)
      else a ++ implicitValue store actor name ++ replaceImplicitVariables store actor rest := by
  rw [replaceImplicitVariables]
  split
  · simp_all
  · split <;> simp_all

theorem replaceImplicitVariables_append (ha : '%' ∉ a) :
    replaceImplicitVariables store actor (a ++ t) = a ++ replaceImplicitVariables store actor t := by
  have hcut := Text.splitFirst?_append ha [] t
  cases ht : Text.splitFirst? ['%'] t with
  | none =>
    rw [ht] at hcut
    rw [replaceImplicitVariables_of_none ht, replaceImplicitVariables_of_none hcut]
  | some r =>
    rw [ht] at hcut
    cases hr : Text.splitFirst? ['%'] r.2 with
    | none => rw [replaceImplicitVariables_of_unclosed ht hr, replaceImplicitVariables_of_unclosed hcut hr]
    | some q =>
      rw [replaceImplicitVariables_of_some ht hr, replaceImplicitVariables_of_some hcut hr]
      split <;> simp

theorem replaceImplicitVariables_span {name : Text} (hname : '%' ∉ name)
    (hvalue : implicitValue store actor name ≠ []) :
    replaceImplicitVariables store actor ('%' :: (name ++ '%' :: rest)) =
      implicitValue store actor name ++ replaceImplicitVariables store actor rest := by
  have hs : Text.splitFirst? ['%'] ('%' :: (name ++ '%' :: rest)) = some ([], name ++ '%' :: rest) :=
    Text.splitFirst?_append_self (by simp) (name ++ '%' :: rest)
  have hs' : Text.splitFirst? ['%'] (name ++ '%' :: rest) = some (name, rest) := by
    simpa using Text.splitFirst?_of_not_mem hname [] rest
  rw [replaceImplicitVariables_of_some hs hs', if_neg (by simpa using hvalue)]
  rfl

end Implicit

/-! ### Arguments -/

section Arguments

variable {args : List Text} {n : Nat}

theorem getD_argumentsFrom? (args : List Text) (n : Nat) (d : Text) :
    (argumentsFrom? args n).getD d = if n ≤ args.length then Text.join " " (args.drop (n - 1)) else d := by
  unfold argumentsFrom?
  split <;> rfl

/-- A tail behind the last argument is empty. -/
theorem getD_argumentsFrom?_nil (args : List Text) (n : Nat) :
    (argumentsFrom? args n).getD [] = Text.join " " (args.drop (n - 1)) := by
  rw [getD_argumentsFrom?]
  split
  · rfl
  · rw [List.drop_eq_nil_of_le (by omega)]
    rfl

theorem argument?_natText (hn : 0 < n) (hmax : n ≤ maxIndex) : argument? args (natText n) = args[n - 1]? := by
  obtain ⟨m, rfl⟩ := Nat.exists_eq_succ_of_ne_zero (Nat.ne_of_gt hn)
  rw [argument?, natural?_natText hmax]
  rfl

/-- No argument has a number with a sign behind it. -/
theorem argument?_minus : argument? args (natText n ++ "-") = none := by
  rw [argument?, natural?_of_mem (c := '-') (by simp) (by decide) (by decide)]

theorem argumentValue?_of_not_mem (hcolon : ':' ∉ t) (hbar : '|' ∉ t) : argumentValue? args t = argument? args t := by
  rw [argumentValue?, Text.splitFirst?_eq_none (x := ':') (by decide) hcolon,
    Text.splitFirst?_eq_none (x := '|') (by decide) hbar]
  rfl

theorem argumentValue?_colons (hcolon : ':' ∉ t) (d : Text) :
    argumentValue? args (t ++ ("::" ++ d)) = some ((argument? args t).getD d) := by
  have hsplit : Text.splitFirst? "::" (t ++ ("::" ++ d)) = some (t, d) := Text.splitFirst?_of_not_mem hcolon [':'] d
  rw [argumentValue?, hsplit]
  rfl

theorem argumentValue?_bar {d : Text} (hcolon : ':' ∉ t) (hbar : '|' ∉ t) (hd : ¬ "::" <:+: d) :
    argumentValue? args (t ++ ("|" ++ d)) = some ((argument? args t).getD d) := by
  have hnone : Text.splitFirst? "::" (t ++ ("|" ++ d)) = none := by
    refine Text.splitFirst?_of_not_infix fun hinfix => ?_
    rcases (Text.infix_append_cons_iff (by decide) (by decide)).1 hinfix with hnumber | hdefault
    · exact hcolon (hnumber.subset (by decide))
    · exact hd hdefault
  have hsplit : Text.splitFirst? "|" (t ++ ("|" ++ d)) = some (t, d) := Text.splitFirst?_of_not_mem hbar [] d
  rw [argumentValue?, hnone, hsplit]
  rfl

theorem mem_of_argument? {v : Text} (h : argument? args t = some v) : v ∈ args := by
  unfold argument? at h
  split at h
  · exact List.mem_of_getElem? h
  · cases h

/-- What is put in for a single argument is an argument, or the default of the placeholder. -/
theorem argumentValue?_cases {v : Text} (h : argumentValue? args t = some v) :
    v ∈ args ∨ ∃ sep ∈ (["::", "|"] : List Text), ∃ index, Text.splitFirst? sep t = some (index, v) := by
  unfold argumentValue? at h
  split at h
  · rename_i index default hsplit
    obtain rfl := Option.some.inj h
    cases hvalue : argument? args index with
    | none =>
      rcases Option.or_eq_some_iff.1 hsplit with hsplit | ⟨-, hsplit⟩
      · exact .inr ⟨_, List.mem_cons_self, index, hsplit⟩
      · exact .inr ⟨_, List.mem_cons_of_mem _ List.mem_cons_self, index, hsplit⟩
    | some a => exact .inl (mem_of_argument? hvalue)
  · exact .inl (mem_of_argument? h)

end Arguments

/-- The two passes for a tail of the arguments. -/
theorem replaceTail_eq (args : List Text) (t : Text) (n : Nat) :
    replaceTail args t n =
      Text.replaceAll ('%' :: ("arg" ++ (natText n ++ "-") ++ ['%'])) ((argumentsFrom? args n).getD [])
        (replaceDelimited ('%' :: ("arg" ++ (natText n ++ "-::"))) ['%']
          (fun default => some ((argumentsFrom? args n).getD default)) t) := by
  have hopen : ("%arg" ++ natText n) ++ "-::" = '%' :: ("arg" ++ (natText n ++ "-::")) := by simp
  have hclose : ("%arg" ++ natText n) ++ "-%" = '%' :: ("arg" ++ (natText n ++ "-") ++ ['%']) := by simp
  unfold replaceTail
  simp only [hopen, hclose]
  rfl

end DirectiveEngine
