import DirectiveEngine.Proofs.Blacklist
import DirectiveEngine.Proofs.Engine.Dispatch
import DirectiveEngine.Proofs.Engine.Substitution

/-!
# Plain lines

A line without special characters is resolved to itself in every state, and an action that is one dispatches it, if
its first word is not on the blacklist.  Reading an action takes one slash away from its front, though, and a blacklist
entry loses all of them; so a listed command is blocked if it has at most one slash, and dispatched without its first
one if it has more (`invoke_listed`).
-/

namespace DirectiveEngine

variable {t u : Text}

/-- No marker, placeholder, token or escape is written in a line. -/
structure IsPlainLine (t : Text) : Prop where
  chars : ∀ c ∈ t, c ∉ '[' :: '%' :: quietChars
  commas : ¬ [',', ','] <:+: t

namespace IsPlainLine

instance (t : Text) : Decidable (IsPlainLine t) :=
  have : Decidable (∀ c ∈ t, c ∉ '[' :: '%' :: quietChars) := List.decidableBAll (· ∉ '[' :: '%' :: quietChars) t
  decidable_of_iff ((∀ c ∈ t, c ∉ '[' :: '%' :: quietChars) ∧ Text.contains [',', ','] t = false)
    ⟨fun h => ⟨h.1, (Text.contains_eq_false_iff (by simp)).1 h.2⟩,
      fun h => ⟨h.chars, (Text.contains_eq_false_iff (by simp)).2 h.commas⟩⟩

theorem not_mem (h : IsPlainLine t) {c : Char} (hc : c ∈ '[' :: '%' :: quietChars) : c ∉ t :=
  fun hmem => h.chars c hmem hc

theorem subtext (h : IsPlainLine t) (hu : u <:+: t) : IsPlainLine u :=
  ⟨fun c hc => h.chars c (hu.subset hc), fun hcommas => h.commas (hcommas.trans hu)⟩

end IsPlainLine

/-! ### Passes that find nothing -/

/-- The passes for single words and arguments find no span of theirs. -/
structure IsWordless (t : Text) : Prop where
  word : ∀ {o : Text}, '%' ∉ o → ':' ∉ o → o.head? ≠ some ' ' → o ≠ [] → ∀ new,
    Text.replaceAll ('%' :: (o ++ ['%'])) new t = t
  argument : ∀ {o : Text}, '%' ∉ o → o.head? = some 'a' → ∀ f, replaceDelimited ('%' :: o) ['%'] f t = t

/-- A span with a colon that does not start like an argument is neither a word nor an argument. -/
theorem isWordless_span {b : Text} (hb : '%' ∉ b) (hcolon : ':' ∈ b) (hhead : b.head? ≠ some 'a') :
    IsWordless ('%' :: (b ++ ['%'])) where
  word ho hno _ _ _ := replaceAll_alone hb ho fun heq => hno (heq ▸ hcolon)
  argument {o} ho ha _ := by
    refine replaceDelimited_alone hb ho fun inner hinner => hhead ?_
    obtain ⟨r, hr⟩ := List.head?_eq_some_iff.1 ha
    rw [hinner, hr]
    rfl

namespace IsWordless

variable (h : IsWordless t)
include h

theorem builtin {token : Text} (htoken : token ∈ builtinNames.map fun o => '%' :: (o ++ ['%'])) (new : Text) :
    Text.replaceAll token new t = t := by
  obtain ⟨o, ho, rfl⟩ := List.mem_map.1 htoken
  obtain ⟨hplain, hblank, hnil⟩ := isPlain_builtin o ho
  exact h.word (hplain.not_mem (by decide)) (colon_not_mem_builtin o ho) hblank hnil new

private theorem replaceTail (args : List Text) (n : Nat) : DirectiveEngine.replaceTail args t n = t := by
  have hsign : '%' ∉ natText n := not_mem_natText (by decide)
  have hcolon : ':' ∉ natText n := not_mem_natText (by decide)
  have hdefault (f : Text → Option Text) :
      replaceDelimited ('%' :: ("arg" ++ (natText n ++ "-::"))) ['%'] f t = t :=
    h.argument (by simp [hsign]) (by simp) f
  rw [replaceTail_eq, hdefault, h.word (by simp [hsign]) (by simp [hcolon]) (by simp) (by simp)]

theorem replaceArguments (args : List Text) : DirectiveEngine.replaceArguments args t = t := by
  have htails (ns : List Nat) : ns.foldl (DirectiveEngine.replaceTail args) t = t := by
    induction ns with
    | nil => rfl
    | cons n ns ih => rw [List.foldl_cons, h.replaceTail, ih]
  simp only [DirectiveEngine.replaceArguments]
  rw [h.builtin (by decide), htails]
  exact h.argument (o := "arg") (by decide) (by decide) _

theorem replaceActorTokens (s : Snapshot) : DirectiveEngine.replaceActorTokens s t = t := by
  suffices hfold : ∀ tokens : List (Text × Text),
      (∀ token ∈ tokens.map Prod.fst, token ∈ builtinNames.map fun o => '%' :: (o ++ ['%'])) →
      tokens.foldl (fun t token => Text.replaceAll token.1 token.2 t) t = t from
    hfold (actorTokens s) (by simp only [actorTokens, List.map_cons, List.map_nil]; decide)
  intro tokens
  induction tokens with
  | nil => exact fun _ => rfl
  | cons token tokens ih =>
    intro htokens
    rw [List.foldl_cons, h.builtin (htokens _ List.mem_cons_self),
      ih fun name hname => htokens name (List.mem_cons_of_mem _ hname)]

/-- The lists of members are left. -/
theorem replaceServerTokens (server : ServerFacts) (inner : Text → Text) :
    DirectiveEngine.replaceServerTokens server inner t =
      replaceMembers server "%teamplayers_uuid:" (memberId server) inner
        (replaceMembers server "%teamplayers:" id inner t) := by
  simp only [DirectiveEngine.replaceServerTokens, replaceOnline]
  rw [h.builtin (by decide), h.builtin (by decide), h.builtin (by decide), h.builtin (by decide)]

end IsWordless

/-- The pass for variables finds no span of its own either. -/
structure IsUntouched (t : Text) : Prop extends IsWordless t where
  reference : ∀ store actor, replaceVariableTokens store actor t = t

theorem isUntouched_of_not_mem (ht : '%' ∉ t) : IsUntouched t where
  word _ _ _ _ _ := Text.replaceAll_of_none (Text.splitFirst?_eq_none List.mem_cons_self ht)
  argument _ _ _ := replaceDelimited_of_none (Text.splitFirst?_eq_none List.mem_cons_self ht)
  reference _ _ := replaceDelimited_of_none (Text.splitFirst?_eq_none List.mem_cons_self ht)

theorem replaceMembers_of_not_mem (ht : '%' ∉ t) (server : ServerFacts) {opening : Text} (ho : '%' ∈ opening)
    (render inner : Text → Text) : replaceMembers server opening render inner t = t := by
  simp only [replaceMembers]
  rw [replaceNested_of_none (Text.splitFirst?_eq_none (List.mem_append_left _ ho) ht),
    replaceDelimited_of_none (Text.splitFirst?_eq_none ho ht)]

theorem replaceServerTokens_of_not_mem (ht : '%' ∉ t) (server : ServerFacts) (inner : Text → Text) :
    replaceServerTokens server inner t = t := by
  rw [(isUntouched_of_not_mem ht).replaceServerTokens, replaceMembers_of_not_mem ht _ (by decide),
    replaceMembers_of_not_mem ht _ (by decide)]

/-! ### Resolving a plain line -/

variable {σ : Type}

open Run (after value)

namespace Engine

/-- Without words and arguments, the first passes find references to variables, and then facts about the server. -/
theorem expand_wordless (e : Engine σ) (h : IsWordless t) (hquiet : '\\' ∉ t) (w : World σ) (actor : Actor)
    (args : List Text) :
    ∃ inner : Text → Text, e.expand w actor args t =
      DirectiveEngine.replaceServerTokens (e.host.server w.host) inner (replaceVariableTokens w.store actor t) := by
  refine ⟨fun name => if (w.store.resolve actor name).isEmpty then name else w.store.resolve actor name, ?_⟩
  simp only [expand]
  rw [protect_of_not_mem hquiet, h.replaceArguments]
  cases e.host.snapshot? w.host actor with
  | none => rfl
  | some s => simp only [h.replaceActorTokens]

/-- All that the first passes find are lists of members. -/
theorem expand_untouched (e : Engine σ) (h : IsUntouched t) (hquiet : '\\' ∉ t) (w : World σ) (actor : Actor)
    (args : List Text) :
    ∃ inner : Text → Text, e.expand w actor args t =
      replaceMembers (e.host.server w.host) "%teamplayers_uuid:" (memberId (e.host.server w.host)) inner
        (replaceMembers (e.host.server w.host) "%teamplayers:" id inner t) := by
  obtain ⟨inner, hexpand⟩ := e.expand_wordless h.toIsWordless hquiet w actor args
  exact ⟨inner, by rw [hexpand, h.reference, h.replaceServerTokens]⟩

theorem expand_plain (e : Engine σ) (h : IsPlainLine t) (w : World σ) (actor : Actor) (args : List Text) :
    e.expand w actor args t = t := by
  have hsign : '%' ∉ t := h.not_mem (by decide)
  have huntouched : IsUntouched t := isUntouched_of_not_mem hsign
  obtain ⟨inner, hexpand⟩ := e.expand_wordless huntouched.toIsWordless (h.not_mem (by decide)) w actor args
  rw [hexpand, huntouched.reference, replaceServerTokens_of_not_mem hsign]

theorem settle_plain (h : ∀ c ∈ t, c ∉ '%' :: quietChars) (store : Store) (actor : Actor) :
    settle store actor t = t := by
  have hnot {c : Char} (hc : c ∈ '%' :: quietChars) : c ∉ t := fun hmem => h c hmem hc
  have hsign : Text.splitFirst? ['%'] t = none := Text.splitFirst?_eq_none (x := '%') (by simp) (hnot (by decide))
  rw [settle, replaceImplicitVariables_of_none hsign, replaceMath_of_not_mem (hnot (by decide)),
    restore_of_not_mem (hnot (by decide))]

theorem act_plain {e : Engine σ} (h : IsPlainLine t) : e.act t = pure t :=
  act_of_none (Text.splitFirst?_of_not_infix h.commas) (h.not_mem (by decide)) (h.not_mem (by decide))

/-- A text that is plain once the first passes are over is left so, and has no effect. -/
theorem resolve_of_expand (e : Engine σ) {actor : Actor} {args : List Text} {w : World σ}
    (hexpand : e.expand w actor args t = u) (hu : IsPlainLine u) :
    value (e.resolve actor args t) w = u ∧ after (e.resolve actor args t) w = w := by
  rw [value_resolve, after_resolve, hexpand, act_plain hu]
  exact ⟨settle_plain (fun c hc hmem => hu.chars c hc (List.mem_cons_of_mem _ hmem)) _ actor, rfl⟩

/-- A plain line is its own value, whoever runs it and whatever the state. -/
theorem value_resolve_plain (e : Engine σ) (h : IsPlainLine t) (actor : Actor) (args : List Text) (w : World σ) :
    value (e.resolve actor args t) w = t :=
  (e.resolve_of_expand (expand_plain e h w actor args) h).1

/-- A plain line is resolved without a panic. -/
theorem isSafe_resolve_plain (e : Engine σ) (h : IsPlainLine t) (actor : Actor) (args : List Text) :
    Run.IsSafe (e.resolve actor args t) := by
  intro w hpanics
  rw [panics_resolve_iff, expand_plain e h, act_plain h] at hpanics
  exact Run.IsSafe.pure t w hpanics

/-- Resolving a plain line has no effect. -/
theorem after_resolve_plain (e : Engine σ) (h : IsPlainLine t) (actor : Actor) (args : List Text) (w : World σ) :
    after (e.resolve actor args t) w = w :=
  (e.resolve_of_expand (expand_plain e h w actor args) h).2

end Engine

/-! ### Reading a plain action -/

namespace Directive

/-- A text without brackets has no markers, so it is read as it stands, but for a slash in front. -/
theorem parse_of_not_mem (ht : '[' ∉ t) (hmessage : Text.stripPrefix? "#message" (takeMark '/' t.trim).2 = none) :
    parse t =
      let m := parseMarked (takeMark '/' t.trim).2
      { raw := t.trim, delay := 0, gate := .always, asConsole := m.1, quiet := m.2.1, weight? := none, kind := m.2.2.1,
        body := m.2.2.2 } := by
  have hraw : '[' ∉ t.trim := fun hmem => ht (t.trim_isInfix.subset hmem)
  have hmarker {o : Text} (ho : '[' ∈ o) : takeMarker? o t.trim = none := by
    rw [takeMarker?, Text.splitFirst?_eq_none ho hraw]
    rfl
  have hloop : takeLoop t.trim = (none, t.trim) := by rw [takeLoop, hmarker (by decide)]
  have hdelay : takeDelay t.trim = (0, t.trim) := by rw [takeDelay, hmarker (by decide)]
  have hgate : takeGate t.trim = (.always, t.trim) := by
    have helse : Text.contains "[else]" t.trim = false := by
      rw [Text.contains, Text.splitFirst?_eq_none (x := '[') (by decide) hraw]
      rfl
    rw [takeGate, hmarker (by decide)]
    simp only
    rw [helse, hmarker (by decide)]
    rfl
  have hweight : takeWeight t.trim = (none, t.trim) := by rw [takeWeight, hmarker (by decide)]
  simp only [parse, hloop, hdelay, hgate, hweight, Text.trim_trim, hmessage]

variable {line : Text} (hfirst : ∀ c ∈ line.head?, c ∉ ['#', '!', '-', '+', '$', '%'])
include hfirst

theorem stripPrefix?_message : Text.stripPrefix? "#message" line = none := by
  refine Text.isPrefixOf?_eq_none ?_
  rintro ⟨r, hr⟩
  exact absurd (hfirst '#' (by rw [← hr]; rfl)) (by decide)

/-- A text without a mark in front is a command. -/
theorem parseMarked_command (htrim : line.trim = line) (hne : line ≠ []) :
    parseMarked line = (false, false, .command, line) := by
  obtain ⟨c, r, rfl⟩ := List.exists_cons_of_ne_nil hne
  have hc := hfirst c rfl
  simp only [List.mem_cons, List.not_mem_nil, or_false, not_or] at hc
  obtain ⟨-, hconsole, hquiet, hplus, hdollar, hpercent⟩ := hc
  simp [parseMarked, takeMark, parsePlain, hconsole, hquiet, hplus, hdollar, hpercent, htrim]

end Directive

/-- An action that is nothing but a line for the host, up to blanks around it and one slash in front. -/
structure WritesLine (t line : Text) : Prop where
  bracket : '[' ∉ t
  mark : (Directive.takeMark '/' t.trim).2 = line
  first : ∀ c ∈ line.head?, c ∉ ['#', '!', '-', '+', '$', '%']
  trim : line.trim = line
  ne_nil : line ≠ []
  plain : IsPlainLine line

variable {line : Text}

theorem WritesLine.parse (h : WritesLine t line) :
    Directive.parse t =
      { raw := t.trim, delay := 0, gate := .always, asConsole := false, quiet := false, weight? := none,
        kind := .command, body := line } := by
  have hmessage := Directive.stripPrefix?_message h.first
  have hmarked := Directive.parseMarked_command h.first h.trim h.ne_nil
  rw [Directive.parse_of_not_mem h.bracket (by rw [h.mark]; exact hmessage), h.mark, hmarked]

/-! ### Running a single action -/

/-- An invocation of a single directive without a delay runs it at once. -/
theorem after_begin_single (e : Engine σ) (actor : Actor) (args : List Text) {d : Directive} (hd : d.delay = 0)
    (w : World σ) :
    after (e.begin actor args [d]) w =
      after (e.execute ⟨w.invocations, actor, args⟩ d).attempt { w with invocations := w.invocations + 1 } := by
  have hsums : delaySums 0 [d] = [(0, d)] := by simp [delaySums, hd]
  have hundelayed : Engine.undelayed [d] = [d] := by simp [Engine.undelayed, hsums]
  have hdelayed : e.delayed w.now [d] = [] := by simp [Engine.delayed, hsums]
  have hbegin : after (e.begin actor args [d]) w =
      after (e.executeRow ⟨w.invocations, actor, args⟩ (Engine.undelayed [d]) (e.delayed w.now [d]))
        { w with invocations := w.invocations + 1 } := rfl
  rw [hbegin, hundelayed, hdelayed, after_executeRow_cons]
  split
  · rfl
  · exact (Run.attempt_of_not_panics ‹_›).2.symm

theorem collapseRandom_single (draw : Nat) {d : Directive} (hd : d.weight? = none) :
    collapseRandom draw [d] = [d] := by
  simp [collapseRandom, Directive.isRandom, hd, pick?, pickAt?]

/-- An invocation of one action has begun, and its directive is noted. -/
def World.begun (w : World σ) (action : Text) : World σ :=
  { w with
    invocations := w.invocations + 1
    history := (w.now, .directive w.invocations (Directive.parse action)) :: w.history }

/-- An action without a delay, a gate and a weight does at once what its kind is, up to a panic. -/
theorem after_invoke_single (e : Engine σ) {action : Text} {d : Directive} (hd : Directive.parse action = d)
    (hdelay : d.delay = 0) (hgate : d.gate = .always) (hweight : d.weight? = none) (draw : Nat) (actor : Actor)
    (args : List Text) (w : World σ) :
    after (e.invoke draw actor args [action]) w =
      after (e.perform ⟨w.invocations, actor, args⟩ d).attempt (w.begun action) := by
  subst hd
  let inv : Invocation := ⟨w.invocations, actor, args⟩
  have hexecute : e.execute inv (Directive.parse action) = (do
      Run.note (.directive inv.id (Directive.parse action))
      let _ ← get
      e.perform inv (Directive.parse action)) := by
    unfold Engine.execute Engine.passes
    simp only [hgate]
    rfl
  have hnote : ¬ (Run.note (.directive inv.id (Directive.parse action)) : Run σ Unit).Panics
      { w with invocations := w.invocations + 1 } := Run.IsSafe.modifyGet _ _
  have hget (v : World σ) : ¬ (get : Run σ (World σ)).Panics v := Run.IsSafe.modifyGet _ v
  rw [after_invoke, List.map_singleton, collapseRandom_single draw hweight, after_begin_single e actor args hdelay,
    hexecute, after, Run.run_attempt_bind_of_not_panics hnote, Run.run_attempt_bind_of_not_panics (hget _)]
  rfl

/-- A plain command is dispatched if it is not on the blacklist, and leaves nothing to be done later. -/
theorem WritesLine.invoke (e : Engine σ) (h : WritesLine t line) (draw : Nat) (actor : Actor) (args : List Text)
    (w : World σ) :
    (after (e.invoke draw actor args [t]) w).output =
        w.output ++ (if line.firstWord.lower ∈ e.config.blacklist then [] else [.dispatch actor line false]) ∧
      (after (e.invoke draw actor args [t]) w).tasks = w.tasks := by
  let inv : Invocation := ⟨w.invocations, actor, args⟩
  let v := w.begun t
  have hv : v.output = w.output :=
    (output_after_note (.directive inv.id (Directive.parse t)) { w with invocations := w.invocations + 1 }).trans
      (List.append_nil _)
  have hsafe : Run.IsSafe (e.executeCommand inv (Directive.parse t)) := by
    rw [h.parse]
    exact .bind (e.isSafe_resolve_plain h.plain actor args) fun _ => e.isSafe_dispatch _ _ _ _
  have hrun : after (e.invoke draw actor args [t]) w =
      after (e.dispatch inv actor line false) (after (e.resolveFor inv line) v) := by
    have hline : value (e.resolveFor inv line) v = line := Engine.value_resolve_plain e h.plain actor args v
    have hcommand : after (e.invoke draw actor args [t]) w =
        after (e.dispatch inv actor (value (e.resolveFor inv line) v) false) (after (e.resolveFor inv line) v) := by
      rw [h.parse] at hsafe
      exact (after_invoke_single e h.parse rfl rfl rfl draw actor args w).trans
        (Run.attempt_of_not_panics (hsafe v)).2
    rwa [hline] at hcommand
  have hstill := Still.frame e inv
  constructor
  · rw [hrun, output_after_dispatch e inv actor (by rw [h.trim]; exact h.ne_nil), output_after_resolveFor, hv, h.trim]
  · have hdone := hstill.trans ((hstill.resolveFor inv line).after v) ((hstill.dispatch inv actor line false).after _)
    rw [hrun]
    exact hdone.tasks

/-! ### Listed commands -/

theorem takeMark_of_head {mark : Char} (h : t.head? ≠ some mark) : (Directive.takeMark mark t).2 = t := by
  cases t with
  | nil => rfl
  | cons c t => rw [Directive.takeMark, if_neg fun hc => h (by rw [hc]; rfl)]

section Command

variable {n : Nat} {word rest : Text} (hword : IsBareWord word)
include hword

private theorem eq_slash_or_isAlphanum {k : Nat} {c : Char} (hc : c ∈ List.replicate k '/' ++ word) :
    c = '/' ∨ c.isAlphanum = true :=
  (List.mem_append.1 hc).imp List.eq_of_mem_replicate (hword.chars c)

private theorem not_isBlank_command {k : Nat} {c : Char} (hc : c ∈ List.replicate k '/' ++ word) :
    isBlank c = false := by
  rcases eq_slash_or_isAlphanum hword hc with rfl | h
  · decide
  · exact not_isBlank_of_isAlphanum h

private theorem not_mem_of_all {special : List Char} (h : (special.all fun d => d != '/' && !d.isAlphanum) = true)
    {k : Nat} {c : Char} (hc : c ∈ List.replicate k '/' ++ word) : c ∉ special := by
  intro hmem
  have hno := List.all_eq_true.1 h c hmem
  rcases eq_slash_or_isAlphanum hword hc with rfl | halnum
  · simp at hno
  · simp [halnum] at hno

private theorem mem_of_mem_head?_command {k : Nat} {c : Char}
    (hc : c ∈ (List.replicate k '/' ++ word ++ rest).head?) : c ∈ List.replicate k '/' ++ word := by
  obtain ⟨d, r, hd⟩ := List.exists_cons_of_ne_nil (l := List.replicate k '/' ++ word) (by simp [hword.ne_nil])
  rw [hd] at hc ⊢
  exact Option.some.inj hc ▸ List.mem_cons_self

variable (hrest : rest = [] ∨ ∃ words, rest = ' ' :: words ∧ IsPlainLine words)
include hrest

private theorem isPlainLine_command (k : Nat) : IsPlainLine (List.replicate k '/' ++ word ++ rest) := by
  have hplain : IsPlainLine rest := by
    rcases hrest with rfl | ⟨words, rfl, hwords⟩
    · exact ⟨by simp, by simp⟩
    · refine ⟨fun c hc => ?_, fun h => hwords.commas (Text.infix_of_infix_append (a := [' ']) (by decide) h)⟩
      rcases List.mem_cons.1 hc with rfl | hc
      · decide
      · exact hwords.chars c hc
  have hchars : ∀ c ∈ List.replicate k '/' ++ word, c ∉ ',' :: '[' :: '%' :: quietChars :=
    fun c => not_mem_of_all hword (by decide)
  refine ⟨fun c hc => ?_, fun h => ?_⟩
  · rcases List.mem_append.1 hc with hc | hc
    · exact fun hmem => hchars c hc (List.mem_cons_of_mem _ hmem)
    · exact hplain.chars c hc
  · exact hplain.commas (Text.infix_of_infix_append (fun hmem => hchars _ hmem List.mem_cons_self) h)

/-- Reading takes one slash from a command word. -/
theorem writesLine_command :
    WritesLine (List.replicate n '/' ++ word ++ rest) (Text.trim (List.replicate (n - 1) '/' ++ word ++ rest)) := by
  have hhead : ∀ c ∈ (List.replicate (n - 1) '/' ++ word ++ rest).head?, isBlank c = false :=
    fun c hc => not_isBlank_command hword (mem_of_mem_head?_command hword hc)
  have hfirst : ∀ c ∈ (Text.trim (List.replicate (n - 1) '/' ++ word ++ rest)).head?,
      c ∈ List.replicate (n - 1) '/' ++ word := by
    intro c hc
    obtain ⟨g, -, hg⟩ := Text.exists_eq_trim_append hhead
    have hc' : c ∈ (List.replicate (n - 1) '/' ++ word ++ rest).head? := by
      rw [hg, List.head?_append, Option.mem_def.1 hc]
      rfl
    exact mem_of_mem_head?_command hword hc'
  constructor
  · exact (isPlainLine_command hword hrest n).not_mem (by decide)
  · cases n with
    | zero =>
      -- the word starts with a letter or a digit, so there is nothing to take
      refine takeMark_of_head fun hslash => ?_
      exact absurd (hword.chars '/' (hfirst '/' hslash)) (by decide)
    | succ n =>
      have hcons : List.replicate (n + 1) '/' ++ word ++ rest = '/' :: (List.replicate n '/' ++ word ++ rest) := rfl
      rw [Nat.add_sub_cancel] at hhead
      rw [hcons, Text.trim_cons_of_head (by decide) hhead, Nat.add_sub_cancel]
      rfl
  · exact fun c hc => not_mem_of_all hword (by decide) (hfirst c hc)
  · exact Text.trim_trim _
  · intro hnil
    obtain ⟨c, hc⟩ := List.exists_mem_of_ne_nil word hword.ne_nil
    have hblank := List.all_eq_true.1 (Text.trim_eq_nil_iff.1 hnil) c (by simp [hc])
    rw [not_isBlank_of_isAlphanum (hword.chars c hc)] at hblank
    exact absurd hblank (by decide)
  · exact (isPlainLine_command hword hrest (n - 1)).subtext (Text.trim_isInfix _)

/-- The first word is the command word, whatever follows it. -/
private theorem lower_firstWord_command (k : Nat) :
    (Text.trim (List.replicate k '/' ++ word ++ rest)).firstWord.lower =
      List.replicate k '/' ++ word.lowerAscii := by
  have hbehind : ∀ c ∈ rest.head?, isBlank c = true := by
    rcases hrest with rfl | ⟨words, rfl, -⟩
    · simp
    · rintro c hc
      rw [← Option.some.inj hc]
      decide
  have hascii : ∀ c ∈ List.replicate k '/' ++ word, c.toNat < 128 := by
    intro c hc
    rcases eq_slash_or_isAlphanum hword hc with rfl | h
    · decide
    · exact toNat_lt_of_isAlphanum h
  rw [Text.firstWord_trim, Text.firstWord_append (by simp [hword.ne_nil]) (fun c => not_isBlank_command hword) hbehind,
    Text.lower_of_ascii hascii, Text.lowerAscii, List.map_append, List.map_replicate]
  rfl

end Command

/-- A listed command that is invoked as it is listed is blocked just if it has at most one slash; with more it is
dispatched without the first of them. -/
theorem invoke_listed (e : Engine σ) {n : Nat} {word rest : Text} (hword : IsBareWord word)
    (hrest : rest = [] ∨ ∃ words, rest = ' ' :: words ∧ IsPlainLine words)
    (hlisted : e.config.Lists (List.replicate n '/' ++ word)) (draw : Nat) (actor : Actor) (args : List Text)
    (w : World σ) :
    let u := after (e.invoke draw actor args [List.replicate n '/' ++ word ++ rest]) w
    u.output = w.output ++ (if n ≤ 1 then []
        else [.dispatch actor (Text.trim (List.replicate (n - 1) '/' ++ word ++ rest)) false]) ∧
      u.tasks = w.tasks := by
  intro u
  obtain ⟨hout, htasks⟩ := (writesLine_command hword hrest).invoke e draw actor args w
  refine ⟨hout.trans ?_, htasks⟩
  rw [lower_firstWord_command hword hrest]
  by_cases hn : n ≤ 1
  · have hzero : n - 1 = 0 := by omega
    rw [if_pos hn, hzero, List.replicate_zero, List.nil_append,
      if_pos (Config.mem_blacklist_of_listed hword hlisted)]
  · -- a slash is left, and no word of the blacklist starts with one
    obtain ⟨k, hk⟩ : ∃ k, n - 1 = k + 1 := ⟨n - 2, by omega⟩
    have hslash : List.replicate (n - 1) '/' ++ word.lowerAscii ∉ e.config.blacklist :=
      fun h => Config.head?_ne_of_mem_blacklist h (by rw [hk]; rfl)
    rw [if_neg hn, if_neg hslash]

/-- One slash in front, and another letter case and blanks in the list. -/
theorem invoke_listed_once :
    let e : Engine Script := { host := Script.host, config := { blacklistedCommands := [" /Stop "] } }
    let w : World Script := { host := { files := ⟨[], [], []⟩ } }
    (after (e.invoke 0 .console [] ["/stop now"]) w).output = [] := by
  intro e w
  have hword : IsBareWord "stop" := by decide
  have hrest : (" now" : Text) = [] ∨ ∃ words, (" now" : Text) = ' ' :: words ∧ IsPlainLine words :=
    .inr ⟨"now", by decide, by decide⟩
  have hlisted : e.config.Lists (List.replicate 1 '/' ++ "stop") := ⟨" /Stop ", by decide, by decide +kernel⟩
  have htext : List.replicate 1 '/' ++ "stop" ++ " now" = ("/stop now" : Text) := by decide
  have h := (invoke_listed e hword hrest hlisted 0 .console [] w).1
  rwa [htext] at h

/-- Two slashes, of which reading takes one and the blacklist both. -/
theorem invoke_listed_twice :
    let e : Engine Script := { host := Script.host, config := { blacklistedCommands := ["//stop"] } }
    e.config.Lists "//stop" ∧
      (after (e.invoke 0 .console [] ["//stop"]) { host := { files := ⟨[], [], []⟩ } }).output =
        [.dispatch .console "/stop" false] := by
  exact ⟨⟨"//stop", by decide, by decide +kernel⟩, by decide +kernel⟩

end DirectiveEngine
