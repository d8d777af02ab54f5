import DirectiveEngine.Proofs.Engine.Loop

/-!
# Loops over the output of a command

The lines of an output are joined by spaces before the loop cuts its list.  So no line break is left to cut at, and the
loop runs once over all lines together (`loop_over_output`).
-/

namespace DirectiveEngine

variable {σ : Type} {c : Text}

open Run (after value)

/-! ### The command -/

/-- A line for a shell in which no pass finds anything of its own. -/
structure IsShellLine (c : Text) : Prop where
  chars : ∀ d ∈ c, d ∉ ['%', '\\', '(', ')', '[', ']']
  commas : ¬ [',', ','] <:+: c
  semicolons : ¬ [';', ';'] <:+: c

namespace IsShellLine

instance (c : Text) : Decidable (IsShellLine c) :=
  have : Decidable (∀ d ∈ c, d ∉ ['%', '\\', '(', ')', '[', ']']) :=
    List.decidableBAll (· ∉ ['%', '\\', '(', ')', '[', ']']) c
  decidable_of_iff ((∀ d ∈ c, d ∉ ['%', '\\', '(', ')', '[', ']']) ∧ Text.contains [',', ','] c = false ∧
      Text.contains [';', ';'] c = false)
    ⟨fun h => ⟨h.1, (Text.contains_eq_false_iff (by simp)).1 h.2.1, (Text.contains_eq_false_iff (by simp)).1 h.2.2⟩,
      fun h => ⟨h.chars, (Text.contains_eq_false_iff (by simp)).2 h.commas,
        (Text.contains_eq_false_iff (by simp)).2 h.semicolons⟩⟩

variable (h : IsShellLine c)
include h

theorem not_mem {d : Char} (hd : d ∈ ['%', '\\', '(', ')', '[', ']']) : d ∉ c :=
  fun hmem => h.chars d hmem hd

/-- Signs other than those of the group are the signs of the command. -/
theorem not_mem_group {d : Char} (hd : d ∈ ['%', '\\', '[', ']']) : d ∉ "&(" ++ c ++ ")" := by
  have hgroup : d ∉ ['&', '(', ')'] := by
    have hall : (['%', '\\', '[', ']'].all fun d => d ∉ ['&', '(', ')']) = true := by decide
    exact of_decide_eq_true (List.all_eq_true.1 hall d hd)
  have hc : d ∉ c := h.not_mem (by simp at hd ⊢; tauto)
  simp at hgroup ⊢
  tauto

end IsShellLine

/-- A pair of signs other than those of the group is not in the group either. -/
private theorem not_infix_group {x : Char} (hx : x ≠ '(' ∧ x ≠ ')') (hpair : ¬ [x, x] <:+: c) :
    ¬ [x, x] <:+: ("&(" ++ c ++ ")" : Text) := by
  have hcut : ("&(" ++ c ++ ")" : Text) = ['&'] ++ '(' :: (c ++ ')' :: []) := by simp
  rw [hcut, Text.infix_append_cons_iff (by simp) (by simpa using hx.1.symm),
    Text.infix_append_cons_iff (by simp) (by simpa using hx.2.symm)]
  have hshort : ∀ t : Text, t.length < 2 → ¬ [x, x] <:+: t :=
    fun t ht hinfix => absurd hinfix.length_le (Nat.not_le.2 ht)
  simp only [not_or]
  exact ⟨hshort _ (by simp), hpair, hshort _ (by simp)⟩

/-! ### Resolving the source -/

section Source

variable {e : Engine σ} (hc : IsShellLine c)
include hc

/-- A group alone runs its command and nothing else. -/
theorem act_group (henabled : e.config.hostCommandsEnabled = true) : e.act ("&(" ++ c ++ ")") = e.commandToken c := by
  have hopening : Text.splitFirst? groupOpening ("&(" ++ c ++ ")") = some ([], c ++ ')' :: []) := by
    rw [List.append_assoc]
    exact Text.splitFirst?_append_self (by decide) _
  have hclosing : splitGroup? 0 (c ++ ')' :: []) = some (c, []) := by
    have hlevel : ∀ d ∈ c, d ≠ '(' ∧ d ≠ ')' :=
      fun d hd => ⟨fun heq => hc.chars d hd (by simp [heq]), fun heq => hc.chars d hd (by simp [heq])⟩
    rw [splitGroup?_append hlevel]
    simp [splitGroup?]
  have hgroups : groupPieces ("&(" ++ c ++ ")") = [.plain [], .token c, .plain []] := by
    rw [groupPieces_of_some hopening hclosing, groupPieces_of_none (Text.splitFirst?_nil (by decide))]
  have hreads := markedPieces_of_absent (c := Engine.readMark) (not_infix_group (by decide) hc.commas)
  have hwrites := markedPieces_of_absent (c := Engine.writeMark) (not_infix_group (by decide) hc.semicolons)
  unfold Engine.act
  rw [hreads, renderPieces_plain, pure_bind, hwrites, renderPieces_plain, pure_bind, if_pos henabled, hgroups]
  simp [renderPieces]

theorem expand_group (w : World σ) (actor : Actor) (args : List Text) :
    e.expand w actor args ("&(" ++ c ++ ")") = "&(" ++ c ++ ")" := by
  have hsign : '%' ∉ "&(" ++ c ++ ")" := hc.not_mem_group (by decide)
  obtain ⟨inner, hexpand⟩ :=
    e.expand_untouched (isUntouched_of_not_mem hsign) (hc.not_mem_group (by decide)) w actor args
  rw [hexpand, replaceMembers_of_not_mem hsign _ (by decide), replaceMembers_of_not_mem hsign _ (by decide)]

/-- The value of a group is the output of its command, with spaces in the place of line breaks. -/
theorem resolve_group (henabled : e.config.hostCommandsEnabled = true) {w : World σ} {o : ProcessOutput}
    (hrun : (e.host.run c w.host).1 = .ok o) {lines : List Text} (hlines : ∀ line ∈ lines, IsItem line)
    (hout : Text.lines o.output = lines) (actor : Actor) (args : List Text) :
    value (e.resolve actor args ("&(" ++ c ++ ")")) w = Text.join " " lines ∧
      after (e.resolve actor args ("&(" ++ c ++ ")")) w = after (e.run c) w := by
  have hvalue : value (e.run c) w = .ok o := hrun
  have hplain : ∀ d ∈ Text.join " " lines, d ∉ '%' :: quietChars := by
    have hwords : IsWords (Text.join " " lines) := isWords_join (by decide) fun line hline => (hlines line hline).words
    exact fun d hd hmem => hwords.isPlainLine.chars d hd (List.mem_cons_of_mem _ hmem)
  have htoken : value (e.commandToken c) w = Text.join " " lines ∧ after (e.commandToken c) w = after (e.run c) w := by
    rw [Engine.commandToken, Run.after_bind, Run.value_bind, hvalue]
    simp only [hout]
    exact ⟨trim_join_items hlines " ", rfl⟩
  rw [Engine.value_resolve, Engine.after_resolve, expand_group hc, act_group hc henabled, htoken.1]
  exact ⟨Engine.settle_plain hplain _ actor, htoken.2⟩

theorem not_panics_group (henabled : e.config.hostCommandsEnabled = true) (w : World σ) (actor : Actor)
    (args : List Text) : ¬ (e.resolve actor args ("&(" ++ c ++ ")")).Panics w := by
  rw [Engine.panics_resolve_iff, expand_group hc, act_group hc henabled]
  exact e.isSafe_commandToken c w

end Source

/-! ### Running the loop -/

private theorem isWellFormed_group (hc : IsShellLine c) : (Marker.loop ⟨"&(" ++ c ++ ")", "x"⟩).IsWellFormed := by
  have htrim : Text.trim ("&(" ++ c ++ ")") = "&(" ++ c ++ ")" :=
    Text.trim_append (fun d hd => Option.some.inj hd ▸ rfl) (by decide) (by decide)
  have hitem : Marker.IsUnbracketed "x" ∧ Text.trim "x" = "x" ∧ ':' ∉ ("x" : Text) :=
    ⟨⟨by decide, by decide⟩, by decide, by decide⟩
  exact ⟨⟨⟨hc.not_mem_group (by decide), hc.not_mem_group (by decide)⟩, htrim, by simp⟩, hitem⟩

/-- A line for the host with a text that a loop goes over. -/
def sayLine (t : Text) : Text :=
  "say " ++ t

private theorem trim_join_say {t : Text} (ht : IsItem t) : Text.trim (Text.join t ["say ", ""]) = sayLine t := by
  have hjoin : Text.join t ["say ", ""] = sayLine t := by
    simp [Text.join, List.intercalate_cons_cons, sayLine]
  rw [hjoin]
  exact Text.trim_append (fun d hd => Option.some.inj hd ▸ rfl) ht.trim ht.ne_nil

private theorem lower_firstWord_say (t : Text) : (sayLine t).firstWord.lower = "say" := by
  have hword : IsWord "say" := by decide
  have hcut : sayLine t = "say" ++ (' ' :: t) := by simp [sayLine]
  rw [hcut, Text.firstWord_append (by decide) hword.not_isBlank (by simp [isBlank])]
  decide

/-- A loop over the output of a command hands the host one line with all lines of the output, so it hands it a line
for each of them just if there is but one. -/
theorem loop_over_output (e : Engine σ) (henabled : e.config.hostCommandsEnabled = true) (hc : IsShellLine c)
    {w : World σ} {o : ProcessOutput} (hrun : (e.host.run c w.host).1 = .ok o) {lines : List Text} (hne : lines ≠ [])
    (hlines : ∀ line ∈ lines, IsItem line)
    (hout : o.output = Text.join "\n" lines ∨ o.output = Text.join "\n" lines ++ "\n") (draw : Nat) (actor : Actor)
    (args : List Text) :
    let action : Text := "[foreach:&(" ++ c ++ "):x] say %x%"
    let u := after (e.invoke draw actor args [action]) w
    let v := after (e.run c) (w.begun action)
    u = v.dispatched e actor (if ("say" : Text) ∈ e.config.blacklist then [] else [sayLine (Text.join " " lines)]) ∧
      (("say" : Text) ∉ e.config.blacklist → (u = v.dispatched e actor (lines.map sayLine) ↔ lines.length = 1)) := by
  intro action u v
  let spec : LoopSpec := ⟨"&(" ++ c ++ ")", "x"⟩
  let inv : Invocation := ⟨w.invocations, actor, args⟩
  have hbody : IsBody ["say ", ""] := ⟨by decide, 's', "ay ", [""], rfl, by decide⟩
  have haction : action = (Marker.loop spec).written ++ (' ' :: Text.join ('%' :: "x" ++ ['%']) ["say ", ""]) := by
    simp only [action, Marker.written, Marker.remainder, Marker.inside, spec, List.append_assoc]
    rfl
  have hread : Text.lines o.output = lines := by
    have hline : ∀ line ∈ lines, line ≠ [] ∧ '\n' ∉ line ∧ line.getLast? ≠ some '\r' := by
      intro line hline
      have hwords := (hlines line hline).words
      exact ⟨(hlines line hline).ne_nil, hwords.not_mem (by decide),
        fun hlast => hwords.not_mem (c := '\r') (by decide) (List.mem_of_getLast? hlast)⟩
    rcases hout with hout | hout
    · rw [hout, (Text.lines_join hne hline).1]
    · rw [hout, (Text.lines_join hne hline).2]
  obtain ⟨hsource, hafter⟩ : value (e.resolveFor inv spec.source) (w.begun action) = Text.join " " lines ∧
      after (e.resolveFor inv spec.source) (w.begun action) = v :=
    resolve_group hc henabled (w := w.begun action) hrun hlines hread actor args
  have hitem : IsItem (Text.join " " lines) :=
    ⟨isWords_join (by decide) fun line hline => (hlines line hline).words, trim_join_items hlines " ",
      join_items_ne_nil hlines " " hne⟩
  have hitems : ∀ item ∈ [Text.join " " lines], IsItem item := fun item hmem => by rwa [List.mem_singleton.1 hmem]
  have hcut : Engine.splitItems spec.source (Text.join " " lines) = [Text.join " " lines] := by
    simpa [Text.join] using splitItems_join_items hitems spec.source
  have hu : u = v.dispatched e actor
      (if ("say" : Text) ∈ e.config.blacklist then [] else [sayLine (Text.join " " lines)]) := by
    have hfirst : ∀ line ∈ [sayLine (Text.join " " lines)], line.firstWord.lower = "say" :=
      fun line hline => by rw [List.mem_singleton.1 hline, lower_firstWord_say]
    rw [← filter_firstWord e hfirst]
    have hrun := (hbody.after_invoke e (isWellFormed_group hc) haction draw actor args w).trans
      (hbody.after_executeLoop_source e inv hitems hsource (not_panics_group hc henabled _ actor args) hcut)
    rwa [List.map_singleton, trim_join_say hitem, hafter] at hrun
  refine ⟨hu, fun hallowed => ?_⟩
  rw [hu, if_neg hallowed]
  constructor
  · intro heq
    have hlen := congrArg (fun x : World σ => x.history.length) heq
    simp only [World.dispatched, List.length_append, List.length_reverse, List.length_map] at hlen
    simpa using hlen.symm
  · intro hone
    obtain ⟨line, rfl⟩ := List.length_eq_one_iff.1 hone
    simp [Text.join]

/-- An output of one line, which is ended. -/
theorem loop_over_output_one :
    let e : Engine Script := { host := Script.host, config := { hostCommandsEnabled := true } }
    let w : World Script := { host := { processes := [("list -a", .ok ⟨0, "big dog\n"⟩)], files := ⟨[], [], []⟩ } }
    let action : Text := "[foreach:&(list -a):x] say %x%"
    after (e.invoke 0 .console [] [action]) w =
      (after (e.run "list -a") (w.begun action)).dispatched e .console ["say big dog"] := by
  intro e w action
  have hlines : ∀ line ∈ [("big dog" : Text)], IsItem line := by
    intro line hline
    rw [List.mem_singleton.1 hline]
    exact ⟨by decide, by decide, by decide⟩
  have hallowed : ("say" : Text) ∉ e.config.blacklist := by decide
  exact ((loop_over_output e rfl (c := "list -a") (by decide +kernel) (w := w) (o := ⟨0, "big dog\n"⟩) rfl
    (by decide) hlines (.inr rfl) 0 .console []).2 hallowed).2 rfl

/-- Two lines are said as one. -/
theorem loop_over_output_two :
    let e : Engine Script := { host := Script.host, config := { hostCommandsEnabled := true } }
    let w : World Script := { host := { processes := [("list", .ok ⟨0, "a\nb\n"⟩)], files := ⟨[], [], []⟩ } }
    let u := after (e.invoke 0 .console [] ["[foreach:&(list):x] say %x%"]) w
    u.output = [.dispatch .console "say a b" false] ∧
      u.output ≠ [.dispatch .console "say a" false, .dispatch .console "say b" false] := by
  decide +kernel

end DirectiveEngine
