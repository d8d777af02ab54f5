import DirectiveEngine.Proofs.Engine.Loop
import DirectiveEngine.Proofs.Text.Pairs

/-!
# Loops over the members of a team

The names of a team are joined by commas before the pass that reads files goes over them, and for that pass two commas
side by side open a token.  So empty entries can make the name behind them one of a file (`loop_over_members`).
-/

namespace DirectiveEngine

variable {σ : Type} {e : Engine σ} {t : Text}

open Run (after value)

/-! ### Files that are read -/

def Event.path? : Event → Option Text
  | .read path _ => some path
  | _ => none

/-- The files that were read, the last of them first. -/
def World.reads (w : World σ) : List Text :=
  (w.history.map Prod.snd).filterMap Event.path?

/-- No file that was read is forgotten. -/
theorem reads_dispatching (e : Engine σ) : Dispatching e fun u w => u.reads.length ≤ w.reads.length where
  refl _ := Nat.le_refl _
  trans := Nat.le_trans
  read _ _ w := Nat.le_succ w.reads.length
  write _ _ := Nat.le_refl _
  run _ _ _ := Nat.le_refl _
  send _ _ _ := Nat.le_refl _
  dispatchLine _ _ _ _ _ := Nat.le_refl _

theorem reads_after_readToken {inner : Text} (h : inner ≠ []) (w : World σ) :
    (after (e.readToken inner) w).reads = (splitReadToken inner).1 :: w.reads := by
  rw [Engine.readToken, if_neg (by simpa using h), Run.after_bind]
  cases value (e.read (splitReadToken inner).1 (splitReadToken inner).2) w <;> rfl

/-! ### Reading a list -/

section Pairs

variable {a b : Text} (h : Text.splitFirst? [',', ','] t = some (a, b))
include h

/-- What is in front of the first token does not matter. -/
private theorem behindPairs_iff : BehindPairs ',' (· != ',') t ↔ BehindPairs ',' (· != ',') (',' :: ',' :: b) := by
  have hfirst : ¬ [',', ','] <:+: a ++ [','] := Text.not_infix_of_splitFirst? (by simp) h
  rw [Text.eq_of_splitFirst? h, List.append_assoc]
  exact BehindPairs.append_iff hfirst

/-- A token without a name is two commas and no more. -/
private theorem behindPairs_iff_of_head (hb : ∀ c ∈ b.head?, c = ',') :
    BehindPairs ',' (· != ',') t ↔ BehindPairs ',' (· != ',') b :=
  (behindPairs_iff h).trans (BehindPairs.pair_iff fun c hc => by simp [hb c hc])

end Pairs

private theorem splitToken_of_head {b : Text} (hb : ∀ c ∈ b.head?, endsToken c = true) : splitToken b = ([], b) := by
  cases b with
  | nil => rfl
  | cons c b => simp [splitToken, hb c rfl]

private theorem readToken_nil : e.readToken [] = pure [',', ','] := rfl

/-- A list in which no entry stands behind an even run of commas stays, and no file is read. -/
theorem renderPieces_reads (h : ¬ BehindPairs ',' (· != ',') t) :
    renderPieces e.readToken (markedPieces Engine.readMark t) = pure t := by
  fun_induction markedPieces Engine.readMark t with
  | case1 t hnone => exact renderPieces_plain _ t
  | case2 t a b hsplit ih =>
    -- right behind two commas no name can start, so the token has no name and they stay
    have hb : ∀ c ∈ b.head?, c = ',' := by
      intro c hc
      by_contra hne
      obtain ⟨r, rfl⟩ := List.head?_eq_some_iff.1 hc
      exact h ((behindPairs_iff hsplit).2 (.of_pair (by simpa using hne) r))
    have hcut : splitToken b = ([], b) := splitToken_of_head fun c hc => by rw [hb c hc]; rfl
    rw [hcut] at ih ⊢
    have ih := ih fun hpairs => h ((behindPairs_iff_of_head hsplit hb).2 hpairs)
    simp only [renderPieces, ih, readToken_nil, pure_bind]
    rw [Text.eq_of_splitFirst? hsplit, List.append_assoc]
    rfl

/-- The entry behind an even run of commas is taken for the name of a file. -/
theorem reads_lt (h : BehindPairs ',' (· != ',') t) (hchars : ∀ c ∈ t, c = ',' ∨ endsToken c = false) (w : World σ) :
    w.reads.length < (after (renderPieces e.readToken (markedPieces Engine.readMark t)) w).reads.length := by
  fun_induction markedPieces Engine.readMark t generalizing w with
  | case1 t hnone =>
    obtain ⟨a, n, c, b, rfl, -, -⟩ := h
    have hpair : [',', ','] <:+: a ++ (List.replicate (2 * n + 2) ',' ++ c :: b) :=
      ⟨a, List.replicate (2 * n) ',' ++ c :: b, by simp [List.replicate_succ]⟩
    have hnone : Text.contains [',', ','] (a ++ (List.replicate (2 * n + 2) ',' ++ c :: b)) = false :=
      congrArg Option.isSome hnone
    exact absurd hpair ((Text.contains_eq_false_iff (by simp)).1 hnone)
  | case2 t a b hsplit ih =>
    have hchars : ∀ c ∈ b, c = ',' ∨ endsToken c = false :=
      fun c hc => hchars c (Text.mem_of_splitFirst? hsplit (.inr hc))
    by_cases hb : ∀ c ∈ b.head?, c = ','
    · have hcut : splitToken b = ([], b) := splitToken_of_head fun c hc => by rw [hb c hc]; rfl
      rw [hcut] at ih ⊢
      exact ih ((behindPairs_iff_of_head hsplit hb).1 h) hchars w
    · -- the token has a name, and what is read behind it only adds to the files
      have hinner : (splitToken b).1 ≠ [] := by
        cases b with
        | nil => simp at hb
        | cons c b =>
          have hc : endsToken c = false := (hchars c List.mem_cons_self).resolve_left (by simpa using hb)
          simp [splitToken, hc]
      have hread : w.reads.length < (after (e.readToken (splitToken b).1) w).reads.length := by
        rw [reads_after_readToken hinner]
        exact Nat.lt_succ_self _
      exact hread.trans_le (((reads_dispatching e).renderPieces (reads_dispatching e).readToken _).after _)

/-! ### The placeholder of a team -/

section Span

variable {T : Text}

private theorem written_members : (Placeholder.members false T).written = '%' :: (memberList false ++ T ++ ['%']) := by
  simp [Placeholder.written, Placeholder.spans]

private theorem written_append (t : Text) :
    (Placeholder.members false T).written ++ t = '%' :: (memberList false ++ (T ++ '%' :: t)) := by
  simp [written_members]

variable (hT : '%' ∉ T)
include hT

private theorem sign_not_mem : '%' ∉ memberList false ++ T := by
  simpa [memberList] using hT

/-- The span has a colon, and starts like no argument and no reference to a variable. -/
private theorem isUntouched_members : IsUntouched (Placeholder.members false T).written where
  toIsWordless := by
    rw [written_members]
    exact isWordless_span (sign_not_mem hT) (by simp [memberList]) (by simp [memberList])
  reference store actor := by
    rw [written_members]
    exact replaceDelimited_alone (o := "var:") (sign_not_mem hT) (by decide) fun inner hinner => by
      simpa [memberList] using congrArg List.head? hinner

/-- The pass of the members replaces the whole span. -/
private theorem replaceMembers_members (server : ServerFacts) (inner : Text → Text) :
    replaceMembers server "%teamplayers:" id inner (Placeholder.members false T).written = teamMembers server id T := by
  have hnested : replaceNested "%teamplayers:" (fun name => teamMembers server id (inner name))
      (Placeholder.members false T).written = (Placeholder.members false T).written := by
    rw [written_members]
    exact replaceNested_alone (o := "teamplayers:") (sign_not_mem hT) (by decide)
  have hspan := replaceDelimited_span_self (o := memberList false)
    (f := fun name => some (teamMembers server id name)) hT rfl []
  rw [replaceDelimited_of_none (Text.splitFirst?_nil (by simp)), List.append_nil] at hspan
  simp only [replaceMembers, hnested]
  rw [written_members]
  exact hspan

/-- Before the host acts, the placeholder of a team has become the list of its members. -/
theorem Engine.expand_members (e : Engine σ) (hback : '\\' ∉ T) {w : World σ}
    (hlist : '%' ∉ teamMembers (e.host.server w.host) id T) (actor : Actor) (args : List Text) :
    e.expand w actor args (Placeholder.members false T).written = teamMembers (e.host.server w.host) id T := by
  have hquiet : '\\' ∉ (Placeholder.members false T).written := by
    simpa [written_members, memberList] using hback
  obtain ⟨inner, hexpand⟩ := e.expand_untouched (isUntouched_members hT) hquiet w actor args
  rw [hexpand, replaceMembers_members hT, replaceMembers_of_not_mem hlist _ (by decide)]

end Span

/-! ### Loops -/

theorem reads_dispatched (e : Engine σ) (actor : Actor) (lines : List Text) (w : World σ) :
    (w.dispatched e actor lines).reads = w.reads := by
  have hnone : (lines.map fun line => Event.dispatch actor line false).reverse.filterMap Event.path? = [] := by
    refine List.filterMap_eq_nil_iff.2 fun ev hev => ?_
    obtain ⟨line, -, rfl⟩ := List.mem_map.1 (List.mem_reverse.1 hev)
    rfl
  simp only [World.reads, World.dispatched, List.map_append, List.map_reverse, List.map_map, List.filterMap_append,
    Function.comp_def]
  rw [← List.map_reverse, List.map_reverse, hnone, List.nil_append]

private theorem endsToken_of_isWordChar {c : Char} (h : isWordChar c = true) : endsToken c = false := by
  have hends : (['"', '\'', ',', ']', '\x7d', ')'].all fun d => !isWordChar d) = true := by decide
  simp only [endsToken, not_isBlank_of_isWordChar h, Bool.false_or, decide_eq_false_iff_not]
  intro hmem
  have hno := List.all_eq_true.1 hends c hmem
  simp [h] at hno

section Team

variable {team : Team} (hmembers : ∀ entry ∈ team.members, IsWord entry)
include hmembers

private theorem not_mem_members {c : Char} (hcomma : c ≠ ',') (hc : isPunctuation c = true) :
    c ∉ Text.join "," team.members :=
  not_mem_join_words (fun entry hentry => (hmembers entry hentry).words) (by simpa using hcomma) hc

/-- The entries that are not empty are the items of the loop. -/
private theorem splitItems_members (source : Text) :
    Engine.splitItems source (Text.join "," team.members) = team.members.filter fun entry => !entry.isEmpty := by
  have hcut : ∀ entry ∈ team.members, ',' ∉ entry ∧ '\n' ∉ entry := fun entry hentry =>
    ⟨(hmembers entry hentry).words.not_mem (by decide), (hmembers entry hentry).words.not_mem (by decide)⟩
  exact splitItems_join source hcut fun entry hentry => (hmembers entry hentry).trim

private theorem isItem_members : ∀ entry ∈ team.members.filter fun entry => !entry.isEmpty, IsItem entry := by
  intro entry hentry
  obtain ⟨hmem, hne⟩ := List.mem_filter.1 hentry
  exact ⟨(hmembers entry hmem).words, (hmembers entry hmem).trim, by simpa using hne⟩

private theorem act_team (h : ¬ BehindPairs ',' (· != ',') (Text.join "," team.members)) :
    e.act (Text.join "," team.members) = pure (Text.join "," team.members) :=
  Engine.act_of_read (renderPieces_reads h) (not_mem_members hmembers (by decide) (by decide))
    (not_mem_members hmembers (by decide) (by decide))

variable {w : World σ} (hname : ∀ c ∈ ['%', '\\'], c ∉ team.name)
  (hteam : ((e.host.server w.host).teams.find? fun other => other.name == team.name) = some team)
include hname hteam

private theorem expand_team (actor : Actor) (args : List Text) :
    e.expand w actor args (Placeholder.members false team.name).written = Text.join "," team.members := by
  have hlist : teamMembers (e.host.server w.host) id team.name = Text.join "," team.members := by
    simp only [teamMembers, hteam, List.map_id]
  have hsign : '%' ∉ Text.join "," team.members := not_mem_members hmembers (by decide) (by decide)
  rw [e.expand_members (hname _ (by decide)) (hname _ (by decide)) (hlist ▸ hsign), hlist]

/-- The list is its own value if no name is taken for that of a file. -/
private theorem resolve_team (h : ¬ BehindPairs ',' (· != ',') (Text.join "," team.members)) (actor : Actor)
    (args : List Text) :
    value (e.resolve actor args (Placeholder.members false team.name).written) w = Text.join "," team.members ∧
      after (e.resolve actor args (Placeholder.members false team.name).written) w = w := by
  have hquiet : ∀ c ∈ Text.join "," team.members, c ∉ '%' :: quietChars := by
    intro c hc hmem
    have hall : (('%' :: quietChars).all fun c => c != ',' && isPunctuation c) = true := by decide
    obtain ⟨hcomma, hword⟩ := Bool.and_eq_true_iff.1 (List.all_eq_true.1 hall c hmem)
    exact not_mem_members hmembers (by simpa using hcomma) hword hc
  rw [Engine.value_resolve, Engine.after_resolve, expand_team hmembers hname hteam,
    act_team hmembers h]
  exact ⟨Engine.settle_plain hquiet _ actor, rfl⟩

private theorem not_panics_team (h : ¬ BehindPairs ',' (· != ',') (Text.join "," team.members)) (actor : Actor)
    (args : List Text) : ¬ (e.resolve actor args (Placeholder.members false team.name).written).Panics w := by
  rw [Engine.panics_resolve_iff, expand_team hmembers hname hteam, act_team hmembers h]
  exact Run.IsSafe.pure _ w

/-- A file is read if a name is taken for that of one. -/
private theorem reads_lt_executeLoop (h : BehindPairs ',' (· != ',') (Text.join "," team.members)) (inv : Invocation)
    (body item : Text) :
    w.reads.length <
      (after (e.executeLoop inv body ⟨(Placeholder.members false team.name).written, item⟩).attempt w).reads.length := by
  let spec : LoopSpec := ⟨(Placeholder.members false team.name).written, item⟩
  have hchars : ∀ c ∈ Text.join "," team.members, c = ',' ∨ endsToken c = false := by
    intro c hc
    rcases Text.mem_of_mem_join hc with hc | ⟨entry, hentry, hc⟩
    · exact .inl (List.mem_singleton.1 hc)
    · exact .inr (endsToken_of_isWordChar (hmembers entry hentry c hc))
  have hframe := reads_dispatching e
  -- the files are read first, and what follows reads no fewer
  have hsource : w.reads.length < (after (e.resolveFor inv spec.source).attempt w).reads.length := by
    have hreads := Run.IsSafe.renderPieces e.isSafe_readToken
      (markedPieces Engine.readMark (Text.join "," team.members)) w
    rw [Engine.resolveFor, Engine.after_attempt_resolve, expand_team hmembers hname hteam]
    refine (reads_lt (e := e) h hchars w).trans_le ?_
    rw [← (Run.attempt_of_not_panics hreads).2]
    refine hframe.behind (fun t => hframe.bind (hframe.renderPieces hframe.writeToken _) fun t => ?_) w
    split
    · exact hframe.renderPieces (hframe.commandToken ‹_›) _
    · exact hframe.pure t
  exact hsource.trans_le (hframe.behind (fun list => hframe.forIn (fun item =>
    hframe.bind (hframe.resolveFor inv (Engine.itemBody spec body item)) fun line =>
      hframe.dispatch inv inv.actor line false) _) w)

end Team

private theorem trim_join_tell (name : Text) :
    Text.trim (Text.join name ["tell ", " go"]) = "tell " ++ name ++ " go" := by
  have hjoin : Text.join name ["tell ", " go"] = "tell " ++ name ++ " " ++ "go" := by simp [Text.join]
  have hstart : ∀ c ∈ ("tell " ++ name ++ " ").head?, isBlank c = false := fun c hc => Option.some.inj hc ▸ rfl
  rw [hjoin, Text.trim_append hstart (by decide) (by decide)]
  simp

private theorem lower_firstWord_tell (name : Text) :
    (Text.firstWord ("tell " ++ name ++ " go")).lower = "tell" := by
  have hcut : "tell " ++ name ++ " go" = "tell" ++ (' ' :: (name ++ " go")) := by simp
  have hword : IsWord "tell" := by decide
  rw [hcut, Text.firstWord_append (by decide) hword.not_isBlank (by simp [isBlank])]
  decide

/-- The lines share their first word. -/
private theorem filter_tell (e : Engine σ) (names : List Text) :
    ((names.map fun name => Text.trim (Text.join name ["tell ", " go"])).filter fun line =>
        line.firstWord.lower ∉ e.config.blacklist) =
      if ("tell" : Text) ∈ e.config.blacklist then []
      else names.map fun (name : Text) => "tell " ++ name ++ " go" := by
  rw [List.map_congr_left fun name _ => trim_join_tell name]
  refine filter_firstWord e fun line hline => ?_
  obtain ⟨name, -, rfl⟩ := List.mem_map.1 hline
  exact lower_firstWord_tell name

private theorem isWellFormed_members {T : Text} (hT : ∀ c ∈ ['[', ']'], c ∉ T) :
    (Marker.loop ⟨(Placeholder.members false T).written, "p"⟩).IsWellFormed := by
  have hbracket {c : Char} (hc : c ∈ ['[', ']']) (hmem : c ∉ '%' :: memberList false) :
      c ∉ (Placeholder.members false T).written := by
    rw [written_members]
    simp only [List.mem_cons, not_or] at hmem
    simp [hmem, hT c hc]
  have htrim : Text.trim (Placeholder.members false T).written = (Placeholder.members false T).written := by
    rw [written_members, ← List.cons_append]
    exact Text.trim_append (fun c hc => Option.some.inj hc ▸ rfl) (by decide) (by decide)
  have hne : (Placeholder.members false T).written ≠ [] := by
    rw [written_members]
    simp
  have hitem : Marker.IsUnbracketed "p" ∧ Text.trim "p" = "p" ∧ ':' ∉ ("p" : Text) :=
    ⟨⟨by decide, by decide⟩, by decide, by decide⟩
  exact ⟨⟨⟨hbracket (by decide) (by decide), hbracket (by decide) (by decide)⟩, htrim, hne⟩, hitem⟩

private theorem action_eq (T : Text) :
    "[foreach:%teamplayers:" ++ T ++ "%:p] tell %p% go" =
      (Marker.loop ⟨(Placeholder.members false T).written, "p"⟩).written ++
        (' ' :: Text.join ('%' :: "p" ++ ['%']) ["tell ", " go"]) := by
  simp only [Marker.written, Marker.remainder, Marker.inside, List.append_assoc]
  rw [written_append]
  rfl

/-- A loop over the members of a team reads a file just if some name stands behind an even run of commas in the list
of the members.  Otherwise it hands the host one line for each member with a name, in the order of the members, and
does nothing else. -/
theorem loop_over_members (e : Engine σ) {team : Team} {w : World σ}
    (hmembers : ∀ entry ∈ team.members, IsWord entry)
    (hname : ∀ c ∈ ['%', '\\', '[', ']'], c ∉ team.name)
    (hteam : ((e.host.server w.host).teams.find? fun other => other.name == team.name) = some team)
    (draw : Nat) (actor : Actor) (args : List Text) :
    let action : Text := "[foreach:%teamplayers:" ++ team.name ++ "%:p] tell %p% go"
    let u := after (e.invoke draw actor args [action]) w
    let lines := (team.members.filter fun entry => !entry.isEmpty).map fun (name : Text) => "tell " ++ name ++ " go"
    (u.reads = w.reads ↔ ¬ BehindPairs ',' (· != ',') (Text.join "," team.members)) ∧
      (u.reads = w.reads →
        u = (w.begun action).dispatched e actor (if ("tell" : Text) ∈ e.config.blacklist then [] else lines)) := by
  intro action u lines
  let spec : LoopSpec := ⟨(Placeholder.members false team.name).written, "p"⟩
  let inv : Invocation := ⟨w.invocations, actor, args⟩
  let v := w.begun action
  have hbody : IsBody ["tell ", " go"] := ⟨by decide, 't', "ell ", [" go"], rfl, by decide⟩
  have hspec : (Marker.loop spec).IsWellFormed :=
    isWellFormed_members fun c hc => hname c (List.mem_append_right ['%', '\\'] hc)
  have hrun := hbody.after_invoke e hspec (action_eq team.name) draw actor args w
  have hsigns : ∀ c ∈ ['%', '\\'], c ∉ team.name := fun c hc => hname c (List.mem_append_left ['[', ']'] hc)
  by_cases hpairs : BehindPairs ',' (· != ',') (Text.join "," team.members)
  · have hlt : w.reads.length < u.reads.length := by
      rw [show u = _ from hrun]
      exact reads_lt_executeLoop (w := v) hmembers hsigns hteam hpairs inv _ "p"
    have hne : u.reads ≠ w.reads := fun h => absurd (congrArg List.length h) hlt.ne'
    exact ⟨iff_of_false hne (not_not.2 hpairs), fun h => absurd h hne⟩
  · obtain ⟨hsource, hstill⟩ : value (e.resolveFor inv spec.source) v = Text.join "," team.members ∧
        after (e.resolveFor inv spec.source) v = v :=
      resolve_team (w := v) hmembers hsigns hteam hpairs actor args
    have hcut := splitItems_members hmembers spec.source
    have hloop := hbody.after_executeLoop e inv (isItem_members hmembers) hsource
      (not_panics_team (w := v) hmembers hsigns hteam hpairs actor args) hstill hcut
    have hdone : u = v.dispatched e actor (if ("tell" : Text) ∈ e.config.blacklist then [] else lines) := by
      rw [← filter_tell]
      exact hrun.trans hloop
    have hreads : u.reads = w.reads := by
      rw [hdone]
      exact reads_dispatched e actor _ v
    exact ⟨iff_of_true hreads hpairs, fun _ => hdone⟩

/-- A team with two entries left empty side by side, and one at its end. -/
theorem loop_over_members_aside :
    let e : Engine Script := { host := Script.host, config := {} }
    let w : World Script := { host := { teams := [⟨"red", ["Alice", "", "", "Bob", ""]⟩], files := ⟨[], [], []⟩ } }
    let action : Text := "[foreach:%teamplayers:red%:p] tell %p% go"
    let u := after (e.invoke 0 .console [] [action]) w
    u.reads = [] ∧ u = (w.begun action).dispatched e .console ["tell Alice go", "tell Bob go"] := by
  intro e w action u
  let team : Team := ⟨"red", ["Alice", "", "", "Bob", ""]⟩
  have hname : (['%', '\\', '[', ']'].all fun c => c ∉ team.name) = true := by decide
  have hmembers : ∀ entry ∈ team.members, IsWord entry := by decide
  have hlines := (loop_over_members e hmembers (w := w)
    (fun c hc => of_decide_eq_true (List.all_eq_true.1 hname c hc)) rfl 0 .console []).2
  have hnone : u.reads = [] := by decide +kernel
  exact ⟨hnone, hlines hnone⟩

/-- With an entry left empty between two others, the second of them is taken for the name of a file. -/
theorem loop_over_members_between :
    let e : Engine Script := { host := Script.host, config := {} }
    let w : World Script := { host := { teams := [⟨"red", ["Alice", "", "Bob"]⟩], files := ⟨[], [], []⟩ } }
    let u := after (e.invoke 0 .console [] ["[foreach:%teamplayers:red%:p] tell %p% go"]) w
    u.output = [.dispatch .console "tell Alice go" false] ∧ u.reads = ["Bob"] := by
  decide +kernel

end DirectiveEngine
