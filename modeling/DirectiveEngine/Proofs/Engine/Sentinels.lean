import DirectiveEngine.Engine.Resolve
import DirectiveEngine.Host.Scripted
import DirectiveEngine.Proofs.Engine.Frame
import DirectiveEngine.Proofs.Store
import DirectiveEngine.Proofs.Template.Percent
import DirectiveEngine.Proofs.Template.Restore

/-!
# Where sentinels go

A sentinel stands for an escape while a template is resolved, and it is not restored before the tokens with effects
are.  So the host is handed the sentinels of just those escapes that are written in such a token, and nothing else
with a NUL in it; the result holds a NUL only where the evaluator reports one or the escapes are misread
(`resolve_leaks`).
-/

namespace DirectiveEngine

variable {σ : Type}

open Run (after value)

/-! ### Placeholders -/

namespace Spelled

variable {p : Escape → Prop} {t : Text}

theorem protect (h : '\x00' ∉ t) :
    Spelled (fun e => e.sentinel <:+: DirectiveEngine.protect t) (DirectiveEngine.protect t) := by
  suffices h' : ∀ es : List Escape, (∀ e ∈ es, e ∈ escapes ∧ isBounded e.written = true) → ∀ t,
      Spelled (fun _ => True) t →
        Spelled (fun _ => True) (es.foldl (fun t e => Text.replaceAll e.written e.sentinel t) t) from
    (h' escapes (fun e he => ⟨he, isBounded_written e he⟩) t (of_not_mem h)).self
  intro es
  induction es with
  | nil => exact fun _ t ht => ht
  | cons e es ih =>
    intro hes t ht
    obtain ⟨he, hw⟩ := hes e List.mem_cons_self
    exact ih (fun a ha => hes a (List.mem_cons_of_mem _ ha)) _ (ht.replaceAll hw (sentinel he trivial))

theorem replaceTail {args : List Text} (hargs : ∀ a ∈ args, '\x00' ∉ a) (h : Spelled p t) (n : Nat) :
    Spelled p (DirectiveEngine.replaceTail args t n) := by
  have htail {default : Text} (hdefault : Spelled p default) : Spelled p ((argumentsFrom? args n).getD default) := by
    rw [getD_argumentsFrom?]
    split
    · exact of_not_mem (Text.not_mem_join (by decide) fun a ha => hargs a (List.mem_of_mem_drop ha))
    · exact hdefault
  have hbounded : ∀ close : Text, close.getLast?.any isMark = true →
      isBounded (("%arg" ++ natText n) ++ close) = true := by
    intro close hclose
    obtain ⟨c, hc, hmark⟩ := (Option.any_eq_true _ _).1 hclose
    rw [isBounded, List.getLast?_append, hc, Bool.and_eq_true]
    exact ⟨rfl, hmark⟩
  unfold DirectiveEngine.replaceTail
  refine replaceAll (replaceDelimited h (hbounded _ rfl) rfl ?_) (hbounded _ rfl) (htail nil)
  exact fun hinner hv => Option.some.inj hv ▸ htail hinner

private theorem argumentValue? {args : List Text} (hargs : ∀ a ∈ args, '\x00' ∉ a) {inner v : Text}
    (h : Spelled p inner) (hv : DirectiveEngine.argumentValue? args inner = some v) : Spelled p v := by
  rcases argumentValue?_cases hv with hmem | ⟨sep, hsep, index, hsplit⟩
  · exact of_not_mem (hargs v hmem)
  · have hbounded : isBounded sep = true := by
      rcases List.mem_cons.1 hsep with rfl | hsep
      · rfl
      · rw [List.mem_singleton.1 hsep]
        rfl
    exact (h.splitFirst? hbounded hsplit).2

theorem replaceArguments {args : List Text} (hargs : ∀ a ∈ args, '\x00' ∉ a) (h : Spelled p t) :
    Spelled p (DirectiveEngine.replaceArguments args t) := by
  have hfold : ∀ ns : List Nat, ∀ t, Spelled p t → Spelled p (ns.foldl (DirectiveEngine.replaceTail args) t) := by
    intro ns
    induction ns with
    | nil => exact fun t ht => ht
    | cons n ns ih => exact fun t ht => ih _ (ht.replaceTail hargs n)
  have hjoin : Spelled p (Text.join " " args) := of_not_mem (Text.not_mem_join (by decide) hargs)
  exact replaceDelimited (hfold _ _ (h.replaceAll rfl hjoin)) rfl rfl (argumentValue? hargs)

private theorem splitUpTo (h : Spelled p t) (n : Nat) : ∀ part ∈ Text.splitUpTo "::" n t, Spelled p part := by
  induction n generalizing t with
  | zero => simpa [Text.splitUpTo] using h
  | succ n ih =>
    unfold Text.splitUpTo
    split
    · simpa using h
    · rename_i a b hs
      obtain ⟨ha, hb⟩ := h.splitFirst? rfl hs
      simpa using ⟨ha, ih hb⟩

end Spelled

theorem not_mem_teamMembers {server : ServerFacts} {render : Text → Text} {c : Char} (hc : c ≠ ',')
    (h : ∀ team ∈ server.teams, ∀ m ∈ team.members, c ∉ render m) (name : Text) :
    c ∉ teamMembers server render name := by
  unfold teamMembers
  split
  · simp
  · rename_i team hteam
    refine Text.not_mem_join (by simpa using hc) fun v hv => ?_
    obtain ⟨m, hm, rfl⟩ := List.mem_map.1 hv
    exact h team (List.mem_of_find?_eq_some hteam) m hm

/-! ### Hosts without NUL -/

/-- In certain states, to which it keeps while it serves files and processes, a host knows and answers nothing
with a NUL. -/
structure Host.NulFree (h : Host σ) (ok : σ → Prop) : Prop where
  snapshot : ∀ {s actor p}, ok s → h.snapshot? s actor = some p →
    '\x00' ∉ p.name ∧ '\x00' ∉ p.id ∧ '\x00' ∉ p.world ∧ '\x00' ∉ p.gamemode
  online : ∀ {s}, ok s → ∀ p ∈ (h.server s).online, '\x00' ∉ p.name ∧ '\x00' ∉ p.id
  teams : ∀ {s}, ok s → ∀ team ∈ (h.server s).teams, '\x00' ∉ team.name ∧ ∀ m ∈ team.members, '\x00' ∉ m
  found : ∀ {s name actor id}, ok s → (h.server s).find? name = some actor → actor.id? = some id → '\x00' ∉ id
  read : ∀ {s path key}, ok s → ok (h.read path key s).2 ∧ ∀ t, (h.read path key s).1 = .ok t → '\x00' ∉ t
  write : ∀ {s path key v}, ok s → ok (h.write path key v s).2
  run : ∀ {s command}, ok s → ok (h.run command s).2 ∧ ∀ o, (h.run command s).1 = .ok o → '\x00' ∉ o.output

namespace Host.NulFree

variable {h : Host σ} {ok : σ → Prop} (hh : h.NulFree ok) {s : σ} (hs : ok s) {p : Escape → Prop} {t : Text}
include hh hs

theorem replaceActorTokens {actor : Actor} {snapshot : Snapshot} (hsnap : h.snapshot? s actor = some snapshot)
    (ht : Spelled p t) : Spelled p (DirectiveEngine.replaceActorTokens snapshot t) := by
  obtain ⟨hname, hid, hworld, hmode⟩ := hh.snapshot hs hsnap
  have htokens : ∀ token ∈ actorTokens snapshot, isBounded token.1 = true ∧ '\x00' ∉ token.2 := by
    intro token htoken
    simp only [actorTokens, List.mem_cons, List.not_mem_nil, or_false] at htoken
    rcases htoken with rfl | rfl | rfl | rfl | rfl | rfl | rfl | rfl | rfl | rfl <;> refine ⟨rfl, ?_⟩
    all_goals first | assumption | exact isForeign_nul.not_mem_intText _ | exact isForeign_nul.not_mem_withFraction _
  unfold DirectiveEngine.replaceActorTokens
  generalize actorTokens snapshot = tokens at htokens
  induction tokens generalizing t with
  | nil => exact ht
  | cons token tokens ih =>
    obtain ⟨hbounded, hvalue⟩ := htokens token List.mem_cons_self
    exact ih (ht.replaceAll hbounded (.of_not_mem hvalue)) fun x hx => htokens x (List.mem_cons_of_mem _ hx)

private theorem not_mem_memberId {entry : Text} (he : '\x00' ∉ entry) : '\x00' ∉ memberId (h.server s) entry := by
  unfold memberId
  cases hf : (h.server s).find? entry with
  | none => exact he
  | some actor =>
    cases hid : actor.id? with
    | none => simpa [hid] using he
    | some id => simpa [hid] using hh.found hs hf hid

private theorem replaceMembers {opening : Text} {render inner : Text → Text} (ho : isBounded opening = true)
    (hnul : '\x00' ∉ opening) (hrender : ∀ m, '\x00' ∉ m → '\x00' ∉ render m) (ht : Spelled p t) :
    Spelled p (DirectiveEngine.replaceMembers (h.server s) opening render inner t) := by
  have hmembers : ∀ name, '\x00' ∉ teamMembers (h.server s) render name :=
    not_mem_teamMembers (by decide) fun team hteam m hm => hrender m ((hh.teams hs team hteam).2 m hm)
  refine Spelled.replaceDelimited ?_ ho rfl fun _ hv => Option.some.inj hv ▸ .of_not_mem (hmembers _)
  exact ht.replaceNested ho hnul fun _ => .of_not_mem (hmembers _)

theorem replaceServerTokens {inner : Text → Text} (ht : Spelled p t) :
    Spelled p (DirectiveEngine.replaceServerTokens (h.server s) inner t) := by
  have hjoin : ∀ {α : Type} {as : List α} {f : α → Text}, (∀ a ∈ as, '\x00' ∉ f a) →
      Spelled p (Text.join "," (as.map f)) := by
    intro α as f hf
    refine .of_not_mem (Text.not_mem_join (by decide) fun v hv => ?_)
    obtain ⟨a, ha, rfl⟩ := List.mem_map.1 hv
    exact hf a ha
  have hplayers := ht.replaceAll (rfl : isBounded "%players%" = true) (hjoin fun a ha => (hh.online hs a ha).1)
  have hids :=
    hplayers.replaceAll (rfl : isBounded "%players_uuid%" = true) (hjoin fun a ha => (hh.online hs a ha).2)
  have hcount := hids.replaceAll (rfl : isBounded "%playercount%" = true)
    (.of_not_mem (isForeign_nul.not_mem_natText (h.server s).online.length))
  have hteams := hcount.replaceAll (rfl : isBounded "%teams%" = true) (hjoin fun a ha => (hh.teams hs a ha).1)
  exact hh.replaceMembers hs rfl (by decide) (fun m hm => hh.not_mem_memberId hs hm)
    (hh.replaceMembers hs rfl (by decide) (fun m hm => hm) hteams)

end Host.NulFree

/-- Nothing of the passes before the tokens with effects takes a sentinel apart, or brings one in. -/
theorem Engine.spelled_expand {e : Engine σ} {ok : σ → Prop} (hh : e.host.NulFree ok) {w : World σ}
    (hw : ok w.host) (hstore : ∀ actor key, '\x00' ∉ w.store.get actor key) (actor : Actor) {args : List Text}
    (hargs : ∀ a ∈ args, '\x00' ∉ a) {t : Text} (ht : '\x00' ∉ t) :
    Spelled (fun x => x.sentinel <:+: protect t) (e.expand w actor args t) := by
  unfold Engine.expand
  refine hh.replaceServerTokens hw ?_
  refine Spelled.replaceDelimited ?_ rfl rfl fun _ hv => ?_
  · have hargs' := (Spelled.protect ht).replaceArguments hargs
    cases hs : e.host.snapshot? w.host actor with
    | none => exact hargs'
    | some snapshot => exact hh.replaceActorTokens hw hs hargs'
  · exact Option.some.inj hv ▸ .of_not_mem (Store.not_mem_lookup hstore _)

/-! ### Tokens with effects -/

/-- What an event hands to the files and processes of a host. -/
def Event.handed : Event → List Text
  | read path key => path :: key.toList
  | write path key value => path :: value :: key.toList
  | process command => [command]
  | _ => []

/-- A run that leaves the variables alone and hands the host nothing but spelled texts. -/
structure Run.Spells (p : Escape → Prop) (ok : σ → Prop) (m : Run σ Text) (w : World σ) : Prop where
  host : ok (after m w).host
  store : (after m w).store = w.store
  value : Spelled p (value m w)
  history : ∃ events, (after m w).history = events ++ w.history ∧ ∀ x ∈ events, ∀ t ∈ x.2.handed, Spelled p t

namespace Run.Spells

variable {p : Escape → Prop} {ok : σ → Prop} {w : World σ}

theorem pure {t : Text} (ht : Spelled p t) (hw : ok w.host) : Spells p ok (Pure.pure t) w :=
  ⟨hw, rfl, ht, [], rfl, by simp⟩

theorem bind {m : Run σ Text} {f : Text → Run σ Text} (hm : Spells p ok m w)
    (hf : Spells p ok (f (Run.value m w)) (after m w)) : Spells p ok (m >>= f) w := by
  obtain ⟨events, heq, hevents⟩ := hm.history
  obtain ⟨events', heq', hevents'⟩ := hf.history
  refine ⟨hf.host, hf.store.trans hm.store, hf.value, events' ++ events, ?_, ?_⟩
  · rw [Run.after_bind, heq', heq, List.append_assoc]
  · intro x hx
    exact (List.mem_append.1 hx).elim (hevents' x) (hevents x)

/-- One event, and one answer of the host from which the text is made. -/
theorem effect {α : Type} {m : Run σ α} {event : Event} {act : σ → α × σ} (hm : m.Requests event act)
    {f : α → Run σ Text} {g : α → Text} (hf : ∀ a, f a = Pure.pure (g a)) (hevent : ∀ t ∈ event.handed, Spelled p t)
    (hok : ok (act w.host).2) (hg : Spelled p (g (act w.host).1)) : Spells p ok (m >>= f) w := by
  obtain rfl : f = fun a => Pure.pure (g a) := funext hf
  have hrun : (m >>= fun a => Pure.pure (g a)).run w = (g (act w.host).1, after (Run.ask event act) w) :=
    hm.run_bind fun _ _ => rfl
  constructor
  · rw [after, hrun]
    exact hok
  · rw [after, hrun]
    rfl
  · rwa [Run.value, hrun]
  · rw [after, hrun]
    exact ⟨[(w.now, event)], rfl, by simpa using hevent⟩

theorem renderPieces {f : Text → Run σ Text} {ps : List Piece} (hps : ∀ x ∈ ps, Spelled p x.inner)
    (hf : ∀ {inner w}, Spelled p inner → ok w.host → Spells p ok (f inner) w) (hw : ok w.host) :
    Spells p ok (DirectiveEngine.renderPieces f ps) w := by
  induction ps generalizing w with
  | nil => exact pure .nil hw
  | cons x ps ih =>
    have hx := hps x List.mem_cons_self
    have ih := fun {w : World σ} hw => ih (w := w) (fun y hy => hps y (List.mem_cons_of_mem _ hy)) hw
    cases x with
    | plain t => exact (ih hw).bind (pure (hx.append (ih hw).value) (ih hw).host)
    | token inner =>
      have htoken := hf hx hw
      have hrest := ih htoken.host
      exact htoken.bind (hrest.bind (pure (htoken.value.append hrest.value) hrest.host))

end Run.Spells

namespace Engine

/-- The passes that act on the host. -/
def act (e : Engine σ) (t : Text) : Run σ Text := do
  let t ← renderPieces e.readToken (markedPieces readMark t)
  let t ← renderPieces e.writeToken (markedPieces writeMark t)
  if e.config.hostCommandsEnabled then renderPieces e.commandToken (groupPieces t) else pure t

theorem after_resolve (e : Engine σ) (actor : Actor) (args : List Text) (t : Text) (w : World σ) :
    after (e.resolve actor args t) w = after (e.act (e.expand w actor args t)) w := by
  unfold resolve act
  cases e.config.hostCommandsEnabled <;> rfl

theorem value_resolve (e : Engine σ) (actor : Actor) (args : List Text) (t : Text) (w : World σ) :
    value (e.resolve actor args t) w =
      settle (after (e.resolve actor args t) w).store actor (value (e.act (e.expand w actor args t)) w) := by
  unfold resolve act
  cases e.config.hostCommandsEnabled <;> rfl

variable {e : Engine σ} {ok : σ → Prop} (hh : e.host.NulFree ok) {p : Escape → Prop} {w : World σ} (hw : ok w.host)
include hh hw

private theorem spells_readToken {inner : Text} (hi : Spelled p inner) : Run.Spells p ok (e.readToken inner) w := by
  unfold readToken
  split
  · exact .pure (.of_not_mem (by decide)) hw
  · have hparts : Spelled p (splitReadToken inner).1 ∧ ∀ k ∈ (splitReadToken inner).2, Spelled p k := by
      unfold splitReadToken
      split
      · rename_i path key hs
        exact ⟨(hi.splitFirst? rfl hs).1, by simpa using (hi.splitFirst? rfl hs).2⟩
      · exact ⟨hi, by simp⟩
    let answer := e.host.read (splitReadToken inner).1 (splitReadToken inner).2 w.host
    obtain ⟨hok, hanswer⟩ : ok answer.2 ∧ ∀ t, answer.1 = .ok t → '\x00' ∉ t := hh.read hw
    have hvalue : ∀ r : Except HostError Text, (∀ t, r = .ok t → '\x00' ∉ t) → Spelled p (r.toOption.getD []) := by
      intro r hr
      cases r with
      | error _ => exact .nil
      | ok t => exact .of_not_mem (hr t rfl)
    refine .effect (e.requests_read _ _) (g := fun r => r.toOption.getD []) (fun r => by cases r <;> rfl) ?_ hok (hvalue _ hanswer)
    intro t ht
    rcases List.mem_cons.1 ht with rfl | ht
    · exact hparts.1
    · exact hparts.2 t (Option.mem_toList.1 ht)

private theorem spells_writeToken {inner : Text} (hi : Spelled p inner) :
    Run.Spells p ok (e.writeToken inner) w := by
  unfold writeToken
  cases hfile : FileWrite.ofToken? inner with
  | none => exact .pure .nil hw
  | some file =>
    refine .effect (e.requests_write file) (g := fun _ => []) (fun _ => rfl) ?_ (hh.write hw) .nil
    have hparts := hi.splitUpTo 2
    unfold FileWrite.ofToken? at hfile
    intro t ht
    split at hfile
    · rename_i path value hs
      obtain rfl := Option.some.inj hfile
      refine hparts t ?_
      rw [hs]
      simpa [Event.handed] using ht
    · rename_i path key value hs
      obtain rfl := Option.some.inj hfile
      refine hparts t ?_
      rw [hs]
      simp only [Event.handed, Option.toList_some, List.mem_cons, List.not_mem_nil, or_false] at ht ⊢
      rcases ht with rfl | rfl | rfl <;> simp
    · simp at hfile

private theorem spells_commandToken {command : Text} (hc : Spelled p command) :
    Run.Spells p ok (e.commandToken command) w := by
  let answer := e.host.run command w.host
  obtain ⟨hok, hanswer⟩ : ok answer.2 ∧ ∀ o, answer.1 = .ok o → '\x00' ∉ o.output := hh.run hw
  unfold commandToken
  refine .effect (e.requests_run command)
    (g := fun r => (r.toOption.map fun o => Text.trim (Text.join " " o.output.lines)).getD [])
    (fun r => by cases r <;> rfl) (by simpa [Event.handed] using hc) hok ?_
  cases hr : (e.host.run command w.host).1 with
  | error _ => exact .nil
  | ok o =>
    refine .of_not_mem fun hnul => ?_
    refine Text.not_mem_join (by decide) (fun line hl => ?_) (Text.mem_of_mem_trim hnul)
    exact fun hnul => hanswer o hr (Text.mem_of_mem_lines hl hnul)

private theorem spells_act {t : Text} (ht : Spelled p t) : Run.Spells p ok (e.act t) w := by
  have hread : Run.Spells p ok (renderPieces e.readToken (markedPieces readMark t)) w :=
    .renderPieces (ht.markedPieces rfl) (fun hi hw => spells_readToken hh hw hi) hw
  have hwrite := Run.Spells.renderPieces (f := e.writeToken)
    (hread.value.markedPieces (rfl : isMark writeMark = true))
    (fun hi hw => spells_writeToken hh hw hi) hread.host
  refine hread.bind (hwrite.bind ?_)
  split
  · exact .renderPieces hwrite.value.groupPieces (fun hi hw => spells_commandToken hh hw hi) hwrite.host
  · exact .pure hwrite.value hwrite.host

end Engine

/-! ### Templates -/

private theorem nul_not_mem_implicitValue {s : Store} (hstore : ∀ actor key, '\x00' ∉ s.get actor key)
    (actor : Actor) (name : Text) : '\x00' ∉ implicitValue s actor name := by
  unfold implicitValue
  split
  · exact Store.not_mem_resolve hstore
  · simp

/-- An escape is written in a template. -/
def Escape.IsIn (t : Text) (a : Escape) : Prop :=
  a.sentinel <:+: protect t

/-- Where sentinels go, for templates, arguments, variables and hosts without NUL.  What is handed to files, processes
and the evaluator of expressions is free of NUL but for whole sentinels of escapes of the template.  A NUL gets into
the result where the evaluator reports one or the escapes are misread, and not otherwise.  So without an escape in the
template there is none anywhere. -/
theorem resolve_leaks {e : Engine σ} {ok : σ → Prop} (hh : e.host.NulFree ok) {w : World σ} (hw : ok w.host)
    (hstore : ∀ actor key, '\x00' ∉ w.store.get actor key) (actor : Actor) {args : List Text}
    (hargs : ∀ a ∈ args, '\x00' ∉ a) {t : Text} (ht : '\x00' ∉ t) :
    ∃ events s, (after (e.resolve actor args t) w).history = events ++ w.history ∧
      value (e.resolve actor args t) w = restore (replaceMath s) ∧
      (∀ x, x ∈ events.flatMap (fun x => x.2.handed) ∨ .token x ∈ mathPieces s →
        Spelled (Escape.IsIn t) x ∧ ('\x00' ∈ x ↔ ∃ a ∈ escapes, a.IsIn t ∧ a.sentinel <:+: x)) ∧
      ('\x00' ∈ value (e.resolve actor args t) w ↔
        (∃ x, .token x ∈ mathPieces s ∧ Arithmetic.evaluate Arithmetic.binary64 x = nulReport) ∨
          ∃ g, (∀ y ∈ g, y.Valid (Escape.IsIn t)) ∧ spell g = replaceMath s ∧ Misread g) ∧
      ('\x00' ∉ value (e.resolve actor args t) w →
        ∃ g, (∀ y ∈ g, y.Valid (Escape.IsIn t)) ∧ spell g = replaceMath s ∧
          value (e.resolve actor args t) w = meaning g) ∧
      ((∀ a ∈ escapes, ¬ a.written <:+: t) →
        (∀ x ∈ events.flatMap (fun x => x.2.handed), '\x00' ∉ x) ∧ '\x00' ∉ value (e.resolve actor args t) w) := by
  have hrun := Engine.spells_act hh hw (e.spelled_expand hh hw hstore actor hargs ht)
  rw [Engine.value_resolve, Engine.after_resolve]
  obtain ⟨events, heq, hevents⟩ := hrun.history
  have hspelled := hrun.value.replaceImplicitVariables (hrun.store ▸ nul_not_mem_implicitValue hstore actor)
  have hhanded : ∀ x ∈ events.flatMap (fun x => x.2.handed), Spelled (Escape.IsIn t) x := by
    intro x hx
    obtain ⟨event, hevent, hx⟩ := List.mem_flatMap.1 hx
    exact hevents event hevent x hx
  refine ⟨events, _, heq, rfl, fun x hx => ?_, nul_mem_restore_replaceMath hspelled, restore_replaceMath hspelled,
    fun hnone => ?_⟩
  · have hx' := hx.elim (hhanded x) (hspelled.mathPieces _)
    exact ⟨hx', hx'.nul_mem_iff⟩
  · -- without escapes the template has no sentinel to spell with
    have hin : ∀ a ∈ escapes, ¬ a.IsIn t := by
      intro a ha hin
      rw [Escape.IsIn, protect_eq_self hnone] at hin
      exact ht (hin.subset (by rw [sentinel_eq a ha]; simp))
    exact ⟨fun x hx => (hhanded x hx).nul_not_mem hin, nul_not_mem_restore_replaceMath hspelled hin⟩

/-- A host without players and files, on which every command prints a word. -/
def Host.wordy : Host Unit where
  hasPermission _ _ _ := true
  snapshot? _ _ := none
  server _ := { online := [], teams := [], find? := fun _ => none }
  dispatch _ _ _ s := s
  send _ _ s := s
  run _ s := (.ok ⟨0, "word\n"⟩, s)
  read _ _ s := (.ok [], s)
  write _ _ _ s := (.ok (), s)
  call _ s := (⟨.ok ⟨204, []⟩, 0⟩, s)

/-- A command with an escaped bar, and one without an escape. -/
theorem resolve_leaks_wordy :
    let e : Engine Unit := { host := Host.wordy, config := { hostCommandsEnabled := true } }
    let t : Text := "say &(echo a\\|b) &(date)"
    ∃ events, (after (e.resolve .console [] t) { host := () }).history = events ∧
      ∀ x ∈ events.flatMap (fun x => x.2.handed), '\x00' ∈ x ↔ ∃ a ∈ escapes, a.IsIn t ∧ a.sentinel <:+: x := by
  have hh : Host.wordy.NulFree fun _ => True := by
    constructor <;> simp [Host.wordy]
  have hstore : ∀ actor key, '\x00' ∉ ({} : Store).get actor key := by
    intro actor key
    cases actor <;> simp [Store.get, Store.scope, Dictionary.get?]
  have hargs : ∀ a ∈ ([] : List Text), '\x00' ∉ a := by simp
  obtain ⟨events, s, heq, -, hhanded, -⟩ :=
    resolve_leaks (e := { host := Host.wordy, config := { hostCommandsEnabled := true } }) hh (w := { host := () })
      trivial hstore .console hargs (t := "say &(echo a\\|b) &(date)") (by decide)
  exact ⟨events, by simpa using heq, fun x hx => (hhanded x (.inl hx)).2⟩

/-- The shell is handed a sentinel for an escaped bar, and a name between two escaped bars is misread. -/
theorem resolve_leaks_pipe :
    let e : Engine Unit := { host := Host.wordy, config := { hostCommandsEnabled := true } }
    let w : World Unit := { host := () }
    (after (e.resolve .console [] "say &(echo a\\|b)") w).history = [(0, .process "echo a\x00ESCAPED_PIPE\x00b")] ∧
      value (e.resolve .console [] "say \\|ESCAPED_COLON\\|") w = "say \x00ESCAPED_PIPE:ESCAPED_PIPE\x00" := by
  decide +kernel

end DirectiveEngine
