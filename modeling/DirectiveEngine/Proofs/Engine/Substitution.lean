import DirectiveEngine.Proofs.Engine.Panic
import DirectiveEngine.Proofs.Engine.Sentinels
import DirectiveEngine.Proofs.Template.Pass
import DirectiveEngine.Proofs.Template.Piece

/-!
# Resolving is substitution

An ordinary template has texts without special characters between its placeholders, and blanks behind them.  However
many passes a resolution makes, on such a template in a plain scene it is one simultaneous substitution: each
placeholder becomes its value, and nothing else happens (`resolve_ordinary`).
-/

namespace DirectiveEngine

/-! ### Templates -/

structure Template where
  first : Text
  /-- Placeholders, each with the text behind it. -/
  rest : List (Placeholder × Text)

namespace Template

def fill (t : Template) (f : Placeholder → Text) : Text :=
  t.first ++ t.rest.flatMap fun x => f x.1 ++ x.2

def written (t : Template) : Text :=
  t.fill Placeholder.written

/-- Between two placeholders stands a plain text that starts with a space. -/
structure IsOrdinary (t : Template) (s : Scene) : Prop where
  first : IsPlain t.first
  admits : ∀ x ∈ t.rest, s.Admits x.1
  plain : ∀ x ∈ t.rest, IsPlain x.2
  blank : ∀ x ∈ t.rest.dropLast, x.2.head? = some ' '

/-- Without its first placeholder. -/
private theorem IsOrdinary.tail {first : Text} {x : Placeholder × Text} {rest : List (Placeholder × Text)}
    {s : Scene} (h : IsOrdinary ⟨first, x :: rest⟩ s) : IsOrdinary ⟨first, rest⟩ s where
  first := h.first
  admits y hy := h.admits y (List.mem_cons_of_mem _ hy)
  plain y hy := h.plain y (List.mem_cons_of_mem _ hy)
  blank y hy := by
    cases rest with
    | nil => simp at hy
    | cons z rest => exact h.blank y (List.mem_cons_of_mem _ hy)

/-- What stands behind the first placeholder is the end, or starts with a space. -/
private theorem IsOrdinary.behind {first : Text} {x : Placeholder × Text} {rest : List (Placeholder × Text)}
    {s : Scene} (h : IsOrdinary ⟨first, x :: rest⟩ s) : rest = [] ∨ x.2.head? = some ' ' := by
  cases rest with
  | nil => exact .inl rfl
  | cons y rest => exact .inr (h.blank x List.mem_cons_self)

end Template

variable {s : Scene} {t : Template} {i j : Nat} {P : Text → Text}

/-- What is left of a placeholder when those below a rank are replaced. -/
def Scene.stage (s : Scene) (i : Nat) (x : Placeholder) : Text :=
  if x.rank < i then s.value x else x.written

/-- A pass takes a template from one stage to another. -/
theorem Pass.fill (h : Pass s i j P) (hij : i ≤ j) (hs : s.IsPlain) (ht : t.IsOrdinary s) :
    P (t.fill (s.stage i)) = t.fill (s.stage j) := by
  obtain ⟨first, rest⟩ := t
  have hvalue : ∀ {x}, s.Admits x → '%' ∉ s.value x := fun hx => (s.isListing_value hs hx).not_mem (by decide)
  have hrest : P (rest.flatMap fun x => s.stage i x.1 ++ x.2) = rest.flatMap fun x => s.stage j x.1 ++ x.2 := by
    -- by induction from the last placeholder on, as its pass needs to know what follows it
    induction rest with
    | nil => exact h.nil
    | cons x rest ih =>
      have hx := ht.admits x List.mem_cons_self
      have hl : '%' ∉ x.2 := (ht.plain x List.mem_cons_self).not_mem (by decide)
      have hfollows : Follows (x.2 ++ rest.flatMap fun x => s.stage i x.1 ++ x.2) := by
        rcases ht.behind with rfl | hblank
        · exact .inr (by simpa using hl)
        · exact .inl (by rw [List.head?_append, hblank]; rfl)
      have hbehind := h.append (t := rest.flatMap fun x => s.stage i x.1 ++ x.2) hl
      rw [ih ht.tail] at hbehind
      simp only [List.flatMap_cons, List.append_assoc]
      by_cases hlt : x.1.rank < i
      · rw [Scene.stage, if_pos hlt, h.append (hvalue hx), hbehind, Scene.stage, if_pos (by omega)]
      · rw [Scene.stage, if_neg hlt, h.placeholder hx (by omega) hfollows, hbehind]
        rfl
  rw [Template.fill, Template.fill, h.append (ht.first.not_mem (by decide)), hrest]

/-! ### What the other passes look for -/

variable {f : Placeholder → Text} {c : Char}

theorem Template.not_mem_fill (ht : t.IsOrdinary s) (hc : c ∈ quietChars) (hf : ∀ x ∈ t.rest, c ∉ f x.1) :
    c ∉ t.fill f := by
  have hplain {l : Text} (hl : IsPlain l) : c ∉ l := hl.not_mem (by simp [hc])
  intro hmem
  rcases List.mem_append.1 hmem with hmem | hmem
  · exact hplain ht.first hmem
  · obtain ⟨x, hx, hmem⟩ := List.mem_flatMap.1 hmem
    rcases List.mem_append.1 hmem with hmem | hmem
    · exact hf x hx hmem
    · exact hplain (ht.plain x hx) hmem

/-- Two commas side by side do not come about where a text meets a value. -/
theorem Template.splitFirst?_fill (ht : t.IsOrdinary s)
    (hf : ∀ x ∈ t.rest, Text.splitFirst? [',', ','] (f x.1) = none) :
    Text.splitFirst? [',', ','] (t.fill f) = none := by
  obtain ⟨first, rest⟩ := t
  suffices h : Text.splitFirst? [',', ','] (rest.flatMap fun x => f x.1 ++ x.2) = none by
    rw [fill, Text.splitFirst?_append (ht.first.not_mem (by decide)), h]
    rfl
  induction rest with
  | nil => rfl
  | cons x rest ih =>
    have hl : ',' ∉ x.2 := (ht.plain x List.mem_cons_self).not_mem (by decide)
    have hx := hf x List.mem_cons_self
    have hbehind : Text.splitFirst? [',', ','] (x.2 ++ rest.flatMap fun x => f x.1 ++ x.2) = none := by
      rw [Text.splitFirst?_append hl, ih ht.tail fun y hy => hf y (List.mem_cons_of_mem _ hy)]
      rfl
    rw [List.flatMap_cons, List.append_assoc]
    cases hr : x.2 ++ rest.flatMap fun x => f x.1 ++ x.2 with
    | nil => rw [List.append_nil, hx]
    | cons d r =>
      -- a plain text or the blank in front of it comes first
      have hd : d ≠ ',' := by
        rintro rfl
        rcases ht.behind with rfl | hblank
        · rw [List.flatMap_nil, List.append_nil] at hr
          exact hl (hr ▸ List.mem_cons_self)
        · have hhead := congrArg List.head? hr
          rw [List.head?_append, hblank] at hhead
          simp at hhead
      have hr' : Text.splitFirst? [',', ','] r = none := by
        rw [hr, Text.splitFirst?_cons (by simp [hd.symm])] at hbehind
        exact Option.map_eq_none_iff.1 hbehind
      rw [Text.splitFirst?_append_cons (by simp) (by simp [hd]), hx, hr']
      rfl

private theorem not_mem_written {x : Placeholder} (hx : s.Admits x) (hc : c ∈ ',' :: quietChars) :
    c ∉ x.written := by
  have hsign : c ≠ '%' := by
    rintro rfl
    exact absurd hc (by decide)
  intro hmem
  rcases List.mem_append.1 hmem with hmem | hmem
  · obtain ⟨b, hb, hmem⟩ := List.mem_flatMap.1 hmem
    rcases List.mem_cons.1 hmem with heq | hmem
    · exact hsign heq
    · exact (isPlain_spans hx b hb).not_mem (List.mem_cons_of_mem _ hc) hmem
  · exact hsign (List.mem_singleton.1 hmem)

theorem Scene.not_mem_stage {x : Placeholder} (hs : s.IsPlain) (hx : s.Admits x) (hc : c ∈ quietChars) :
    c ∉ s.stage i x := by
  unfold stage
  split
  · exact (s.isListing_value hs hx).not_mem (List.mem_cons_of_mem _ hc)
  · exact not_mem_written hx (List.mem_cons_of_mem _ hc)

theorem Scene.splitFirst?_stage {x : Placeholder} (hs : s.IsPlain) (hx : s.Admits x) :
    Text.splitFirst? [',', ','] (s.stage i x) = none := by
  unfold stage
  split
  · exact (s.isListing_value hs hx).splitFirst?
  · exact Text.splitFirst?_eq_none (by simp) (not_mem_written hx (c := ',') (by simp))

/-! ### The passes around the placeholders -/

theorem replaceMath_of_not_mem {t : Text} (h : '\x7b' ∉ t) : replaceMath t = t :=
  replaceDelimited_of_none (Text.splitFirst?_eq_none (x := '\x7b') (by decide) h)

variable {σ : Type} {e : Engine σ} {w : World σ} {actor : Actor} {args : List Text} {snapshot : Snapshot}

open Run (after value)

/-- The passes that act on the host have nothing to do if no file is read and there is no token of another kind. -/
theorem Engine.act_of_read {t : Text} (hread : renderPieces e.readToken (markedPieces readMark t) = pure t)
    (hwrite : ';' ∉ t) (hgroup : '&' ∉ t) : e.act t = pure t := by
  have hgroups := groupPieces_of_none (Text.splitFirst?_eq_none (x := '&') (by decide) hgroup)
  have hwrites := markedPieces_of_none (c := writeMark) (Text.splitFirst?_eq_none (x := ';') (by decide) hwrite)
  unfold act
  rw [hread, pure_bind, hwrites, renderPieces_plain, pure_bind, hgroups, renderPieces_plain, ite_self]

/-- The passes that act on the host have nothing to do without a token. -/
theorem Engine.act_of_none {t : Text} (hread : Text.splitFirst? [',', ','] t = none) (hwrite : ';' ∉ t)
    (hgroup : '&' ∉ t) : e.act t = pure t := by
  refine act_of_read ?_ hwrite hgroup
  rw [markedPieces_of_none (c := readMark) hread, renderPieces_plain]

/-- Only the passes that act on the host can panic. -/
theorem Engine.run_attempt_resolve (e : Engine σ) (actor : Actor) (args : List Text) (t : Text) (w : World σ) :
    (e.resolve actor args t).attempt.run w = match (e.act (e.expand w actor args t)).attempt.run w with
      | (some u, v) => (some (settle v.store actor u), v)
      | (none, v) => (none, v) := by
  have hresolve : e.resolve actor args t = (do
      let u ← e.act (e.expand (← get) actor args t)
      return settle (← get).store actor u) := by
    unfold resolve act
    cases e.config.hostCommandsEnabled <;> simp only [bind_assoc] <;> rfl
  have hget : ¬ (get : Run σ (World σ)).Panics w := Run.IsSafe.modifyGet _ w
  rw [hresolve, Run.run_attempt_bind_of_not_panics hget, Run.run_attempt_bind, Run.value_get, Run.after_get]
  rcases (e.act (e.expand w actor args t)).attempt.run w with ⟨_ | u, v⟩ <;> rfl

theorem Engine.panics_resolve_iff {t : Text} :
    (e.resolve actor args t).Panics w ↔ (e.act (e.expand w actor args t)).Panics w := by
  rw [Run.Panics, Run.Panics, value, value, run_attempt_resolve]
  split <;> simp [*]

theorem Engine.after_attempt_resolve {t : Text} :
    after (e.resolve actor args t).attempt w = after (e.act (e.expand w actor args t)).attempt w := by
  rw [after, after, run_attempt_resolve]
  split <;> simp [*]

namespace Engine

/-- What an actor with a snapshot sees. -/
def scene (e : Engine σ) (w : World σ) (actor : Actor) (snapshot : Snapshot) (args : List Text) : Scene where
  actor
  snapshot
  args
  store := w.store
  server := e.host.server w.host

/-- All placeholders but the names of variables are replaced before the host acts. -/
private theorem expand_ordinary (hsnap : e.host.snapshot? w.host actor = some snapshot)
    (hs : (e.scene w actor snapshot args).IsPlain) (ht : t.IsOrdinary (e.scene w actor snapshot args)) :
    e.expand w actor args t.written = t.fill ((e.scene w actor snapshot args).stage 17) := by
  have hstage : t.fill ((e.scene w actor snapshot args).stage 0) = t.written := by
    simp [Template.written, Template.fill, Scene.stage]
  have hquiet : '\\' ∉ t.written := by
    rw [← hstage]
    exact Template.not_mem_fill ht (by decide) fun x hx => Scene.not_mem_stage hs (ht.admits x hx) (by decide)
  have hactor := (Pass.arguments hs).comp hs (Pass.actorTokens hs) (by omega)
  have hpass := (hactor.comp hs Pass.references (by omega)).comp hs (Pass.server hs) (by omega)
  have hfill := hpass.fill (by omega) hs ht
  rw [hstage] at hfill
  rw [← hfill, expand, hsnap, protect_of_not_mem hquiet]
  rfl

/-- The names of variables are all that is left. -/
private theorem settle_ordinary {s : Scene} (hs : s.IsPlain) (ht : t.IsOrdinary s) :
    settle s.store s.actor (t.fill (s.stage 17)) = t.fill s.value := by
  have hstage : t.fill (s.stage 18) = t.fill s.value := by
    have hrank (x : Placeholder) : x.rank < 18 := by
      have := x.rank_le
      omega
    simp [Template.fill, Scene.stage, hrank]
  have hquiet : ∀ c ∈ quietChars, c ∉ t.fill s.value := by
    intro c hc
    rw [← hstage]
    exact Template.not_mem_fill ht hc fun x hx => Scene.not_mem_stage hs (ht.admits x hx) hc
  rw [settle, Pass.names.fill (by omega) hs ht, hstage, replaceMath_of_not_mem (hquiet _ (by decide)),
    restore_of_not_mem (hquiet _ (by decide))]

end Engine

/-- In a plain scene an ordinary template becomes its texts and the values of its placeholders, each by its own
meaning, and the world stays as it is. -/
theorem resolve_ordinary (hsnap : e.host.snapshot? w.host actor = some snapshot)
    (hs : (e.scene w actor snapshot args).IsPlain) (ht : t.IsOrdinary (e.scene w actor snapshot args)) :
    value (e.resolve actor args t.written) w = t.fill (e.scene w actor snapshot args).value ∧
      after (e.resolve actor args t.written) w = w := by
  have hquiet : ∀ c ∈ quietChars, c ∉ t.fill ((e.scene w actor snapshot args).stage 17) :=
    fun c hc => Template.not_mem_fill ht hc fun x hx => Scene.not_mem_stage hs (ht.admits x hx) hc
  have hpair := Template.splitFirst?_fill ht fun x hx => Scene.splitFirst?_stage (i := 17) hs (ht.admits x hx)
  have hact := Engine.act_of_none (e := e) hpair (hquiet _ (by decide)) (hquiet _ (by decide))
  rw [Engine.value_resolve, Engine.after_resolve, Engine.expand_ordinary hsnap hs ht, hact]
  exact ⟨Engine.settle_ordinary hs ht, rfl⟩

/-- A host with two players, one of whom is in a team. -/
def Host.pair : Host Unit where
  hasPermission _ _ _ := true
  snapshot? _ actor := actor.id?.map fun id => { name := "Ann", id }
  server _ := {
    online := [{ name := "Ann", id := "a1" }, { name := "Bob", id := "b2" }]
    teams := [⟨"red", ["Ann", "Cy"]⟩]
    find? := fun name => if name = "Ann" then some (.player "a1") else none }
  dispatch _ _ _ s := s
  send _ _ s := s
  run _ s := (.ok ⟨0, []⟩, s)
  read _ _ s := (.ok [], s)
  write _ _ _ s := (.ok (), s)
  call _ s := (⟨.ok ⟨204, []⟩, 0⟩, s)

/-- Lists of members, one by the name of a variable, next to an argument and a variable. -/
theorem resolve_ordinary_pair :
    let e : Engine Unit := { host := Host.pair, config := {} }
    let w : World Unit := { host := (), store := { shared := [("rank", "gold"), ("side", "red")] } }
    value (e.resolve (.player "a1") ["x", "y"] "tell %arg2% %players% %teamplayers_uuid:%side%% of %rank%!") w =
      "tell y Ann,Bob a1,Cy of gold!" := by
  intro e w
  let s := e.scene w (.player "a1") { name := "Ann", id := "a1" } ["x", "y"]
  let t : Template :=
    ⟨"tell ", [(.argument 2, " "), (.word .players, " "), (.membersOf true "side", " of "), (.named "rank", "!")]⟩
  have hname : IsName "side" ∧ IsName "rank" := by
    constructor <;> constructor <;> decide +kernel
  have hs : s.IsPlain := by
    refine ⟨by decide, by decide, fun actor key => ?_, by decide, by decide, fun {name actor id} hfind hid => ?_⟩
    · have hplain : ∀ v ∈ (["gold", "red", ""] : List Text), IsPlain v := by decide
      refine hplain _ ?_
      cases actor with
      | console =>
        change (Dictionary.get? (α := Text) (Text.lower key) [("rank", "gold"), ("side", "red")]).getD [] ∈ _
        rw [Dictionary.get?_cons, Dictionary.get?_cons]
        split
        · simp
        · split <;> simp [Dictionary.get?]
      | player id => exact List.mem_of_getElem? (i := 2) rfl
    · change (if name = ("Ann" : Text) then some (Actor.player "a1") else none) = some actor at hfind
      split at hfind
      · rw [← Option.some.inj hfind] at hid
        rw [← Option.some.inj hid]
        decide
      · simp at hfind
  have ht : t.IsOrdinary s := by
    refine ⟨by decide, ?_, by decide, by decide⟩
    simp only [t, List.forall_mem_cons]
    exact ⟨⟨by decide, by decide, by decide⟩, trivial, hname.1, ⟨hname.2, by decide +kernel⟩, by simp⟩
  have hwritten : t.written = "tell %arg2% %players% %teamplayers_uuid:%side%% of %rank%!" := by decide +kernel
  have hfill : t.fill s.value = "tell y Ann,Bob a1,Cy of gold!" := by decide +kernel
  have h := (resolve_ordinary (t := t) rfl hs ht).1
  rwa [hwritten, hfill] at h

end DirectiveEngine
