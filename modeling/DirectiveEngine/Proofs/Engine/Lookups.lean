import DirectiveEngine.Proofs.Engine.Sentinels
import DirectiveEngine.Proofs.Template.Spans

/-!
# Looking values up

The passes behind the one for arguments look up what the host and the variables say.  They know no name that starts
like an argument, and they go over other spans one by one where no value holds a percent sign (`spanwise_lookups`).
-/

namespace DirectiveEngine

variable {σ : Type} {p : Text → Prop} {o : Text}

namespace Engine

/-- The passes of the expansion behind the one for arguments. -/
def lookups (e : Engine σ) (w : World σ) (actor : Actor) (t : Text) : Text :=
  let t := match e.host.snapshot? w.host actor with
    | some s => replaceActorTokens s t
    | none => t
  let t := replaceVariableTokens w.store actor t
  let inner (name : Text) : Text :=
    if (w.store.resolve actor name).isEmpty then name else w.store.resolve actor name
  replaceServerTokens (e.host.server w.host) inner t

/-- No value that an actor can look up holds a percent sign. -/
structure SignFree (e : Engine σ) (w : World σ) (actor : Actor) : Prop where
  snapshot : ∀ s ∈ e.host.snapshot? w.host actor, '%' ∉ s.name ∧ '%' ∉ s.id ∧ '%' ∉ s.world ∧ '%' ∉ s.gamemode
  store : ∀ actor key, '%' ∉ w.store.get actor key
  online : ∀ s ∈ (e.host.server w.host).online, '%' ∉ s.name ∧ '%' ∉ s.id
  teams : ∀ team ∈ (e.host.server w.host).teams,
    '%' ∉ team.name ∧ ∀ m ∈ team.members, '%' ∉ m ∧ '%' ∉ memberId (e.host.server w.host) m

private theorem isForeign_sign : IsForeign '%' := by
  decide

namespace SignFree

variable {e : Engine σ} {w : World σ} {actor : Actor} (h : e.SignFree w actor)
include h

theorem actorTokens {s : Snapshot} (hs : e.host.snapshot? w.host actor = some s) :
    ∀ token ∈ DirectiveEngine.actorTokens s, '%' ∉ token.2 := by
  obtain ⟨hname, hid, hworld, hmode⟩ := h.snapshot s hs
  intro token htoken
  simp only [DirectiveEngine.actorTokens, List.mem_cons, List.not_mem_nil, or_false] at htoken
  rcases htoken with rfl | rfl | rfl | rfl | rfl | rfl | rfl | rfl | rfl | rfl
  all_goals first | assumption | exact isForeign_sign.not_mem_intText _ | exact isForeign_sign.not_mem_withFraction _

end SignFree

/-! ### Spans -/

private theorem not_prefix_append {inner : Text} (ho : IsOpening o ∧ o.head? ≠ some 'a') : ¬ "arg" <+: o ++ inner := by
  rintro ⟨r, hr⟩
  obtain ⟨c, hc, -⟩ := ho.1.letter
  have hhead := congrArg List.head? hr
  rw [List.head?_append, List.head?_append, Option.mem_def.1 hc] at hhead
  exact ho.2 (hc.trans hhead.symm)

section

variable {e : Engine σ} {w : World σ} {actor : Actor} (hfree : ∀ b, p b → "arg" <+: b ∨ e.SignFree w actor)
include hfree

private theorem spanwise_word (ho : IsOpening o ∧ ¬ "arg" <+: o) (new : Text) (hnew : e.SignFree w actor → '%' ∉ new) :
    Spanwise p (fun b _ => ¬ "arg" <+: b) (Text.replaceAll ('%' :: (o ++ ['%'])) new) :=
  .replaceAll ho.1 fun hp => ⟨hnew ((hfree o hp).resolve_left ho.2), ho.2⟩

private theorem spanwise_span {f : Text → Option Text} (ho : IsOpening o ∧ o.head? ≠ some 'a')
    (hf : e.SignFree w actor → ∀ inner v, f inner = some v → '%' ∉ v) :
    Spanwise p (fun b _ => ¬ "arg" <+: b) (replaceDelimited ('%' :: o) ['%'] f) :=
  .replaceDelimited ho.1 fun inner v hp _ hv =>
    have hne : ¬ "arg" <+: o ++ inner := not_prefix_append ho
    ⟨hf ((hfree _ hp).resolve_left hne) inner v hv, hne⟩

private theorem spanwise_actorTokens {s : Snapshot} (hs : e.host.snapshot? w.host actor = some s) :
    Spanwise p (fun b _ => ¬ "arg" <+: b) (replaceActorTokens s) := by
  have hnames : (actorTokens s).map Prod.fst =
      (["player", "uuid", "player_uuid", "world", "x", "y", "z", "health", "level", "gamemode"] : List Text).map
        fun o => '%' :: (o ++ ['%']) := rfl
  show Spanwise p _ fun t => (actorTokens s).foldl (fun t token => Text.replaceAll token.1 token.2 t) t
  refine .foldl fun token htoken => ?_
  obtain ⟨o, ho, hname⟩ := List.mem_map.1 (hnames ▸ List.mem_map_of_mem htoken)
  have hopening : ∀ o ∈ (["player", "uuid", "player_uuid", "world", "x", "y", "z", "health", "level", "gamemode"] :
      List Text), IsOpening o ∧ ¬ "arg" <+: o := by decide
  rw [← hname]
  exact spanwise_word hfree (hopening o ho) _ fun h => h.actorTokens hs token htoken

private theorem spanwise_members (ho : IsOpening o ∧ o.head? ≠ some 'a') (hp : ¬ p o) (render inner : Text → Text)
    (hrender : e.SignFree w actor →
      ∀ team ∈ (e.host.server w.host).teams, ∀ m ∈ team.members, '%' ∉ render m) :
    Spanwise p (fun b _ => ¬ "arg" <+: b) (replaceMembers (e.host.server w.host) ('%' :: o) render inner) :=
  .comp (.replaceNested ho.1 hp) <| spanwise_span hfree ho fun h _ _ hv =>
    Option.some.inj hv ▸ not_mem_teamMembers (by decide) (hrender h) _

/-- Names that start like an argument stay, and the others are looked up apart from what stands around them. -/
theorem spanwise_lookups (hp : ¬ p "teamplayers:" ∧ ¬ p "teamplayers_uuid:") :
    Spanwise p (fun b _ => ¬ "arg" <+: b) (e.lookups w actor) := by
  have hactor : Spanwise p (fun b _ => ¬ "arg" <+: b) fun t =>
      match e.host.snapshot? w.host actor with
      | some s => replaceActorTokens s t
      | none => t := by
    cases hs : e.host.snapshot? w.host actor with
    | none => exact .id
    | some s => exact spanwise_actorTokens hfree hs
  have hvariables : Spanwise p (fun b _ => ¬ "arg" <+: b) (replaceVariableTokens w.store actor) :=
    spanwise_span hfree (o := "var:") (by decide) fun h reference _ hv =>
      Option.some.inj hv ▸ Store.not_mem_lookup h.store reference
  have hjoin {α : Type} {as : List α} {f : α → Text} (h : ∀ a ∈ as, '%' ∉ f a) : '%' ∉ Text.join "," (as.map f) := by
    refine Text.not_mem_join (by decide) fun v hv => ?_
    obtain ⟨a, ha, rfl⟩ := List.mem_map.1 hv
    exact h a ha
  have hplayers := spanwise_word hfree (o := "players") (by decide)
    (Text.join "," ((e.host.server w.host).online.map Snapshot.name))
    fun h => hjoin fun s hs => (h.online s hs).1
  have hids := spanwise_word hfree (o := "players_uuid") (by decide)
    (Text.join "," ((e.host.server w.host).online.map Snapshot.id))
    fun h => hjoin fun s hs => (h.online s hs).2
  have hcount := spanwise_word hfree (o := "playercount") (by decide)
    (natText (e.host.server w.host).online.length) fun _ => isForeign_sign.not_mem_natText _
  have hteams := spanwise_word hfree (o := "teams") (by decide)
    (Text.join "," ((e.host.server w.host).teams.map Team.name))
    fun h => hjoin fun team hteam => (h.teams team hteam).1
  let inner (name : Text) : Text :=
    if (w.store.resolve actor name).isEmpty then name else w.store.resolve actor name
  have hmembers := spanwise_members hfree (o := "teamplayers:") (by decide) hp.1 id inner
    fun h team hteam m hm => ((h.teams team hteam).2 m hm).1
  have hmemberIds := spanwise_members hfree (o := "teamplayers_uuid:") (by decide) hp.2
    (memberId (e.host.server w.host)) inner fun h team hteam m hm => ((h.teams team hteam).2 m hm).2
  exact ((((((hactor.comp hvariables).comp hplayers).comp hids).comp hcount).comp hteams).comp hmembers).comp
    hmemberIds

end

end Engine
end DirectiveEngine
