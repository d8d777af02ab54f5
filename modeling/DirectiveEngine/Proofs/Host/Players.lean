import DirectiveEngine.Host.Console
import DirectiveEngine.Proofs.Dictionary
import DirectiveEngine.Proofs.Number
import DirectiveEngine.Proofs.Sequence

/-!
# Players of the console host

A console knows each player by an identifier and by a name, and no two of them by names that are equal up to the case of
ASCII letters (`Orderly`).  Every operation keeps that, so it does not matter in which order the players are looked
through (`Orderly.of_perm`), and what is seen of a player is told from the operations before (`players_unique`).
-/

namespace DirectiveEngine.Console

/-! ### Operations -/

/-- What can be done to a console. -/
inductive Operation where
  | addPlayer (name : Text)
  | setOp (actor : Actor) (isOp : Bool)
  | grant (actor : Actor) (node : Text)
  | addTeam (name : Text) (members : List Text)
  | dispatch (actor : Actor) (line : Text) (silent : Bool)
  | send (actor : Actor) (text : StyledText)

def Operation.perform (c : Console) : Operation → Console
  | addPlayer name => (c.addPlayer name).2
  | setOp actor isOp => c.setOp actor isOp
  | grant actor node => c.grant actor node
  | addTeam name members => c.addTeam name members
  | dispatch actor line silent => c.dispatch actor line silent
  | send actor text => c.send actor text

/-- The console after a sequence of operations on an empty one. -/
def ofHistory (ids : Nat → ActorId) (ops : List Operation) : Console :=
  ops.foldl Operation.perform { ids }

/-- A player was added under a name, in any letter case, and the actor was returned. -/
def Returned (ids : Nat → ActorId) (ops : List Operation) (name : Text) (actor : Actor) : Prop :=
  ∃ before name', before ++ [.addPlayer name'] <+: ops ∧ Text.sameAscii name' name = true ∧
    ((ofHistory ids before).addPlayer name').1 = actor

/-- Operators are among the players. -/
def IsOperator (c : Console) (id : ActorId) : Prop :=
  ∃ p ∈ c.players, p.id = id ∧ p.isOp = true

/-- A player was made an operator once registered, and has been one since. -/
def MadeOperator (ids : Nat → ActorId) (ops : List Operation) (id : ActorId) : Prop :=
  Since (fun before op => op = .setOp (.player id) true ∧ ∃ p ∈ (ofHistory ids before).players, p.id = id)
    (fun op => op ≠ .setOp (.player id) false) ops

variable {c : Console} {ids : Nat → ActorId} {ops : List Operation} {op : Operation} {name : Text} {actor : Actor}
  {id : ActorId}

theorem ofHistory_concat (ids : Nat → ActorId) (ops : List Operation) (op : Operation) :
    ofHistory ids (ops ++ [op]) = op.perform (ofHistory ids ops) := by
  simp [ofHistory]

/-! ### Adding players -/

theorem find?_eq_none_iff : c.find? name = none ↔ ∀ p ∈ c.players, Text.sameAscii p.name name = false := by
  simp [find?]

theorem addPlayer_of_some (h : c.find? name = some actor) : c.addPlayer name = (actor, c) := by
  rw [addPlayer, h]

theorem addPlayer_of_none (h : c.find? name = none) : c.addPlayer name =
    (.player (c.ids c.players.length), { c with players := c.players ++ [{ name, id := c.ids c.players.length }] }) := by
  rw [addPlayer, h]

theorem find?_congr {name' : Text} (h : Text.sameAscii name' name = true) : c.find? name' = c.find? name := by
  unfold find? Text.sameAscii
  rw [eq_of_beq h]

/-- Who was added is found under the name in any letter case. -/
theorem find?_addPlayer (c : Console) (name' name : Text) : (c.addPlayer name').2.find? name =
    if Text.sameAscii name' name then some (c.addPlayer name').1 else c.find? name := by
  cases h : c.find? name' with
  | some actor =>
    rw [addPlayer_of_some h]
    split
    · rename_i hsame
      rw [← h, find?_congr hsame]
    · rfl
  | none =>
    rw [addPlayer_of_none h, find?, List.find?_append]
    split
    · rename_i hsame
      have hnone : (c.players.find? fun p => p.name.sameAscii name) = none := by
        rw [find?_congr hsame] at h
        exact Option.map_eq_none_iff.1 h
      simp [hnone, hsame]
    · rename_i hsame
      simp [hsame, find?]

theorem map_players_setOp {β : Type} {f : Snapshot → β} (hf : ∀ p isOp, f { p with isOp } = f p) (c : Console)
    (actor : Actor) (isOp : Bool) : (c.setOp actor isOp).players.map f = c.players.map f := by
  rw [setOp, List.map_map]
  refine List.map_congr_left fun p _ => ?_
  rw [Function.comp_apply]
  split
  · exact hf p isOp
  · rfl

theorem find?_setOp (c : Console) (actor : Actor) (isOp : Bool) (name : Text) :
    (c.setOp actor isOp).find? name = c.find? name := by
  have hentries (c : Console) : c.find? name =
      ((c.players.map fun p => (p.name, p.id)).find? fun e => Text.sameAscii e.1 name).map fun e => .player e.2 := by
    simp [find?, List.find?_map, Function.comp_def]
  rw [hentries, hentries, map_players_setOp fun _ _ => rfl]

theorem returned_concat : Returned ids (ops ++ [op]) name actor ↔
    (∃ name', op = .addPlayer name' ∧ Text.sameAscii name' name = true ∧
      ((ofHistory ids ops).addPlayer name').1 = actor) ∨ Returned ids ops name actor := by
  unfold Returned
  simp only [List.prefix_concat_iff, or_and_right, exists_or]
  refine or_congr_left ⟨?_, ?_⟩
  · rintro ⟨before, name', heq, hsame, hactor⟩
    obtain ⟨rfl, hop⟩ := List.append_inj' heq rfl
    exact ⟨name', (List.cons.inj hop).1.symm, hsame, hactor⟩
  · rintro ⟨name', rfl, hsame, hactor⟩
    exact ⟨ops, name', rfl, hsame, hactor⟩

/-- A name leads to the actor that was returned when it was added. -/
theorem find?_ofHistory : (ofHistory ids ops).find? name = some actor ↔ Returned ids ops name actor := by
  induction ops using List.reverseRecOn with
  | nil => simp [ofHistory, find?, Returned]
  | append_singleton ops op ih =>
    rw [ofHistory_concat, returned_concat, ← ih]
    cases op with
    | addPlayer name' =>
      simp only [Operation.perform, find?_addPlayer, Operation.addPlayer.injEq, exists_eq_left']
      split
      · rename_i hsame
        -- who was found under the name before is the one who is returned now
        simp only [hsame, true_and, Option.some_inj]
        refine (or_iff_left_of_imp fun h => ?_).symm
        rw [addPlayer_of_some ((find?_congr hsame).trans h)]
      · rename_i hsame
        simp [hsame]
    | setOp actor' isOp => simp [Operation.perform, find?_setOp]
    | grant actor' node => cases actor' <;> simp [Operation.perform, grant, Actor.id?, find?]
    | addTeam | dispatch | send => simp [Operation.perform, addTeam, dispatch, send, writeLine, find?]

/-! ### One name, one player -/

/-- No two players have names that are equal up to letter case, and identifiers were given out one after the other. -/
structure Orderly (c : Console) : Prop where
  names : (c.players.map fun p => p.name.lowerAscii).Nodup
  ids : c.players.map Snapshot.id = (List.range c.players.length).map c.ids
  injective : Function.Injective c.ids

namespace Orderly

theorem nodup_ids (h : c.Orderly) : (c.players.map Snapshot.id).Nodup :=
  h.ids ▸ List.nodup_range.map h.injective

/-- The identifier of the next player is a new one. -/
theorem fresh (h : c.Orderly) : ∀ p ∈ c.players, p.id ≠ c.ids c.players.length := by
  intro p hp heq
  have hmem : c.ids c.players.length ∈ (List.range c.players.length).map c.ids := by
    rw [← h.ids, ← heq]
    exact List.mem_map_of_mem hp
  obtain ⟨n, hn, hids⟩ := List.mem_map.1 hmem
  exact absurd (h.injective hids) (Nat.ne_of_lt (List.mem_range.1 hn))

theorem addPlayer (h : c.Orderly) (name : Text) : (c.addPlayer name).2.Orderly := by
  cases hfind : c.find? name with
  | some actor =>
    rw [addPlayer_of_some hfind]
    exact h
  | none =>
    rw [addPlayer_of_none hfind]
    refine ⟨?_, ?_, h.injective⟩
    · have hnew : name.lowerAscii ∉ c.players.map fun p => p.name.lowerAscii := by
        intro hmem
        obtain ⟨p, hp, heq⟩ := List.mem_map.1 hmem
        have hsame := find?_eq_none_iff.1 hfind p hp
        rw [Text.sameAscii, heq, beq_self_eq_true] at hsame
        exact absurd hsame (by decide)
      simpa using h.names.concat hnew
    · simp [h.ids, List.range_succ]

theorem setOp (h : c.Orderly) (actor : Actor) (isOp : Bool) : (c.setOp actor isOp).Orderly := by
  have hlen : (c.setOp actor isOp).players.length = c.players.length := List.length_map _
  refine ⟨?_, ?_, h.injective⟩
  · rw [map_players_setOp fun _ _ => rfl]
    exact h.names
  · rw [map_players_setOp fun _ _ => rfl, hlen]
    exact h.ids

theorem perform (h : c.Orderly) (op : Operation) : (op.perform c).Orderly := by
  cases op with
  | addPlayer name => exact h.addPlayer name
  | setOp actor isOp => exact h.setOp actor isOp
  | grant actor node => cases actor <;> exact ⟨h.names, h.ids, h.injective⟩
  | addTeam | dispatch | send => exact ⟨h.names, h.ids, h.injective⟩

end Orderly

theorem orderly_ofHistory (hids : Function.Injective ids) (ops : List Operation) : (ofHistory ids ops).Orderly := by
  induction ops using List.reverseRecOn with
  | nil => exact ⟨List.nodup_nil, rfl, hids⟩
  | append_singleton ops op ih =>
    rw [ofHistory_concat]
    exact ih.perform op

/-! ### Looking players up -/

section

variable {α β : Type} [BEq β] [LawfulBEq β] {f : α → β} {l : List α} {a : α} {k : β}

/-- Where no two elements have the same key, a search by key does not depend on the order. -/
private theorem find?_key_eq_some_iff (h : (l.map f).Nodup) : (l.find? fun x => f x == k) = some a ↔ a ∈ l ∧ f a = k := by
  have hfound {b : α} (hfind : (l.find? fun x => f x == k) = some b) : b ∈ l ∧ f b = k := by
    have hkey := List.find?_some hfind
    exact ⟨List.mem_of_find?_eq_some hfind, eq_of_beq hkey⟩
  constructor
  · exact hfound
  · rintro ⟨ha, hk⟩
    cases hfind : l.find? fun x => f x == k with
    | none => exact absurd (beq_iff_eq.2 hk) (List.find?_eq_none.1 hfind a ha)
    | some b =>
      obtain ⟨hb, hkey⟩ := hfound hfind
      rw [List.inj_on_of_nodup_map h hb ha (hkey.trans hk.symm)]

private theorem find?_key_of_perm {l' : List α} (h : (l.map f).Nodup) (hperm : l'.Perm l) (k : β) :
    (l'.find? fun x => f x == k) = l.find? fun x => f x == k := by
  have h' : (l'.map f).Nodup := (hperm.map f).nodup_iff.2 h
  refine Option.ext fun a => ?_
  rw [find?_key_eq_some_iff h', find?_key_eq_some_iff h, hperm.mem_iff]

end

theorem online_perm (c : Console) : c.online.Perm c.players :=
  List.mergeSort_perm _ _

theorem sorted_online (c : Console) : c.online.Pairwise fun p q => Text.le p.name q.name = true := by
  have htrans (p q r : Snapshot) (hpq : Text.le p.name q.name = true) (hqr : Text.le q.name r.name = true) :
      Text.le p.name r.name = true := Text.le_trans hpq hqr
  have htotal (p q : Snapshot) : (Text.le p.name q.name || Text.le q.name p.name) = true :=
    Bool.or_eq_true_iff.2 (Text.le_total p.name q.name)
  exact List.pairwise_mergeSort htrans htotal c.players

namespace Orderly

variable (h : c.Orderly)
include h

theorem find?_eq_some_iff :
    c.find? name = some actor ↔ ∃ p ∈ c.players, Text.sameAscii p.name name = true ∧ actor = .player p.id := by
  rw [find?, Option.map_eq_some_iff]
  refine exists_congr fun p => ?_
  rw [Text.sameAscii, beq_iff_eq, eq_comm (a := actor), ← and_assoc]
  exact and_congr_left fun _ => find?_key_eq_some_iff h.names

theorem snapshot?_eq_some_iff {p : Snapshot} : c.snapshot? (.player id) = some p ↔ p ∈ c.players ∧ p.id = id :=
  find?_key_eq_some_iff h.nodup_ids

theorem pairwise_players :
    c.players.Pairwise fun p q => p.id ≠ q.id ∧ Text.sameAscii p.name q.name = false := by
  have hids := List.pairwise_map.1 h.nodup_ids
  have hnames := List.pairwise_map.1 h.names
  exact (hids.and hnames).imp fun hpq => ⟨hpq.1, beq_eq_false_iff_ne.2 hpq.2⟩

theorem eq_of_name {p q : Snapshot} (hp : p ∈ c.players) (hq : q ∈ c.players) (hname : p.name = q.name) : p = q :=
  List.inj_on_of_nodup_map h.names hp hq (congrArg Text.lowerAscii hname)

/-- No player is listed twice. -/
theorem pairwise_online : c.online.Pairwise fun p q => p.name ≠ q.name ∧ Text.le p.name q.name = true := by
  have hnames : (c.online.map fun p => p.name.lowerAscii).Nodup := ((online_perm c).map _).nodup_iff.2 h.names
  refine ((List.pairwise_map.1 hnames).and (sorted_online c)).imp fun hpq => ⟨fun heq => hpq.1 ?_, hpq.2⟩
  rw [heq]

/-- What is seen of players does not depend on the order in which they are kept. -/
theorem of_perm {players : List Snapshot} (hperm : players.Perm c.players) :
    let c' : Console := { c with players }
    c'.find? = c.find? ∧ c'.snapshot? = c.snapshot? ∧ c'.online = c.online := by
  intro c'
  refine ⟨funext fun name => ?_, funext fun actor => ?_, ?_⟩
  · exact congrArg (Option.map _) (find?_key_of_perm h.names hperm _)
  · cases actor with
    | console => rfl
    | player id => exact find?_key_of_perm h.nodup_ids hperm id
  · have hlisted : c'.online.Perm c.online := (online_perm c').trans (hperm.trans (online_perm c).symm)
    refine hlisted.eq_of_pairwise (fun p q hp hq hpq hqp => ?_) (sorted_online c') (sorted_online c)
    have hp : p ∈ c.players := hperm.mem_iff.1 ((online_perm c').mem_iff.1 hp)
    exact h.eq_of_name hp ((online_perm c).mem_iff.1 hq) (Text.le_antisymm hpq hqp)

end Orderly

/-! ### Permissions -/

theorem mem_permissions_ofHistory {node : Text} :
    (id, node) ∈ (ofHistory ids ops).permissions ↔ .grant (.player id) node ∈ ops := by
  induction ops using List.reverseRecOn with
  | nil => simp [ofHistory]
  | append_singleton ops op ih =>
    rw [ofHistory_concat, List.mem_append, ← ih, List.mem_singleton]
    cases op with
    | addPlayer name =>
      have hsame : ((ofHistory ids ops).addPlayer name).2.permissions = (ofHistory ids ops).permissions := by
        unfold addPlayer
        split <;> rfl
      simp [Operation.perform, hsame]
    | grant actor node' =>
      cases actor with
      | console => simp [Operation.perform, grant, Actor.id?]
      | player id' => simp [Operation.perform, grant, Actor.id?, or_comm]
    | setOp | addTeam | dispatch | send => simp [Operation.perform, setOp, addTeam, dispatch, send, writeLine]

/-- A player becomes an operator, or is one no longer, by the operation that says so and by no other. -/
theorem isOperator_perform : (op.perform c).IsOperator id ↔
    (op = .setOp (.player id) true ∧ ∃ p ∈ c.players, p.id = id) ∨
      op ≠ .setOp (.player id) false ∧ c.IsOperator id := by
  unfold IsOperator
  cases op with
  | addPlayer name =>
    cases hfind : c.find? name with
    | some actor => simp [Operation.perform, addPlayer_of_some hfind]
    | none => simp [Operation.perform, addPlayer_of_none hfind]
  | setOp actor isOp =>
    -- among players with the identifier the operation treats all alike
    have hid (p : Snapshot) : (if some p.id = actor.id? then { p with isOp } else p).id = p.id := by split <;> rfl
    have hop (p : Snapshot) (hp : p.id = id) : (if some p.id = actor.id? then { p with isOp } else p).isOp =
        if actor = .player id then isOp else p.isOp := by
      cases actor with
      | console => rfl
      | player id' => simp [Actor.id?, hp, eq_comm (a := id), apply_ite Snapshot.isOp]
    have hplayers : (∃ p ∈ (c.setOp actor isOp).players, p.id = id ∧ p.isOp = true) ↔
        ∃ p ∈ c.players, p.id = id ∧ (if actor = .player id then isOp else p.isOp) = true := by
      simp only [setOp, List.mem_map, exists_exists_and_eq_and, hid]
      refine exists_congr fun p => and_congr_right fun _ => and_congr_right fun hp => ?_
      rw [hop p hp]
    rw [Operation.perform, hplayers]
    by_cases hactor : actor = .player id
    · cases isOp with
      | false => simp [hactor]
      | true => simpa [hactor] using fun p hp hid _ => ⟨p, hp, hid⟩
    · simp [hactor]
  | grant actor node => cases actor <;> simp [Operation.perform, grant, Actor.id?]
  | addTeam | dispatch | send => simp [Operation.perform, addTeam, dispatch, send, writeLine]

theorem isOperator_ofHistory : (ofHistory ids ops).IsOperator id ↔ MadeOperator ids ops id := by
  induction ops using List.reverseRecOn with
  | nil => exact iff_of_false (by simp [ofHistory, IsOperator]) not_since_nil
  | append_singleton ops op ih =>
    rw [ofHistory_concat, isOperator_perform, ih, MadeOperator, MadeOperator, since_concat]

namespace Orderly

theorem isOp_iff (h : c.Orderly) {p : Snapshot} (hp : p ∈ c.players) : p.isOp = true ↔ c.IsOperator p.id := by
  refine ⟨fun hop => ⟨p, hp, rfl, hop⟩, ?_⟩
  rintro ⟨q, hq, hid, hop⟩
  rwa [← List.inj_on_of_nodup_map h.nodup_ids hq hp hid]

theorem isOperator_iff (h : c.Orderly) :
    c.IsOperator id ↔ ((c.snapshot? (.player id)).map Snapshot.isOp).getD false = true := by
  cases hsnapshot : c.snapshot? (.player id) with
  | some p =>
    obtain ⟨hp, rfl⟩ := h.snapshot?_eq_some_iff.1 hsnapshot
    exact (h.isOp_iff hp).symm
  | none =>
    refine iff_of_false ?_ (by simp)
    rintro ⟨p, hp, hid, -⟩
    rw [h.snapshot?_eq_some_iff.2 ⟨hp, hid⟩] at hsnapshot
    cases hsnapshot

theorem hasPermission_iff (h : c.Orderly) {node : Text} : c.hasPermission (.player id) node = true ↔
    c.IsOperator id ∨ (id, node) ∈ c.permissions ∨ (id, ['*']) ∈ c.permissions := by
  rw [h.isOperator_iff]
  simp [hasPermission, Actor.id?, or_assoc]

end Orderly

/-! ### Histories -/

/-- The identifiers that are given out are distinct: behind zeros each ends with its number. -/
theorem idOf_injective : Function.Injective idOf := by
  intro m n h
  have hcut (k : Nat) : idOf k =
      "00000000-0000-4000-8000-" ++ (List.replicate (12 - (natText k).length) '0' ++ natText k) := List.append_assoc _ _ _
  have hzeros (k : Nat) (t : Text) : digitsValue (List.replicate k '0' ++ t) = digitsValue t := by
    induction k with
    | zero => rfl
    | succ k ih => exact ih
  have hnumber (k : Nat) : digitsValue (List.replicate (12 - (natText k).length) '0' ++ natText k) = k :=
    (hzeros _ _).trans (digitsValue_natText k)
  rw [hcut, hcut] at h
  rw [← hnumber m, List.append_cancel_left h, hnumber]

/-- What is seen of the players after a sequence of operations. -/
structure SeenAfter (ids : Nat → ActorId) (ops : List Operation) (c : Console) : Prop where
  unique : c.players.Pairwise fun p q => p.id ≠ q.id ∧ Text.sameAscii p.name q.name = false
  /-- Who has a name in any letter case is returned for it, and nothing changes. -/
  existing : ∀ p ∈ c.players, ∀ name, Text.sameAscii p.name name = true → c.addPlayer name = (.player p.id, c)
  /-- For another name a new player is registered. -/
  added : ∀ name, (∀ p ∈ c.players, Text.sameAscii p.name name = false) → ∃ id, (∀ p ∈ c.players, p.id ≠ id) ∧
    c.addPlayer name = (.player id, { c with players := c.players ++ [{ name, id }] })
  found : ∀ name actor, c.find? name = some actor ↔
    ∃ p ∈ c.players, Text.sameAscii p.name name = true ∧ actor = .player p.id
  returned : ∀ name actor, c.find? name = some actor ↔ Returned ids ops name actor
  listed : c.online.Perm c.players ∧
    c.online.Pairwise fun p q => p.name ≠ q.name ∧ Text.le p.name q.name = true
  operator : ∀ p ∈ c.players, p.isOp = true ↔ MadeOperator ids ops p.id
  permitted : ∀ id node, c.hasPermission (.player id) node = true ↔
    c.IsOperator id ∨ .grant (.player id) node ∈ ops ∨ .grant (.player id) ['*'] ∈ ops
  /-- It does not matter in which order the players are kept. -/
  unordered : ∀ players : List Snapshot, players.Perm c.players →
    let c' : Console := { c with players }
    c'.find? = c.find? ∧ c'.snapshot? = c.snapshot? ∧ c'.online = c.online

/-- Whatever is done to a console, no two players have names that are equal up to letter case, and a name leads to the
actor that was returned when it was added.  Players are listed each once by their names, and a player has a permission if
and only if it is an operator now or was granted that permission or the star at some time. -/
theorem players_unique (hids : Function.Injective ids) (ops : List Operation) :
    SeenAfter ids ops (ofHistory ids ops) := by
  have h : (ofHistory ids ops).Orderly := orderly_ofHistory hids ops
  exact {
    unique := h.pairwise_players
    existing := fun p hp name hsame => addPlayer_of_some (h.find?_eq_some_iff.2 ⟨p, hp, hsame, rfl⟩)
    added := fun name hnone => ⟨_, h.fresh, addPlayer_of_none (find?_eq_none_iff.2 hnone)⟩
    found := fun _ _ => h.find?_eq_some_iff
    returned := fun _ _ => find?_ofHistory
    listed := ⟨online_perm _, h.pairwise_online⟩
    operator := fun p hp => (h.isOp_iff hp).trans isOperator_ofHistory
    permitted := fun id node => by
      rw [h.hasPermission_iff, mem_permissions_ofHistory, mem_permissions_ofHistory]
    unordered := fun _ hperm => h.of_perm hperm }

/-- A name in another letter case adds nobody, and leads to the player; what was granted is there at the end. -/
theorem players_unique_two :
    let ops : List Operation := [.addPlayer "Alice", .addPlayer "alice", .addPlayer "Bob",
      .setOp (.player (idOf 1)) true, .grant (.player (idOf 0)) "warp.use"]
    let c := ofHistory idOf ops
    Function.Injective idOf ∧ c.find? "BOB" = some (.player (idOf 1)) ∧
      c.hasPermission (.player (idOf 0)) "warp.use" = true := by
  intro ops c
  have h : SeenAfter idOf ops c := players_unique idOf_injective ops
  have hbob : Returned idOf ops "BOB" (.player (idOf 1)) :=
    ⟨[.addPlayer "Alice", .addPlayer "alice"], "Bob", ⟨_, rfl⟩, by decide, by decide +kernel⟩
  have hgranted : .grant (.player (idOf 0)) "warp.use" ∈ ops := by simp [ops]
  exact ⟨idOf_injective, (h.returned _ _).2 hbob, (h.permitted _ _).2 (.inr (.inl hgranted))⟩

end DirectiveEngine.Console
