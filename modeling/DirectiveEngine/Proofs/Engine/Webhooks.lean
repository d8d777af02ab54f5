import DirectiveEngine.Host.Scripted
import DirectiveEngine.Proofs.Engine.Session
import DirectiveEngine.Proofs.Store
import Mathlib.Data.List.Perm.Basic

/-!
# Webhooks that settle

Each call that an invocation starts is put off, made, and put off again until its answer arrives and takes effect.  On
every move, the calls that start and those put off before are the calls that are made and those put off behind, and so
it is with answers (`Move.balanced`).  When nothing of the invocation is left to do, each of its calls has therefore
taken effect once, and a variable for their answers holds what the last good one brought (`webhooks_settled`).
-/

namespace DirectiveEngine

variable {σ : Type} {e : Engine σ} {u v w : World σ} {a : Act}

open Run (after)

/-! ### What an answer leaves behind -/

/-- The variable that an answer sets, with its value. -/
def Call.kept? (call : Call) : Except HostError WebhookResponse → Option (Text × Text)
  | .error _ => none
  | .ok r =>
    if r.isSuccess then (call.capture.filter fun name => !name.isEmpty).map fun name => (name, r.body) else none

/-- A call with its answer. -/
abbrev Answer := Call × Except HostError WebhookResponse

namespace Answer

/-- The variables behind an answer to a call of an actor. -/
def keepIn (x : Answer) (actor : Actor) (s : Store) : Store :=
  match x.1.kept? x.2 with
  | some (name, body) => s.set actor name body
  | none => s

/-- The body that an answer brings for a variable. -/
def bodyFor? (name : Text) (x : Answer) : Option Text :=
  ((x.1.kept? x.2).filter fun kept => name.lower = kept.1.lower).map Prod.snd

theorem get_keepIn (x : Answer) (actor : Actor) (s : Store) (name : Text) :
    (x.keepIn actor s).get actor name = (x.bodyFor? name).getD (s.get actor name) := by
  unfold keepIn bodyFor?
  cases x.1.kept? x.2 with
  | none => rfl
  | some kept =>
    simp only [Store.get_set]
    by_cases hname : name.lower = kept.1.lower <;> simp [Option.filter, hname]

end Answer

theorem store_after_finishCall (e : Engine σ) (inv : Invocation) (call : Call)
    (r : Except HostError WebhookResponse) (w : World σ) :
    (after (e.finishCall inv call r) w).store = Answer.keepIn (call, r) inv.actor w.store := by
  have htold (c : Bool) (t : Text) (color : Color) (v : World σ) :
      (after (if c then e.tell inv.actor t color else pure ()) v).store = v.store := by
    split <;> rfl
  let u := after (Run.note (.completion inv.id call)) w
  unfold Engine.finishCall Answer.keepIn Call.kept?
  rw [Run.after_bind]
  cases r with
  | error fault => exact htold (!call.silent) _ _ u
  | ok r =>
    cases hr : r.isSuccess with
    | false =>
      simp only [hr, Bool.not_false, if_true, Bool.false_eq_true, if_false]
      exact htold (!call.silent) _ _ u
    | true =>
      simp only [hr, Bool.not_true, Bool.false_eq_true, if_false, if_true]
      cases call.capture.filter fun name => !name.isEmpty with
      | some name => exact htold call.announce _ _ (after (Run.assign inv.actor name r.body) u)
      | none => exact htold (!call.silent && !r.body.isEmpty) _ _ u

/-! ### The calls of an invocation -/

namespace Act

/-- The call that a directive of an invocation starts. -/
def started (inv : Invocation) : Act → List Call
  | directive i _ started => if i = inv then started.toList else []
  | _ => []

/-- The call of an invocation that the host answers. -/
def made (inv : Invocation) : Act → List Answer
  | call i c outcome => if i = inv then [(c, outcome.result)] else []
  | _ => []

/-- The call of an invocation whose answer takes effect. -/
def processed (inv : Invocation) : Act → List Answer
  | call i c outcome => if i = inv ∧ outcome.latency = 0 then [(c, outcome.result)] else []
  | response i c result => if i = inv then [(c, result)] else []
  | _ => []

end Act

section Log

variable (inv : Invocation) (log : List (Entry σ))

def startedOf : List Call :=
  log.flatMap fun x => x.act.started inv

def madeOf : List Answer :=
  log.flatMap fun x => x.act.made inv

def processedOf : List Answer :=
  log.flatMap fun x => x.act.processed inv

end Log

/-! ### What is put off -/

def Work.call? : Work → Option Call
  | .call c => some c
  | _ => none

def Work.answer? : Work → Option Answer
  | .response c result => some (c, result)
  | _ => none

/-- The work of some kind that is put off for an invocation. -/
def heldOf {α : Type} (inv : Invocation) (work? : Work → Option α) (ts : List Task) : List α :=
  ts.filterMap fun t => if t.invocation = inv then work? t.work else none

theorem heldOf_append {α : Type} (inv : Invocation) (work? : Work → Option α) (ts ts' : List Task) :
    heldOf inv work? (ts ++ ts') = heldOf inv work? ts ++ heldOf inv work? ts' :=
  List.filterMap_append

theorem heldOf_eq_nil {α : Type} {inv : Invocation} {work? : Work → Option α} {ts : List Task}
    (h : ∀ t ∈ ts, t.invocation ≠ inv) : heldOf inv work? ts = [] :=
  List.filterMap_eq_nil_iff.2 fun t ht => if_neg (h t ht)

private theorem heldOf_tailTask {α : Type} (work? : Work → Option α) (hwork : ∀ ds, work? (.tail ds) = none)
    (inv i : Invocation) (ds : List (Nat × Directive)) : heldOf inv work? (tailTask i ds) = [] := by
  refine List.filterMap_eq_nil_iff.2 fun t ht => ?_
  rw [(of_mem_tailTask ht).2, hwork, ite_self]

/-- What goes in and was held is what comes out and is held now, if this is so of the work that changes hands. -/
private theorem perm_of_shift {α : Type} {ins outs taken added before behind : List α}
    (hshift : (ins ++ taken).Perm (outs ++ added)) (hheld : (before ++ added).Perm (taken ++ behind)) :
    (ins ++ before).Perm (outs ++ behind) := by
  classical
  rw [List.perm_iff_count] at hshift hheld ⊢
  intro x
  have hshift := hshift x
  have hheld := hheld x
  simp only [List.count_append] at hshift hheld ⊢
  omega

theorem Act.Shifts.balanced {taken added : List Task} (h : a.Shifts u taken added) (inv : Invocation) :
    (a.started inv ++ heldOf inv Work.call? taken).Perm ((a.made inv).map Prod.fst ++ heldOf inv Work.call? added) ∧
      (a.made inv ++ heldOf inv Work.answer? taken).Perm
        (a.processed inv ++ heldOf inv Work.answer? added) := by
  have hcalls := heldOf_tailTask Work.call? (fun _ => rfl) inv
  have hanswers := heldOf_tailTask Work.answer? (fun _ => rfl) inv
  cases h with
  | enter =>
    rw [hcalls, hanswers]
    simp [started, made, processed, heldOf]
  | directive i due d ds started =>
    rw [heldOf_append, heldOf_append, hcalls, hanswers]
    by_cases hi : i = inv <;> cases started <;>
      simp [Act.started, made, processed, heldOf, Work.call?, Work.answer?, hi]
  | panicked i due d ds => simp [started, made, processed, heldOf, Work.call?, Work.answer?]
  | begun due i call hlatency =>
    by_cases hi : i = inv <;> simp [started, made, processed, heldOf, Work.call?, Work.answer?, hi, hlatency]
  | answered due i call hlatency =>
    by_cases hi : i = inv <;> simp [started, made, processed, heldOf, Work.call?, Work.answer?, hi, hlatency]
  | response due i call result =>
    by_cases hi : i = inv <;> simp [started, made, processed, heldOf, Work.call?, Work.answer?, hi]
  | denied | outside | clock => simp [started, made, processed, heldOf]

/-- No call gets lost on a move, and no answer. -/
theorem Move.balanced (h : Move e u a w) (inv : Invocation) :
    (a.started inv ++ heldOf inv Work.call? u.tasks).Perm ((a.made inv).map Prod.fst ++ heldOf inv Work.call? w.tasks) ∧
      (a.made inv ++ heldOf inv Work.answer? u.tasks).Perm
        (a.processed inv ++ heldOf inv Work.answer? w.tasks) := by
  obtain ⟨before, later, taken, added, hshifts, hu, hw, -⟩ := h.tasks
  have hheld {α : Type} (work? : Work → Option α) :
      (heldOf inv work? u.tasks ++ heldOf inv work? added).Perm
        (heldOf inv work? taken ++ heldOf inv work? w.tasks) := by
    rw [hu, hw, ← heldOf_append, ← heldOf_append]
    -- the tasks of both sides are the same in another order
    refine List.Perm.filterMap _ ?_
    have hswap : (before ++ taken).Perm (taken ++ before) := List.perm_append_comm
    simpa only [List.append_assoc] using hswap.append_right (later ++ added)
  obtain ⟨hcalls, hanswers⟩ := hshifts.balanced inv
  exact ⟨perm_of_shift hcalls (hheld Work.call?), perm_of_shift hanswers (hheld Work.answer?)⟩

/-- What every move balances is balanced on a trail. -/
theorem Trail.balanced {α : Type} {ins outs : Act → List α} {held : World σ → List α} {log : List (Entry σ)}
    (hmove : ∀ {u a w}, Move e u a w → (ins a ++ held u).Perm (outs a ++ held w)) (h : Trail e u log w) :
    ((log.flatMap fun x => ins x.act) ++ held u).Perm ((log.flatMap fun x => outs x.act) ++ held w) := by
  induction h with
  | nil => exact .refl _
  | snoc _ hm ih =>
    rw [List.flatMap_append, List.flatMap_append, List.flatMap_singleton, List.flatMap_singleton]
    -- what is held in between is added to one side and taken from the other
    classical
    have hm := hmove hm
    rw [List.perm_iff_count] at hm ih ⊢
    intro x
    have hm := hm x
    have ih := ih x
    simp only [List.count_append] at hm ih ⊢
    omega

/-! ### What the history holds of the calls -/

def Event.request? (id : Nat) : Event → Option WebhookRequest
  | .webhook i request => if i = id then some request else none
  | _ => none

def Event.completion? (id : Nat) : Event → Option Call
  | .completion i call => if i = id then some call else none
  | _ => none

private theorem filterMap_concludes {β : Type} {f : Event → Option β} {inv : Invocation} {evs : List (Nat × Event)}
    (hf : ∀ ev, Engine.Concludes inv ev → f ev = none) (h : ∀ x ∈ evs, Engine.Concludes inv x.2) :
    evs.filterMap (fun x => f x.2) = [] :=
  List.filterMap_eq_nil_iff.2 fun x hx => hf x.2 (h x hx)

/-- A call is noted when it is made, and again when its answer takes effect. -/
theorem Engine.Noted.calls {now : Nat} {evs : List (Nat × Event)} (h : e.Noted now a evs) {inv : Invocation}
    (hsingle : ∀ i, a.invocation? = some i → i.id = inv.id → i = inv) :
    evs.filterMap (fun x => x.2.request? inv.id) = (a.made inv).map (fun x => x.1.request) ∧
      evs.filterMap (fun x => x.2.completion? inv.id) = (a.processed inv).map Prod.fst := by
  -- the history knows invocations by number only
  have hid {i : Invocation} (hi : a.invocation? = some i) : i.id = inv.id ↔ i = inv :=
    ⟨hsingle i hi, fun h => by rw [h]⟩
  have hrequest {i : Invocation} (ev : Event) (h : Engine.Concludes i ev) : ev.request? inv.id = none := by
    cases h <;> rfl
  have hcompletion {i : Invocation} (ev : Event) (h : Engine.Concludes i ev) : ev.completion? inv.id = none := by
    cases h <;> rfl
  have hnone {i : Invocation} (ev : Event) (h : e.Performs i ev) :
      ev.request? inv.id = none ∧ ev.completion? inv.id = none := by
    cases h with
    | notes h => cases h <;> exact ⟨rfl, rfl⟩
    | dispatch => exact ⟨rfl, rfl⟩
  cases h with
  | directive hperforms =>
    exact ⟨List.filterMap_eq_nil_iff.2 fun x hx => (hnone x.2 (hperforms x hx)).1,
      List.filterMap_eq_nil_iff.2 fun x hx => (hnone x.2 (hperforms x hx)).2⟩
  | panicked hnotes =>
    exact ⟨List.filterMap_eq_nil_iff.2 fun x hx => (hnone x.2 (hnotes x hx).performs).1,
      List.filterMap_eq_nil_iff.2 fun x hx => (hnone x.2 (hnotes x hx).performs).2⟩
  | begun i call hlatency =>
    have hi := hid (i := i) rfl
    by_cases hinv : i = inv <;> simp [Event.request?, Event.completion?, Act.made, Act.processed, hi, hinv, hlatency]
  | @answered i call _ hlatency evs hconcludes =>
    have hi := hid (i := i) rfl
    rw [List.filterMap_cons, List.filterMap_cons, List.filterMap_cons, List.filterMap_cons,
      filterMap_concludes hrequest hconcludes, filterMap_concludes hcompletion hconcludes]
    by_cases hinv : i = inv <;> simp [Event.request?, Event.completion?, Act.made, Act.processed, hi, hinv, hlatency]
  | @response i call result evs hconcludes =>
    have hi := hid (i := i) rfl
    rw [List.filterMap_cons, List.filterMap_cons, filterMap_concludes hrequest hconcludes,
      filterMap_concludes hcompletion hconcludes]
    by_cases hinv : i = inv <;> simp [Event.request?, Event.completion?, Act.made, Act.processed, hi, hinv]
  | denied => exact ⟨rfl, rfl⟩
  | enter | outside | clock => exact ⟨rfl, rfl⟩

theorem Trail.calls {log : List (Entry σ)} (h : Trail e u log w) {inv : Invocation} (hu : inv.IsSingle u) :
    (log.flatMap Entry.events).filterMap (fun x => x.2.request? inv.id) = (madeOf inv log).map (fun x => x.1.request) ∧
      (log.flatMap Entry.events).filterMap (fun x => x.2.completion? inv.id) = (processedOf inv log).map Prod.fst := by
  induction h with
  | nil => exact ⟨rfl, rfl⟩
  | @snoc log v w a h hm ih =>
    obtain ⟨hrequests, hcompletions⟩ := hm.noted_events.calls (hm.isSingle (h.isSingle hu).1).2
    unfold madeOf processedOf at ih ⊢
    simp only [List.flatMap_append, List.flatMap_singleton, List.filterMap_append, List.map_append, ih.1, ih.2,
      hrequests, hcompletions, and_self]

/-! ### What the store holds of the answers -/

/-- An answer takes effect alone, and in the scope of its invocation's actor. -/
theorem Move.store_of_processed (h : Move e u a w) {inv : Invocation} {x : Answer} (hx : x ∈ a.processed inv) :
    a.processed inv = [x] ∧ w.store = x.keepIn inv.actor u.store := by
  cases h with
  | @call before later i due call htasks hdue =>
    by_cases hi : i = inv ∧ (e.host.call call.request u.host).1.latency = 0
    · have hone : (Act.call i call (e.host.call call.request u.host).1).processed inv = [(call, _)] := if_pos hi
      rw [hone] at hx ⊢
      rw [after_runTask_call e i call (w := { u with tasks := before ++ later }) hdue, if_pos hi.2,
        store_after_finishCall, hi.1, List.mem_singleton.1 hx]
      exact ⟨rfl, rfl⟩
    · have hnone : (Act.call i call (e.host.call call.request u.host).1).processed inv = [] := if_neg hi
      simp [hnone] at hx
  | @response before later i due call result htasks hdue =>
    by_cases hi : i = inv
    · have hone : (Act.response i call result).processed inv = [(call, result)] := if_pos hi
      rw [hone] at hx ⊢
      rw [after_runTask_response e i call result (w := { u with tasks := before ++ later }) hdue,
        store_after_finishCall, hi, List.mem_singleton.1 hx]
      exact ⟨rfl, rfl⟩
    · have hnone : (Act.response i call result).processed inv = [] := if_neg hi
      simp [hnone] at hx
  | enter | directive | panicked | denied | outside | clock => simp [Act.processed] at hx

/-- A variable that only answers change holds the body of the last that brought one for it. -/
theorem Trail.captured {log : List (Entry σ)} (h : Trail e u log w) {inv : Invocation} {name : Text}
    (hother : ∀ x ∈ log, x.act.processed inv = [] →
      x.behind.store.get inv.actor name = x.before.store.get inv.actor name) :
    w.store.get inv.actor name =
      ((processedOf inv log).filterMap (Answer.bodyFor? name)).getLast?.getD (u.store.get inv.actor name) := by
  induction h with
  | nil => rfl
  | @snoc log v w a h hm ih =>
    have ih := ih fun x hx => hother x (List.mem_append_left _ hx)
    unfold processedOf at ih ⊢
    rw [List.flatMap_append, List.flatMap_singleton, List.filterMap_append]
    -- the last move leaves the variable alone, or it is an answer and what that brings counts
    rcases List.eq_nil_or_concat (a.processed inv) with hnil | ⟨_, x, hx⟩
    · have hsame := hother ⟨v, a, w⟩ (by simp) hnil
      simp only [hnil, List.filterMap_nil, List.append_nil]
      exact hsame.trans ih
    · have hmem : x ∈ a.processed inv := by rw [hx]; simp
      obtain ⟨hone, hstore⟩ := hm.store_of_processed hmem
      rw [hone, hstore, x.get_keepIn, ih]
      cases hbody : x.bodyFor? name <;> simp [hbody]

/-! ### Settled invocations -/

/-- The call was answered with a status from 200 to 299. -/
def Answer.isGood (x : Answer) : Bool :=
  match x.2 with
  | .ok r => r.isSuccess
  | .error _ => false

theorem Answer.keepIn_of_not_isGood {x : Answer} (h : x.isGood = false) (actor : Actor) (s : Store) :
    x.keepIn actor s = s := by
  obtain ⟨call, r⟩ := x
  cases r with
  | error fault => rfl
  | ok r =>
    have hr : r.isSuccess = false := h
    simp [keepIn, Call.kept?, hr]

/-- What has become of the calls of an invocation that began in a world. -/
structure Settled (inv : Invocation) (start : World σ) (log : List (Entry σ)) (w : World σ) : Prop where
  /-- Every call that was started was made once. -/
  made : ((madeOf inv log).map Prod.fst).Perm (startedOf inv log)
  /-- Every call that was made took effect once, with the answer that it got. -/
  processed : (processedOf inv log).Perm (madeOf inv log)
  /-- The host was called, and the outcomes were processed, just so often and in this order. -/
  noted : ∃ evs : List (Nat × Event), w.history = evs.reverse ++ start.history ∧
    evs.filterMap (fun x => x.2.request? inv.id) = (madeOf inv log).map (fun x => x.1.request) ∧
    evs.filterMap (fun x => x.2.completion? inv.id) = (processedOf inv log).map Prod.fst
  /-- A call that failed or had another status set no variable. -/
  failed : ∀ x ∈ log, ∀ answer ∈ x.act.processed inv, answer.isGood = false → x.behind.store = x.before.store
  /-- A variable that nothing else writes holds the body of the last good answer for it. -/
  captured : ∀ name, (∀ x ∈ log, x.act.processed inv = [] →
      x.behind.store.get inv.actor name = x.before.store.get inv.actor name) →
    w.store.get inv.actor name =
      ((processedOf inv log).filterMap (Answer.bodyFor? name)).getLast?.getD (start.store.get inv.actor name)

/-- When nothing of an invocation is left to do, its calls are settled. -/
theorem Trail.settled {start : World σ} (hstart : Orderly start) {actor : Actor} {args : List Text}
    {ds : List Directive} {log : List (Entry σ)} (h : Trail e (after (e.enter actor args ds) start) log w)
    (hidle : ∀ t ∈ w.tasks, t.invocation ≠ ⟨start.invocations, actor, args⟩) :
    Settled ⟨start.invocations, actor, args⟩ start log w := by
  let inv : Invocation := ⟨start.invocations, actor, args⟩
  have hsingle : inv.IsSingle (after (e.enter actor args ds) start) := hstart.isSingle_after_enter e actor args ds
  have hbefore {α : Type} {work? : Work → Option α} (hwork : ∀ ds, work? (.tail ds) = none) :
      heldOf inv work? (after (e.enter actor args ds) start).tasks = [] := by
    have hfresh : ∀ t ∈ start.tasks, t.invocation ≠ inv := by
      rintro t ht heq
      exact Nat.lt_irrefl _ (heq ▸ (hstart.tasks t ht).known)
    rw [after_enter, heldOf_append, heldOf_eq_nil hfresh, heldOf_tailTask work? hwork, List.append_nil]
  -- nothing was put off before the invocation entered, and nothing is now
  have hcalls := h.balanced fun hm => (hm.balanced inv).1
  have hanswers := h.balanced fun hm => (hm.balanced inv).2
  rw [hbefore fun _ => rfl, heldOf_eq_nil hidle, List.append_nil, List.append_nil] at hcalls hanswers
  constructor
  · unfold madeOf
    rw [List.map_flatMap]
    exact hcalls.symm
  · exact hanswers.symm
  · have hhistory := h.history
    rw [after_enter] at hhistory
    exact ⟨_, hhistory, h.calls hsingle⟩
  · intro x hx answer hanswer hbad
    obtain ⟨_, -, hmove⟩ := h.entry hx
    rw [(hmove.store_of_processed hanswer).2, answer.keepIn_of_not_isGood hbad]
  · intro name hother
    have hcaptured := h.captured hother
    rwa [after_enter] at hcaptured

/-- However an invocation goes on and whatever else is under way: when it has been waited for, and whenever nothing of
it is left to do, each call that it started was made and took effect once, calls without a good answer changed nothing,
and each variable that only its calls write holds the body of the last good answer for that. -/
theorem webhooks_settled {start : World σ} (hsession : Session e start) {actor : Actor} {args : List Text}
    {ds : List Directive} {log : List (Entry σ)} (h : Trail e (after (e.enter actor args ds) start) log u) :
    let inv : Invocation := ⟨start.invocations, actor, args⟩
    ((∀ t ∈ u.tasks, t.invocation ≠ inv) → Settled inv start log u) ∧
      ∃ log', Trail e u log' (after (e.wait inv.id) u) ∧ Settled inv start (log ++ log') (after (e.wait inv.id) u) := by
  intro inv
  have hstart : Orderly start := hsession.trail.1
  have hu : Orderly u := h.orderly ((Move.enter (e := e) actor args ds).orderly hstart)
  obtain ⟨log', hlog'⟩ := wait_trail e inv.id hu
  refine ⟨h.settled hstart, log', hlog', (h.trans hlog').settled hstart fun t ht heq => ?_⟩
  exact tasks_after_wait e inv.id hu t ht (by rw [heq])

/-- Two calls for one variable, of which the second is answered first. -/
theorem webhooks_settled_late :
    let outcomes : List (Text × WebhookOutcome) :=
      [("http://a", ⟨.ok ⟨200, "one"⟩, 5⟩), ("http://b", ⟨.ok ⟨200, "two"⟩, 0⟩)]
    let actions : List Text := ["%http://a>>Answer", "%http://b>>answer"]
    let e : Engine Script := { host := Script.host, config := { webhooksEnabled := true } }
    let start : World Script := { host := { webhooks := outcomes, files := ⟨[], [], []⟩ } }
    let u := after (e.wait 0) (after (e.invoke 0 .console [] actions) start)
    (∃ log, Trail e (after (e.enter .console [] (collapseRandom 0 (actions.map Directive.parse))) start) log u ∧
      Settled ⟨0, .console, []⟩ start log u) ∧ u.store.get .console "ANSWER" = "one" := by
  intro outcomes actions e start u
  obtain ⟨log, hlog⟩ := invoke_trail e 0 .console [] actions start
  obtain ⟨log', hlog', hsettled⟩ := (webhooks_settled (.start _ _) hlog).2
  exact ⟨⟨_, hlog.trans hlog', hsettled⟩, by decide +kernel⟩

end DirectiveEngine
