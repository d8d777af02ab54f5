import DirectiveEngine.Host.Scripted
import DirectiveEngine.Proofs.Engine.Frame
import DirectiveEngine.Proofs.Template.Cut
import DirectiveEngine.Proofs.Template.Piece

/-!
# Commands written in a text

A group is closed by the first parenthesis in front of which all parentheses are balanced (`splitGroup?_eq_some_iff`).
So the commands that are written in a text are run, each of them once and in their order, and nothing of what they
answer is searched for further commands (`runs_written_commands`).
-/

namespace DirectiveEngine

variable {σ : Type} {c : Char} {a b p q t : Text} {depth : Nat} {x : Cut}

open Run (after value)

/-! ### Groups -/

/-- So many more parentheses are closed than opened, and never more than that. -/
structure Closes (depth : Nat) (t : Text) : Prop where
  total : t.count ')' = t.count '(' + depth
  within : ∀ p, p <+: t → p.count ')' ≤ p.count '(' + depth

/-- Each parenthesis that is opened is closed, and the other way round. -/
def IsBalanced (t : Text) : Prop :=
  Closes 0 t

namespace Closes

theorem nil_iff : Closes depth [] ↔ depth = 0 := by
  constructor
  · intro h
    simpa using h.total.symm
  · rintro rfl
    exact ⟨rfl, fun p hp => by rw [List.prefix_nil.1 hp]; exact Nat.le_refl 0⟩

/-- A parenthesis in front changes how many more are closed. -/
theorem cons_iff {n : Nat} (h : [c].count ')' + n = [c].count '(' + depth) : Closes depth (c :: t) ↔ Closes n t := by
  have hcount (x : Char) (p : Text) : (c :: p).count x = [c].count x + p.count x := by
    rw [← List.count_append, List.singleton_append]
  constructor
  · refine fun hc => ⟨?_, fun p hp => ?_⟩
    · have htotal := hc.total
      rw [hcount ')', hcount '('] at htotal
      omega
    · have hwithin := hc.within (c :: p) (List.cons_prefix_cons.2 ⟨rfl, hp⟩)
      rw [hcount ')', hcount '('] at hwithin
      omega
  · refine fun ht => ⟨?_, fun p hp => ?_⟩
    · have htotal := ht.total
      rw [hcount ')', hcount '(']
      omega
    · rcases List.prefix_cons_iff.1 hp with rfl | ⟨q, rfl, hq⟩
      · exact Nat.zero_le _
      · have hwithin := ht.within q hq
        rw [hcount ')', hcount '(']
        omega

theorem not_closing : ¬ Closes 0 (')' :: t) := by
  intro h
  exact absurd (h.within [')'] ⟨t, rfl⟩) (by decide)

end Closes

/-- A character that does not close the group is a part of what is inside. -/
private theorem map_splitGroup?_eq_some_iff {n : Nat} (hc : c = ')' → depth ≠ 0)
    (h : [c].count ')' + n = [c].count '(' + depth)
    (ht : ∀ a, splitGroup? n t = some (a, b) ↔ t = a ++ ')' :: b ∧ Closes n a) :
    ((splitGroup? n t).map fun r => (c :: r.1, r.2)) = some (a, b) ↔ c :: t = a ++ ')' :: b ∧ Closes depth a := by
  cases a with
  | nil =>
    rw [Closes.nil_iff]
    constructor
    · simp
    · rintro ⟨heq, hdepth⟩
      exact absurd hdepth (hc (List.cons.inj heq).1)
  | cons d a =>
    rw [Option.map_eq_some_iff]
    constructor
    · rintro ⟨⟨a', b'⟩, hsplit, heq⟩
      cases heq
      obtain ⟨rfl, ha⟩ := (ht a').1 hsplit
      exact ⟨rfl, (Closes.cons_iff h).2 ha⟩
    · rintro ⟨heq, ha⟩
      obtain ⟨rfl, rfl⟩ := List.cons.inj heq
      exact ⟨(a, b), (ht a).2 ⟨rfl, (Closes.cons_iff h).1 ha⟩, rfl⟩

/-- A group ends at the first parenthesis that closes one more than was opened in it. -/
theorem splitGroup?_eq_some_iff : splitGroup? depth t = some (a, b) ↔ t = a ++ ')' :: b ∧ Closes depth a := by
  induction t generalizing depth a with
  | nil => simp [splitGroup?]
  | cons c t ih =>
    by_cases hclose : c = ')'
    · subst hclose
      cases depth with
      | zero =>
        rw [splitGroup?, if_pos rfl]
        constructor
        · rintro ⟨⟩
          exact ⟨rfl, Closes.nil_iff.2 rfl⟩
        · rintro ⟨heq, ha⟩
          cases a with
          | nil => rw [(List.cons.inj heq).2]
          | cons d a => exact absurd ((List.cons.inj heq).1 ▸ ha) Closes.not_closing
      | succ depth =>
        rw [splitGroup?, if_pos rfl]
        exact map_splitGroup?_eq_some_iff (fun _ => Nat.succ_ne_zero depth) (by simp [Nat.add_comm]) fun a => ih
    · have hstep : splitGroup? depth (c :: t) =
          (splitGroup? (if c = '(' then depth + 1 else depth) t).map fun r => (c :: r.1, r.2) := by
        cases depth <;> rw [splitGroup?, if_neg hclose]
      rw [hstep]
      refine map_splitGroup?_eq_some_iff (fun heq => absurd heq hclose) ?_ fun a => ih
      by_cases hopen : c = '('
      · simp [hopen, Nat.add_comm]
      · simp [hopen, hclose]

/-- Nothing closes a group if each parenthesis that would has unbalanced ones in front of it. -/
theorem splitGroup?_eq_none_iff : splitGroup? 0 t = none ↔ ∀ a b, t = a ++ ')' :: b → ¬ IsBalanced a := by
  rw [Option.eq_none_iff_forall_not_mem]
  constructor
  · exact fun h a b heq ha => h (a, b) (splitGroup?_eq_some_iff.2 ⟨heq, ha⟩)
  · rintro h ⟨a, b⟩ hsplit
    obtain ⟨heq, ha⟩ := splitGroup?_eq_some_iff.1 hsplit
    exact h a b heq ha

/-! ### Texts with commands -/

/-- The text is empty or starts with a group that nothing in it closes. -/
def IsUnclosed (t : Text) : Prop :=
  t = [] ∨ ∃ r, t = groupOpening ++ r ∧ ∀ a b, r = a ++ ')' :: b → ¬ IsBalanced a

/-- The insides of the spans are commands, and the pieces open no group. -/
structure Cut.HasCommands (x : Cut) : Prop where
  opens_none : ∀ s ∈ x.spans, ¬ groupOpening <:+: s.before
  balanced : ∀ s ∈ x.spans, IsBalanced s.inner
  last_opens_none : ¬ groupOpening <:+: x.last

/-- The commands in their order. -/
def Cut.commands (x : Cut) : List Text :=
  x.spans.map Span.inner

private theorem splitFirst?_groupOpening (h : ¬ groupOpening <:+: p) (t : Text) :
    Text.splitFirst? groupOpening (p ++ (groupOpening ++ t)) = some (p, t) := by
  refine Text.splitFirst?_of_front (fun hinfix => ?_) t
  have hopening : groupOpening = ['&', '('] := rfl
  rw [hopening] at h hinfix
  rcases List.infix_concat_iff.1 hinfix with ⟨r, hr⟩ | hinfix
  · have hlast := congrArg List.getLast? hr
    simp at hlast
  · exact h hinfix

private theorem groupPieces_unclosed (hp : ¬ groupOpening <:+: p) (hq : IsUnclosed q) :
    groupPieces (p ++ q) = [.plain (p ++ q)] := by
  rcases hq with rfl | ⟨r, rfl, hr⟩
  · rw [List.append_nil, groupPieces_of_none (Text.splitFirst?_of_not_infix hp)]
  · exact groupPieces_of_unclosed (splitFirst?_groupOpening hp r) (splitGroup?_eq_none_iff.2 hr)

/-- The text is cut where its commands are. -/
theorem groupPieces_written (hx : x.HasCommands) (hq : IsUnclosed q) :
    groupPieces (x.written groupOpening ")" ++ q) =
      (x.spans.flatMap fun s => [.plain s.before, .token s.inner]) ++ [.plain (x.last ++ q)] := by
  obtain ⟨spans, last⟩ := x
  obtain ⟨hplain, hbalanced, hlast⟩ := hx
  induction spans with
  | nil => exact groupPieces_unclosed hlast hq
  | cons s spans ih =>
    rw [List.forall_mem_cons] at hplain hbalanced
    obtain ⟨rest, hrest⟩ : ∃ rest, rest = Cut.written ⟨spans, last⟩ groupOpening ")" ++ q := ⟨_, rfl⟩
    have hopen := splitFirst?_groupOpening hplain.1 (s.inner ++ ')' :: rest)
    have hclose : splitGroup? 0 (s.inner ++ ')' :: rest) = some (s.inner, rest) :=
      splitGroup?_eq_some_iff.2 ⟨rfl, hbalanced.1⟩
    have hwritten : Cut.written ⟨s :: spans, last⟩ groupOpening ")" ++ q =
        s.before ++ (groupOpening ++ (s.inner ++ ')' :: rest)) := by
      simp [Cut.written_cons, hrest]
    rw [hwritten, groupPieces_of_some hopen hclose, hrest, ih hplain.2 hbalanced.2 hlast]
    rfl

/-- There is no text that is not written so. -/
theorem exists_hasCommands (t : Text) :
    ∃ (x : Cut) (q : Text), x.HasCommands ∧ IsUnclosed q ∧ t = x.written groupOpening ")" ++ q := by
  have hopening : groupOpening ≠ [] := by decide
  have hplain {t a b : Text} (h : Text.splitFirst? groupOpening t = some (a, b)) : ¬ groupOpening <:+: a :=
    fun hgroup => Text.not_infix_of_splitFirst? hopening h (hgroup.trans (List.prefix_append _ _).isInfix)
  fun_induction groupPieces t with
  | case1 t hnone =>
    have hwhole : ¬ groupOpening <:+: t := (Text.splitFirst?_eq_none_iff hopening).1 hnone
    exact ⟨⟨[], t⟩, [], ⟨by simp, by simp, hwhole⟩, .inl rfl, by simp [Cut.written, Cut.fill_nil]⟩
  | case2 t before after hsome hunclosed =>
    refine ⟨⟨[], before⟩, groupOpening ++ after, ⟨by simp, by simp, hplain hsome⟩, .inr ⟨after, rfl, ?_⟩, ?_⟩
    · exact splitGroup?_eq_none_iff.1 hunclosed
    · rw [Text.eq_of_splitFirst? hsome]
      simp [Cut.written, Cut.fill_nil]
  | case3 t before after hsome inner rest hclosed ih =>
    obtain ⟨heq, hinner⟩ := splitGroup?_eq_some_iff.1 hclosed
    obtain ⟨⟨spans, last⟩, q, hx, hq, rfl⟩ := ih
    refine ⟨⟨⟨before, inner⟩ :: spans, last⟩, q, ⟨?_, ?_, hx.last_opens_none⟩, hq, ?_⟩
    · exact List.forall_mem_cons.2 ⟨hplain hsome, hx.opens_none⟩
    · exact List.forall_mem_cons.2 ⟨hinner, hx.balanced⟩
    · rw [Text.eq_of_splitFirst? hsome, heq]
      simp [Cut.written_cons]

/-! ### Running the commands -/

/-- The output of a command as one line, nothing if it could not be run. -/
def commandValue : Except HostError ProcessOutput → Text
  | .ok o => Text.trim (Text.join " " o.output.lines)
  | .error _ => []

/-- What a host answers to commands one after the other, and the state in which that leaves it. -/
def Host.answers (host : Host σ) : List Text → σ → List (Except HostError ProcessOutput) × σ
  | [], s => ([], s)
  | command :: commands, s =>
    let (answer, s) := host.run command s
    let (answers, s) := host.answers commands s
    (answer :: answers, s)

theorem Host.length_answers (host : Host σ) (commands : List Text) (s : σ) :
    (host.answers commands s).1.length = commands.length := by
  induction commands generalizing s with
  | nil => rfl
  | cons command commands ih => exact congrArg Nat.succ (ih _)

/-- The host ran commands one after the other, and nothing else was done. -/
def World.ran (e : Engine σ) (commands : List Text) (w : World σ) : World σ :=
  { w with
    host := (e.host.answers commands w.host).2
    history := (commands.map fun command => (w.now, .process command)).reverse ++ w.history }

theorem World.ran_cons (e : Engine σ) (command : Text) (commands : List Text) (w : World σ) :
    w.ran e (command :: commands) = (after (e.run command) w).ran e commands := by
  simp only [World.ran, List.map_cons, List.reverse_cons, List.append_assoc, List.cons_append, List.nil_append]
  rfl

/-- One command is run, and then those behind it in the world that it leaves. -/
private theorem renderPieces_command (e : Engine σ) (before command : Text) (ps : List Piece) :
    renderPieces e.commandToken (.plain before :: .token command :: ps) = do
      let answer ← e.run command
      let t ← renderPieces e.commandToken ps
      return before ++ (commandValue answer ++ t) := by
  have htoken : e.commandToken command = do return commandValue (← e.run command) := by
    refine bind_congr fun answer => ?_
    cases answer <;> rfl
  simp [renderPieces, htoken]

private theorem renderPieces_commands (e : Engine σ) (spans : List Span) (last : Text) (w : World σ) :
    let run := renderPieces e.commandToken ((spans.flatMap fun s => [.plain s.before, .token s.inner]) ++ [.plain last])
    let commands := spans.map Span.inner
    value run w = Cut.fill ⟨spans, last⟩ ((e.host.answers commands w.host).1.map commandValue) ∧
      after run w = w.ran e commands := by
  induction spans generalizing w with
  | nil =>
    rw [List.flatMap_nil, List.nil_append, renderPieces_plain]
    exact ⟨(Cut.fill_nil last _).symm, rfl⟩
  | cons s spans ih =>
    have hanswers : (e.host.answers (s.inner :: spans.map Span.inner) w.host).1 =
        value (e.run s.inner) w :: (e.host.answers (spans.map Span.inner) (after (e.run s.inner) w).host).1 := rfl
    obtain ⟨hvalue, hafter⟩ := ih (after (e.run s.inner) w)
    rw [List.flatMap_cons, List.append_assoc, List.cons_append, List.singleton_append, renderPieces_command]
    refine ⟨?_, ?_⟩
    · rw [List.map_cons, hanswers, List.map_cons, Cut.fill_cons, ← hvalue]
      rfl
    · rw [List.map_cons, World.ran_cons, ← hafter]
      rfl

/-- The commands that are written in a text are run once each and in their order, whatever becomes of the others.  What
the host answers to each is put in its place as one line, and nothing else in the text is changed. -/
theorem runs_written_commands (e : Engine σ) (hx : x.HasCommands) (hq : IsUnclosed q) (w : World σ) :
    let run := renderPieces e.commandToken (groupPieces (x.written groupOpening ")" ++ q))
    let answers := (e.host.answers x.commands w.host).1
    answers.length = x.spans.length ∧ value run w = x.fill (answers.map commandValue) ++ q ∧
      after run w = w.ran e x.commands := by
  rw [groupPieces_written hx hq]
  obtain ⟨hvalue, hafter⟩ := renderPieces_commands e x.spans (x.last ++ q) w
  refine ⟨?_, ?_, hafter⟩
  · rw [Host.length_answers, Cut.commands, List.length_map]
  · rw [hvalue, Cut.fill, Cut.fill, List.append_assoc]
    rfl

/-- A command with a command in it, whose output looks like a group, one that fails, and one that is not closed. -/
theorem runs_written_commands_nested :
    let e : Engine Script := ⟨Script.host, {}⟩
    let w : World Script := { host := {
      processes := [("echo $(id)", .ok ⟨0, "&(slow)\n %x%\n"⟩), ("slow", .error (.timeout 1))]
      files := ⟨[], [], []⟩ } }
    let x : Cut := ⟨[⟨"say ", "echo $(id)"⟩, ⟨"! ", "slow"⟩], "(s)"⟩
    let run := renderPieces e.commandToken (groupPieces "say &(echo $(id))! &(slow)(s)&(open")
    x.HasCommands ∧ IsUnclosed "&(open" ∧
      x.written groupOpening ")" ++ "&(open" = "say &(echo $(id))! &(slow)(s)&(open" ∧
      value run w = "say &(slow)  %x%! (s)&(open" ∧
      (after run w).history = [(0, .process "slow"), (0, .process "echo $(id)")] := by
  intro e w x run
  have hclosed : ∀ s ∈ x.spans, splitGroup? 0 (s.inner ++ [')']) = some (s.inner, []) := by decide
  have hbalanced : ∀ s ∈ x.spans, IsBalanced s.inner := fun s hs => (splitGroup?_eq_some_iff.1 (hclosed s hs)).2
  have hx : x.HasCommands := ⟨by decide, hbalanced, by decide⟩
  have hq : IsUnclosed "&(open" := .inr ⟨"open", rfl, splitGroup?_eq_none_iff.1 (by decide)⟩
  have hwritten : x.written groupOpening ")" ++ "&(open" = "say &(echo $(id))! &(slow)(s)&(open" := by decide
  obtain ⟨-, hvalue, hafter⟩ := runs_written_commands e hx hq w
  rw [hwritten] at hvalue hafter
  refine ⟨hx, hq, hwritten, ?_, ?_⟩
  · rw [hvalue]
    decide +kernel
  · rw [hafter]
    rfl

end DirectiveEngine
