import DirectiveEngine.Engine.Resolve
import DirectiveEngine.Proofs.Engine.Frame
import DirectiveEngine.Proofs.Template.Cut
import DirectiveEngine.Proofs.Template.Piece

/-!
# File writes in a text

The tokens of a text are where it is cut from left to right at doubled marks (`Cut.IsAtTokens`).  A token ends in front
of a character that is no mark, so no new token comes up where one is taken out (`Cut.IsAtTokens.no_mark_remaining`).
So all of them are taken out, and each that asks for a write is tried once, whatever becomes of the others
(`writes_each_token_once`).  As everywhere, `after` and `value` are what comes if the host does not panic; where it does,
the run ends at that write.
-/

namespace DirectiveEngine

variable {σ : Type} {t rest inner : Text} {x : Cut}

open Run (after value)
open Engine (writeMark)

/-! ### Tokens in a text -/

/-- The two marks that a token starts with. -/
def writeOpening : Text :=
  [writeMark, writeMark]

namespace Cut

/-- The spans are the tokens of the text.  Each starts at the first doubled mark and runs up to the first character that
ends a token, and the next one is looked for from there on. -/
inductive IsAtTokens : Cut → Text → Prop
  | last {t : Text} : ¬ writeOpening <:+: t → IsAtTokens ⟨[], t⟩ t
  | token {s : Span} {spans : List Span} {last rest : Text} : ¬ writeOpening <:+: s.before ++ [writeMark] →
    (∀ c ∈ s.inner, endsToken c = false) → (∀ c ∈ rest.head?, endsToken c = true) → IsAtTokens ⟨spans, last⟩ rest →
    IsAtTokens ⟨s :: spans, last⟩ (s.before ++ (writeOpening ++ (s.inner ++ rest)))

/-- What remains of the text without its tokens. -/
def remaining (x : Cut) : Text :=
  x.fill (x.spans.map fun _ => [])

/-- What the tokens ask for, in their order. -/
def writes (x : Cut) : List FileWrite :=
  x.spans.filterMap fun s => FileWrite.ofToken? s.inner

/-- The pieces between the tokens, and the tokens. -/
def pieces (x : Cut) : List Piece :=
  x.spans.flatMap (fun s => [.plain s.before, .token s.inner]) ++ [.plain x.last]

theorem remaining_cons (s : Span) (spans : List Span) (last : Text) :
    remaining ⟨s :: spans, last⟩ = s.before ++ remaining ⟨spans, last⟩ :=
  fill_cons s spans last [] _

namespace IsAtTokens

/-- The text is what it is written as. -/
theorem written (h : x.IsAtTokens t) : x.written writeOpening [] = t := by
  induction h with
  | last => exact fill_nil _ _
  | token _ _ _ _ ih =>
    rw [written_cons, ih]
    simp

/-- A text that starts with no mark still starts with the same character when its tokens are taken out. -/
private theorem head?_remaining (h : x.IsAtTokens t) (ht : ∀ c ∈ t.head?, c ≠ writeMark) :
    x.remaining.head? = t.head? := by
  cases h with
  | last => exact congrArg List.head? (fill_nil t [])
  | @token s spans last rest _ _ _ _ =>
    rw [remaining_cons]
    cases hbefore : s.before with
    | nil =>
      rw [hbefore] at ht
      exact absurd rfl (ht writeMark rfl)
    | cons c before => rfl

theorem no_mark_remaining (h : x.IsAtTokens t) : ¬ writeOpening <:+: x.remaining := by
  induction h with
  | last ht =>
    rw [remaining, List.map_nil, fill_nil]
    exact ht
  | @token s spans last rest hbefore _ hend hrest ih =>
    have hhead : (remaining ⟨spans, last⟩).head? = rest.head? := by
      refine hrest.head?_remaining fun c hc hmark => ?_
      exact absurd (hend c hc) (by rw [hmark]; decide)
    rw [remaining_cons]
    cases hnext : remaining ⟨spans, last⟩ with
    | nil =>
      rw [List.append_nil]
      exact fun hdoubled => hbefore (hdoubled.trans (List.prefix_append _ _).isInfix)
    | cons c next =>
      -- the character behind the token ends it, so no pair of marks reaches over the seam
      have hc : c ∉ writeOpening := by
        rw [hnext] at hhead
        intro hmem
        obtain rfl : c = writeMark := by simpa [writeOpening] using hmem
        exact absurd (hend writeMark hhead.symm) (by decide)
      rw [Text.infix_append_cons_iff (by decide) hc]
      rintro (hdoubled | hdoubled)
      · exact hbefore (hdoubled.trans (List.prefix_append _ _).isInfix)
      · exact ih (by rw [hnext]; exact List.infix_cons hdoubled)

end IsAtTokens

/-- The scanner cuts a text at its tokens. -/
theorem exists_isAtTokens (t : Text) : ∃ x : Cut, x.IsAtTokens t ∧ markedPieces writeMark t = x.pieces := by
  fun_induction markedPieces writeMark t with
  | case1 t hnone => exact ⟨⟨[], t⟩, .last ((Text.splitFirst?_eq_none_iff (by decide)).1 hnone), rfl⟩
  | case2 t before after hsome ih =>
    obtain ⟨⟨spans, last⟩, hx, hpieces⟩ := ih
    have hafter : after = (splitToken after).1 ++ (splitToken after).2 := (splitToken_append after).symm
    have hbefore : ¬ writeOpening <:+: before ++ [writeMark] := Text.not_infix_of_splitFirst? (by decide) hsome
    have hinner : ∀ c ∈ (splitToken after).1, endsToken c = false := by
      intro c hc
      simpa using List.mem_takeWhile_imp hc
    have hend : ∀ c ∈ (splitToken after).2.head?, endsToken c = true := by
      intro c hc
      have hstop := List.head?_dropWhile_not (fun c => !endsToken c) after
      rw [splitToken, Option.mem_def] at hc
      rw [hc] at hstop
      simpa using hstop
    refine ⟨⟨⟨before, (splitToken after).1⟩ :: spans, last⟩, ?_, ?_⟩
    · have htext : t = before ++ (writeOpening ++ ((splitToken after).1 ++ (splitToken after).2)) := by
        rw [← hafter, ← List.append_assoc]
        exact Text.eq_of_splitFirst? hsome
      rw [htext]
      exact .token hbefore hinner hend hx
    · rw [hpieces]
      rfl

end Cut

/-! ### What a token asks for -/

/-- The parts of a token are separated by the first separators in it. -/
def FileWrite.separator : Text :=
  "::"

/-- A token asks for nothing without a separator, with one for a content under a path, and with more of them for all
that stands behind the second one as the value under a key. -/
inductive FileWrite.Asked : Text → Option FileWrite → Prop
  | nothing {inner : Text} : ¬ separator <:+: inner → Asked inner none
  | content {path value : Text} : ¬ separator <:+: path ++ [':'] → ¬ separator <:+: value →
    Asked (path ++ (separator ++ value)) (some ⟨path, none, value⟩)
  | keyed {path key value : Text} : ¬ separator <:+: path ++ [':'] → ¬ separator <:+: key ++ [':'] →
    Asked (path ++ (separator ++ (key ++ (separator ++ value)))) (some ⟨path, some key, value⟩)

theorem FileWrite.asked_ofToken? (inner : Text) : Asked inner (ofToken? inner) := by
  have hsep : separator ≠ [] := by decide
  cases hpath : Text.splitFirst? "::" inner with
  | none =>
    have hparts : ofToken? inner = none := by rw [ofToken?, Text.splitUpTo, hpath]
    rw [hparts]
    exact .nothing ((Text.splitFirst?_eq_none_iff hsep).1 hpath)
  | some p =>
    obtain ⟨path, more⟩ := p
    have hfirst : ¬ separator <:+: path ++ [':'] := Text.not_infix_of_splitFirst? hsep hpath
    have hinner := Text.eq_of_splitFirst? hpath
    cases hkey : Text.splitFirst? "::" more with
    | none =>
      have hparts : ofToken? inner = some ⟨path, none, more⟩ := by
        rw [ofToken?, Text.splitUpTo, hpath]
        simp only [Text.splitUpTo, hkey]
      rw [hparts, hinner, List.append_assoc]
      exact .content hfirst ((Text.splitFirst?_eq_none_iff hsep).1 hkey)
    | some q =>
      obtain ⟨key, value⟩ := q
      have hparts : ofToken? inner = some ⟨path, some key, value⟩ := by
        rw [ofToken?, Text.splitUpTo, hpath]
        simp only [Text.splitUpTo, hkey]
      rw [hparts, hinner, List.append_assoc, Text.eq_of_splitFirst? hkey, List.append_assoc]
      exact .keyed hfirst (Text.not_infix_of_splitFirst? hsep hkey)

/-! ### Writing -/

/-- The state of a host behind writes one after the other, whether or not each of them succeeded. -/
def Host.wrote (host : Host σ) (writes : List FileWrite) (s : σ) : σ :=
  writes.foldl (fun s file => (host.write file.path file.key file.value s).2) s

/-- The host was asked for writes one after the other, and nothing else was done. -/
def World.wrote (e : Engine σ) (writes : List FileWrite) (w : World σ) : World σ :=
  { w with
    host := e.host.wrote writes w.host
    history := (writes.map fun file => (w.now, .write file.path file.key file.value)).reverse ++ w.history }

theorem World.wrote_cons (e : Engine σ) (file : FileWrite) (files : List FileWrite) (w : World σ) :
    w.wrote e (file :: files) = (after (e.write file) w).wrote e files := by
  simp only [World.wrote, List.map_cons, List.reverse_cons, List.append_assoc, List.cons_append, List.nil_append]
  rfl

theorem World.wrote_append (e : Engine σ) (files files' : List FileWrite) (w : World σ) :
    w.wrote e (files ++ files') = (w.wrote e files).wrote e files' := by
  induction files generalizing w with
  | nil => rfl
  | cons file files ih => rw [List.cons_append, wrote_cons, ih, ← wrote_cons]

/-- Nothing is left of a token, and it is written once if it asks for that. -/
theorem Engine.writeToken_spec (e : Engine σ) (inner : Text) (w : World σ) :
    value (e.writeToken inner) w = [] ∧
      after (e.writeToken inner) w = w.wrote e (FileWrite.ofToken? inner).toList := by
  unfold Engine.writeToken
  cases FileWrite.ofToken? inner <;> exact ⟨rfl, rfl⟩

private theorem renderPieces_writes (e : Engine σ) (spans : List Span) (last : Text) (w : World σ) :
    let run := renderPieces e.writeToken (Cut.pieces ⟨spans, last⟩)
    value run w = Cut.remaining ⟨spans, last⟩ ∧ after run w = w.wrote e (Cut.writes ⟨spans, last⟩) := by
  induction spans generalizing w with
  | nil =>
    rw [Cut.pieces, List.flatMap_nil, List.nil_append, renderPieces_plain]
    exact ⟨(Cut.fill_nil last _).symm, rfl⟩
  | cons s spans ih =>
    have hrun : renderPieces e.writeToken (Cut.pieces ⟨s :: spans, last⟩) = do
        let left ← e.writeToken s.inner
        let t ← renderPieces e.writeToken (Cut.pieces ⟨spans, last⟩)
        return s.before ++ (left ++ t) := by
      simp [Cut.pieces, renderPieces]
    have hwrites : Cut.writes ⟨s :: spans, last⟩ = (FileWrite.ofToken? s.inner).toList ++ Cut.writes ⟨spans, last⟩ := by
      unfold Cut.writes
      cases h : FileWrite.ofToken? s.inner <;> simp [h]
    obtain ⟨hleft, hwrote⟩ := e.writeToken_spec s.inner w
    obtain ⟨hvalue, hafter⟩ := ih (after (e.writeToken s.inner) w)
    rw [hrun]
    refine ⟨?_, ?_⟩
    · show s.before ++ (value (e.writeToken s.inner) w ++ value _ (after (e.writeToken s.inner) w)) = _
      rw [hleft, hvalue, Cut.remaining_cons]
      rfl
    · rw [hwrites, World.wrote_append, ← hwrote, ← hafter]
      rfl

/-- Each text has tokens, and all of them are taken out of it, which leaves no doubled mark.  Those that ask for a
write are written once each and in their order, and neither what is left of the text nor what is written depends on the
host. -/
theorem writes_each_token_once (t : Text) :
    ∃ x : Cut, x.IsAtTokens t ∧ x.written writeOpening [] = t ∧ ¬ writeOpening <:+: x.remaining ∧
      (∀ s ∈ x.spans, FileWrite.Asked s.inner (FileWrite.ofToken? s.inner)) ∧
      ∀ (σ : Type) (e : Engine σ) (w : World σ),
        let run := renderPieces e.writeToken (markedPieces writeMark t)
        value run w = x.remaining ∧ after run w = w.wrote e x.writes := by
  obtain ⟨x, hx, hpieces⟩ := Cut.exists_isAtTokens t
  refine ⟨x, hx, hx.written, hx.no_mark_remaining, fun s _ => FileWrite.asked_ofToken? s.inner, fun σ e w => ?_⟩
  rw [hpieces]
  exact renderPieces_writes e x.spans x.last w

end DirectiveEngine
