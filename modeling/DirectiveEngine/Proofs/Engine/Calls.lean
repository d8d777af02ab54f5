import DirectiveEngine.Proofs.Engine.Sentinels
import DirectiveEngine.Proofs.Template.Alike

/-!
# Calls of the host

How often a host is asked to read, to write and to run, counted by kind.  Texts that differ in words without tokens, and
in what a write token writes, make the passes that act on the host ask for each as often (`sameCalls_act`).
-/

namespace DirectiveEngine

variable {σ : Type} {e : Engine σ} {w v v' : World σ} {t t' u u' : Text} {R : Text → Text → Prop}

open Run (after value)

/-! ### Counting -/

inductive Effect where
  | read
  | write
  | run
  deriving DecidableEq

/-- What an event asks of the files and processes of a host. -/
def Event.effect? : Event → Option Effect
  | read _ _ => some .read
  | write _ _ _ => some .write
  | process _ => some .run
  | _ => none

/-- How often a host was asked for an effect. -/
def World.calls (w : World σ) (x : Effect) : Nat :=
  w.history.countP fun entry => entry.2.effect? = some x

/-- A host was asked for each effect as often in one world as in another. -/
def SameCalls (v v' : World σ) : Prop :=
  ∀ x, v.calls x = v'.calls x

theorem calls_after_write (e : Engine σ) (file : FileWrite) (w : World σ) (x : Effect) :
    (after (e.write file) w).calls x = w.calls x + if x = .write then 1 else 0 := by
  have hcount := List.countP_cons (p := fun entry : Nat × Event => decide (entry.2.effect? = some x))
    (a := (w.now, .write file.path file.key file.value)) (l := w.history)
  cases x <;> exact hcount

/-- What related words have in common for the pass that reads: they are the same, or nothing is read in them. -/
def ReadsAlike (R : Text → Text → Prop) : Prop :=
  ∀ {u u'}, R u u' → u = u' ∨ ¬ [',', ','] <:+: u ∧ ¬ [',', ','] <:+: u'

/-- Alike texts read the same files, and stay alike. -/
theorem Alike.reads (h : Alike R t t') (hR : ReadsAlike R) (hrefl : ∀ u, R u u) (w : World σ) :
    let m := renderPieces e.readToken (markedPieces Engine.readMark t)
    let m' := renderPieces e.readToken (markedPieces Engine.readMark t')
    after m w = after m' w ∧ Alike R (value m w) (value m' w) := by
  have hword {u u' : Text} (hu : R u u') (w : World σ) :
      let m := renderPieces e.readToken (markedPieces Engine.readMark u)
      let m' := renderPieces e.readToken (markedPieces Engine.readMark u')
      after m w = after m' w ∧ R (value m w) (value m' w) := by
    rcases hR hu with rfl | ⟨hnone, hnone'⟩
    · exact ⟨rfl, hrefl _⟩
    · simp only [markedPieces_of_absent (c := Engine.readMark) hnone,
        markedPieces_of_absent (c := Engine.readMark) hnone', renderPieces_plain]
      exact ⟨rfl, hu⟩
  induction h generalizing w with
  | last hu => exact ⟨(hword hu w).1, .last (hword hu w).2⟩
  | border hu hx _ ih =>
    obtain ⟨hends, hmark⟩ := isBorder_iff.1 hx
    obtain ⟨hafter, hvalue⟩ := hword hu w
    simp only [renderPieces_append_cons _ hends (c := Engine.readMark) hmark, Run.after_bind, Run.value_bind]
    rw [hafter]
    exact ⟨(ih _).1, .border hvalue hx (ih _).2⟩

/-! ### Writing -/

theorem FileWrite.isSome_ofToken? {inner : Text} (h : "::" <:+: inner) : (FileWrite.ofToken? inner).isSome := by
  obtain ⟨⟨a, b⟩, hsplit⟩ := Option.isSome_iff_exists.1 ((Text.contains_iff (by simp)).2 h)
  unfold FileWrite.ofToken? Text.splitUpTo
  rw [hsplit]
  simp only [Text.splitUpTo]
  cases Text.splitFirst? "::" b <;> rfl

/-- A write token asks for one write if it has a value, and leaves nothing. -/
theorem calls_after_writeToken (e : Engine σ) (inner : Text) (w : World σ) (x : Effect) :
    (after (e.writeToken inner) w).calls x =
      w.calls x + if x = .write ∧ (FileWrite.ofToken? inner).isSome then 1 else 0 := by
  unfold Engine.writeToken
  cases FileWrite.ofToken? inner with
  | none =>
    simp only [Option.isSome_none, Bool.false_eq_true, and_false, if_false, Nat.add_zero]
    rfl
  | some file =>
    simp only [Option.isSome_some, and_true]
    exact calls_after_write e file w x

theorem value_writeToken (e : Engine σ) (inner : Text) (w : World σ) : value (e.writeToken inner) w = [] := by
  unfold Engine.writeToken
  cases FileWrite.ofToken? inner <;> rfl

/-- What the pieces of a text ask for does not depend on the world, nor does what is left of them. -/
theorem sameCalls_writes (ps : List Piece) (h : SameCalls v v') :
    SameCalls (after (renderPieces e.writeToken ps) v) (after (renderPieces e.writeToken ps) v') ∧
      value (renderPieces e.writeToken ps) v = value (renderPieces e.writeToken ps) v' := by
  induction ps generalizing v v' with
  | nil => exact ⟨h, rfl⟩
  | cons piece ps ih =>
    cases piece with
    | plain t => exact ⟨(ih h).1, congrArg (t ++ ·) (ih h).2⟩
    | token inner =>
      have htoken : SameCalls (after (e.writeToken inner) v) (after (e.writeToken inner) v') := fun x => by
        rw [calls_after_writeToken, calls_after_writeToken, h x]
      obtain ⟨hcalls, hvalue⟩ := ih htoken
      refine ⟨hcalls, ?_⟩
      simp only [renderPieces, Run.value_bind, value_writeToken, hvalue]
      rfl

/-- The front of a write token, up to what is written. -/
structure IsHead (p : Text) : Prop where
  chars : ∀ c ∈ p, endsToken c = false ∧ c ≠ '%'
  separator : "::" <:+: p

instance (p : Text) : Decidable (IsHead p) :=
  have : Decidable (∀ c ∈ p, endsToken c = false ∧ c ≠ '%') :=
    List.decidableBAll (fun c => endsToken c = false ∧ c ≠ '%') p
  decidable_of_iff ((∀ c ∈ p, endsToken c = false ∧ c ≠ '%') ∧ Text.contains "::" p = true)
    ⟨fun h => ⟨h.1, (Text.contains_iff (by simp)).1 h.2⟩,
      fun h => ⟨h.chars, (Text.contains_iff (by simp)).2 h.separator⟩⟩

/-- A text without parentheses and marks of file tokens. -/
structure IsCalm (t : Text) : Prop extends IsQuiet t where
  level : IsLevel t

theorem IsCalm.subtext (h : IsCalm t) (hu : u <:+: t) : IsCalm u :=
  ⟨h.toIsQuiet.subtext hu, fun c hc => h.level c (hu.subset hc)⟩

theorem IsCalm.alike (hu : IsCalm u) (hu' : IsCalm u') : WordsAlike u u' :=
  ⟨.of_level hu.level hu'.level, .inr ⟨hu.toIsQuiet, hu'.toIsQuiet⟩⟩

/-- Two words that are alike, or write tokens with one head that write calm texts. -/
inductive DraftsAlike : Text → Text → Prop
  | word {u u' : Text} : WordsAlike u u' → DraftsAlike u u'
  | token {p v v' : Text} : IsHead p → IsCalm v → IsCalm v' → DraftsAlike (";;" ++ p ++ v) (";;" ++ p ++ v')

theorem DraftsAlike.reads : ReadsAlike DraftsAlike := by
  rintro u u' (hword | ⟨hp, hv, hv'⟩)
  · exact hword.eq_or_quiet.imp id fun h => ⟨h.1.reads, h.2.reads⟩
  · rename_i p _ _
    have hcomma : ',' ∉ ";;" ++ p := by
      have hp : ',' ∉ p := fun hmem => absurd (hp.chars ',' hmem).1 (by decide)
      simpa using hp
    exact .inr ⟨fun h => hv.reads (Text.infix_of_infix_append hcomma h),
      fun h => hv'.reads (Text.infix_of_infix_append hcomma h)⟩

private theorem splitToken_head {p : Text} (hp : IsHead p) (v : Text) :
    splitToken (p ++ v) = (p ++ (splitToken v).1, (splitToken v).2) := by
  have hall : ∀ c ∈ p, (!endsToken c) = true := fun c hc => by simp [(hp.chars c hc).1]
  rw [splitToken, splitToken, List.takeWhile_append_of_pos hall, List.dropWhile_append_of_pos hall]

/-- A write token with a head is one write, and leaves what stands behind the first end in its text. -/
private theorem render_head {p v : Text} (hp : IsHead p) (hv : IsCalm v) (w : World σ) :
    let m := renderPieces e.writeToken (markedPieces Engine.writeMark (";;" ++ p ++ v))
    (∀ x, (after m w).calls x = w.calls x + if x = .write then 1 else 0) ∧ value m w = (splitToken v).2 := by
  have hrest : IsCalm (splitToken v).2 := hv.subtext (List.dropWhile_suffix _).isInfix
  have hopen : Text.splitFirst? [Engine.writeMark, Engine.writeMark] (";;" ++ p ++ v) = some ([], p ++ v) := by
    rw [List.append_assoc]
    exact Text.splitFirst?_append_self (by simp) _
  have hinner : (FileWrite.ofToken? (p ++ (splitToken v).1)).isSome :=
    FileWrite.isSome_ofToken? (hp.separator.trans (List.prefix_append _ _).isInfix)
  have hpieces := markedPieces_of_some hopen
  rw [splitToken_head hp, markedPieces_of_absent (c := Engine.writeMark) hrest.writes] at hpieces
  simp only [hpieces]
  refine ⟨fun x => ?_, ?_⟩
  · have htoken := calls_after_writeToken e (p ++ (splitToken v).1) w x
    simp only [hinner, and_true] at htoken
    exact htoken
  · simp only [renderPieces, Run.value_bind, value_writeToken]
    show [] ++ ([] ++ ((splitToken v).2 ++ [])) = _
    simp

/-- Alike drafts ask for equally many writes, and leave alike words. -/
theorem Alike.writes (h : Alike DraftsAlike t t') (hcalls : SameCalls v v') :
    let m := renderPieces e.writeToken (markedPieces Engine.writeMark t)
    let m' := renderPieces e.writeToken (markedPieces Engine.writeMark t')
    SameCalls (after m v) (after m' v') ∧ Alike WordsAlike (value m v) (value m' v') := by
  have hword {u u' : Text} (hu : DraftsAlike u u') {v v' : World σ} (hcalls : SameCalls v v') :
      let m := renderPieces e.writeToken (markedPieces Engine.writeMark u)
      let m' := renderPieces e.writeToken (markedPieces Engine.writeMark u')
      SameCalls (after m v) (after m' v') ∧ WordsAlike (value m v) (value m' v') := by
    cases hu with
    | word hu =>
      rcases hu.eq_or_quiet with rfl | ⟨hquiet, hquiet'⟩
      · obtain ⟨hcalls, hvalue⟩ := sameCalls_writes (e := e) (markedPieces Engine.writeMark u) hcalls
        exact ⟨hcalls, hvalue ▸ .refl _⟩
      · simp only [markedPieces_of_absent (c := Engine.writeMark) hquiet.writes,
          markedPieces_of_absent (c := Engine.writeMark) hquiet'.writes, renderPieces_plain]
        exact ⟨hcalls, hu⟩
    | token hp hs hs' =>
      obtain ⟨hcount, hvalue⟩ := render_head (e := e) hp hs v
      obtain ⟨hcount', hvalue'⟩ := render_head (e := e) hp hs' v'
      refine ⟨fun x => by rw [hcount, hcount', hcalls x], ?_⟩
      rw [hvalue, hvalue']
      exact (hs.subtext (List.dropWhile_suffix _).isInfix).alike (hs'.subtext (List.dropWhile_suffix _).isInfix)
  induction h generalizing v v' with
  | last hu => exact ⟨(hword hu hcalls).1, .last (hword hu hcalls).2⟩
  | border hu hx _ ih =>
    obtain ⟨hends, -⟩ := isBorder_iff.1 hx
    have hmark := ne_of_isBorder hx (c := Engine.writeMark) (by decide)
    obtain ⟨hword, hvalue⟩ := hword hu hcalls
    simp only [renderPieces_append_cons _ hends (c := Engine.writeMark) hmark, Run.after_bind, Run.value_bind]
    exact ⟨(ih hword).1, .border hvalue hx (ih hword).2⟩

/-! ### Running -/

end DirectiveEngine
