import DirectiveEngine.Proofs.Template.Unescape

/-!
# Nothing left to escape

The passes that protect escapes run one after the other, each over the whole text.  What a pass puts in the place of its
pairs has no backslash and starts with a NUL, so it makes no pair, neither with what stands in front of it nor behind
it, and what a pass has taken away stays away (`pair_of_protectBy`).  So a protected text has no escape in it, whatever
backslashes and sentinels it was made from, and protecting it again changes nothing (`protect_leaves_no_escape`).
-/

namespace DirectiveEngine

variable {c : Char} {es : List Escape} {t : Text}

/-- A backslash stands in front of a character that it takes the meaning from. -/
def HasEscape (t : Text) : Prop :=
  ∃ c ∈ [' ', '\n', '\\', '|', '%', ':', '[', ']'], ['\\', c] <:+: t

theorem hasEscape_iff : HasEscape t ↔ ∃ e ∈ escapes, e.written <:+: t := by
  simp [HasEscape, escapes]

/-! ### Passes -/

/-- A pass takes its own pairs away and brings in none. -/
theorem pair_of_pass {e : Escape} (he : e ∈ escapes) (hc : c ≠ '\x00')
    (h : ['\\', c] <:+: Text.replaceAll e.written e.sentinel t) : e.written ≠ ['\\', c] ∧ ['\\', c] <:+: t := by
  obtain ⟨d, hd⟩ := exists_written he
  have hsentinel := sentinel_eq e he
  have hhead : e.sentinel.head? ≠ some c := by
    rw [hsentinel]
    exact fun heq => hc (Option.some.inj heq).symm
  rw [hd] at h
  obtain ⟨hcd, hin⟩ := Text.pair_of_infix_replaceAll (backslash_not_mem_sentinel e he) (by simp [hsentinel]) hhead h
  exact ⟨by simpa [hd] using hcd.symm, hin⟩

/-- A pair behind some passes was there before, and none of them was its own. -/
theorem pair_of_protectBy (hes : ∀ e ∈ es, e ∈ escapes) (hc : c ≠ '\x00') (h : ['\\', c] <:+: protectBy es t) :
    (∀ e ∈ es, e.written ≠ ['\\', c]) ∧ ['\\', c] <:+: t := by
  induction es generalizing t with
  | nil => exact ⟨by simp, h⟩
  | cons e es ih =>
    obtain ⟨hlater, hpair⟩ := ih (fun b hb => hes b (List.mem_cons_of_mem _ hb)) h
    obtain ⟨hne, hin⟩ := pair_of_pass (hes e List.mem_cons_self) hc hpair
    exact ⟨List.forall_mem_cons.2 ⟨hne, hlater⟩, hin⟩

/-! ### All passes -/

theorem not_hasEscape_protect (t : Text) : ¬ HasEscape (protect t) := by
  rw [hasEscape_iff]
  rintro ⟨e, he, hin⟩
  obtain ⟨c, hwritten⟩ := exists_written he
  have hnul : ∀ e ∈ escapes, '\x00' ∉ e.written := by decide
  have hc : c ≠ '\x00' := fun hc => hnul e he (by simp [hwritten, hc])
  rw [hwritten] at hin
  exact (pair_of_protectBy (fun _ hb => hb) hc hin).1 e he hwritten

theorem protect_eq_self_iff : protect t = t ↔ ¬ HasEscape t := by
  constructor
  · intro heq
    rw [← heq]
    exact not_hasEscape_protect t
  · intro hnone
    exact protect_eq_self fun e he hin => hnone (hasEscape_iff.2 ⟨e, he, hin⟩)

/-- A protected text has no escape in it, so that protecting it again changes nothing.  A text stays as it is if and
only if it has none, and a text without a NUL has nothing to restore. -/
theorem protect_leaves_no_escape (t : Text) :
    ¬ HasEscape (protect t) ∧ protect (protect t) = protect t ∧ (protect t = t ↔ ¬ HasEscape t) ∧
      ('\x00' ∉ t → restore t = t) :=
  ⟨not_hasEscape_protect t, protect_eq_self_iff.2 (not_hasEscape_protect t), protect_eq_self_iff, restore_of_not_mem⟩

/-- A blank and a bar behind runs of backslashes. -/
theorem protect_leaves_no_escape_runs :
    let t : Text := "a\\\\\\ b\\\\\\|c\\"
    '\x00' ∉ t ∧ ¬ HasEscape (protect t) ∧ protect (protect t) = protect t ∧ restore t = t := by
  intro t
  have hnul : '\x00' ∉ t := by decide
  obtain ⟨hnone, htwice, -, hrestore⟩ := protect_leaves_no_escape t
  exact ⟨hnul, hnone, htwice, hrestore hnul⟩

end DirectiveEngine
