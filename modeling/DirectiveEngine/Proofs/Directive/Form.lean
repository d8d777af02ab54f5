import DirectiveEngine.Directive.Parse
import DirectiveEngine.Proofs.Text.Search
import DirectiveEngine.Proofs.Text.Trim

/-!
# Forms of directives

Once the markers and the marks in front are taken out of an action, the text that is left has one of a few forms
(`Directive.Form`).  The form alone decides what the directive does and what its body is, but a loop marker takes the
place of any form other than a message.  What reading yields is said here once (`Directive.parse_isRead`), so that
nothing else has to follow it through its stages.
-/

namespace DirectiveEngine

variable {raw t : Text}

namespace Directive

/-! ### What is left of an action -/

/-- What is left of an action when its markers are taken out, without a slash in front. -/
def unmarked (raw : Text) : Text :=
  (takeMark '/' (Text.trim (takeWeight (takeGate (takeDelay (takeLoop raw.trim).2).2).2).2)).2

/-- What follows the marks for the console and for quiet. -/
def behindMarks (t : Text) : Text :=
  (takeMark '-' (takeMark '-' (takeMark '!' t).2).2).2

/-! ### Forms -/

/-- What a directive can be read as, by the text that is left. -/
inductive Form (raw : Text) (d : Directive) : Prop
  | message (rest : Text) (text : unmarked raw = "#message" ++ rest) (kind : d.kind = .message (parseMessage rest))
      (marks : d.asConsole = false ∧ d.quiet = false) (body : d.body = [])
  | loop (spec : Option LoopSpec) (kind : d.kind = .loop spec) (body : d.body.trim = d.body)
  | assignment (rest : Text) (kind : d.kind = .assignment (parseAssignment? rest)) (body : d.body = [])
  | hostCall (rest : Text) (text : behindMarks (unmarked raw) = '$' :: rest)
      (kind : d.kind = .hostCall (splitCapture rest).2) (body : d.body = Text.trim (splitCapture rest).1)
  | webhook (rest : Text) (text : behindMarks (unmarked raw) = '%' :: rest)
      (kind : d.kind = .webhook (WebhookSpec.parse? rest)) (body : d.body = Text.trim rest)
  | command (kind : d.kind = .command) (body : d.body = (behindMarks (unmarked raw)).trim)

theorem Form.trim_body {d : Directive} (h : Form raw d) : d.body.trim = d.body := by
  cases h with
  | message _ _ _ _ body => rw [body]; rfl
  | loop _ _ body => exact body
  | assignment _ _ body => rw [body]; rfl
  | hostCall _ _ _ body => rw [body, Text.trim_trim]
  | webhook _ _ _ body => rw [body, Text.trim_trim]
  | command _ body => rw [body, Text.trim_trim]

private theorem parsePlain_cases (t : Text) :
    (∃ rest, t = '$' :: rest ∧ parsePlain t = (.hostCall (splitCapture rest).2, Text.trim (splitCapture rest).1)) ∨
      (∃ rest, t = '%' :: rest ∧ parsePlain t = (.webhook (WebhookSpec.parse? rest), Text.trim rest)) ∨
        parsePlain t = (.command, t.trim) := by
  unfold parsePlain
  split
  · rename_i rest
    refine .inl ⟨rest, rfl, ?_⟩
    cases splitCapture rest
    rfl
  · exact .inr (.inl ⟨_, rfl, rfl⟩)
  · exact .inr (.inr rfl)

private theorem parseMarked_cases (t : Text) :
    (∃ rest, (parseMarked t).2.2 = (.assignment (parseAssignment? rest), [])) ∨
      (parseMarked t).2.2 = parsePlain (behindMarks t) := by
  unfold parseMarked
  simp only
  split
  · exact .inl ⟨_, rfl⟩
  · exact .inr rfl

private theorem form_of_parseMarked {d : Directive} (h : (parseMarked (unmarked raw)).2.2 = (d.kind, d.body)) :
    Form raw d := by
  rcases parseMarked_cases (unmarked raw) with ⟨rest, hmarked⟩ | hmarked
  · obtain ⟨hkind, hbody⟩ := Prod.mk.inj (h.symm.trans hmarked)
    exact .assignment rest hkind hbody
  · rcases parsePlain_cases (behindMarks (unmarked raw)) with ⟨rest, htext, hplain⟩ | ⟨rest, htext, hplain⟩ | hplain <;>
      obtain ⟨hkind, hbody⟩ := Prod.mk.inj (h.symm.trans (hmarked.trans hplain))
    · exact .hostCall rest htext hkind hbody
    · exact .webhook rest htext hkind hbody
    · exact .command hkind hbody

/-- The outcome of reading, stage by stage. -/
structure IsRead (raw : Text) (d : Directive) : Prop where
  raw_eq : d.raw = raw.trim
  weight? : ∃ t, d.weight? = (takeWeight t).1
  form : Form raw d

theorem parse_isRead (raw : Text) : IsRead raw (parse raw) := by
  rcases hloop : takeLoop raw.trim with ⟨loop, t₁⟩
  rcases hdelay : takeDelay t₁ with ⟨delay, t₂⟩
  rcases hgate : takeGate t₂ with ⟨gate, t₃⟩
  rcases hweight : takeWeight t₃ with ⟨weight?, t₄⟩
  have hunmarked : unmarked raw = (takeMark '/' t₄.trim).2 := by
    simp only [unmarked, hloop, hdelay, hgate, hweight]
  rcases hmarked : parseMarked (unmarked raw) with ⟨asConsole, quiet, kind, body⟩
  simp only [parse, hloop, hdelay, hgate, hweight]
  rw [← hunmarked, hmarked]
  split
  · rename_i rest hmessage
    exact ⟨rfl, ⟨t₃, by rw [hweight]⟩,
      .message rest (Text.eq_append_of_isPrefixOf? hmessage) rfl ⟨rfl, rfl⟩ rfl⟩
  · refine ⟨rfl, ⟨t₃, by rw [hweight]⟩, ?_⟩
    cases loop with
    | none => exact form_of_parseMarked (by rw [hmarked])
    | some spec =>
      -- the loop takes the place of what would be read without it, and keeps its body
      have hplain : Form raw { raw, delay, gate, asConsole, quiet, weight?, kind, body } :=
        form_of_parseMarked (by rw [hmarked])
      exact .loop spec rfl hplain.trim_body

end Directive

end DirectiveEngine
