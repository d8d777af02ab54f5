import DirectiveEngine.Directive.Record
import DirectiveEngine.Proofs.Directive.HostCall
import DirectiveEngine.Proofs.Directive.Webhook

/-!
# Well-formed directives

Reading never fails, and whatever the text is, the record of the directive that it yields keeps the conditions that
running it rests on (`Directive.parse_isWellFormed`): no two gates, a weight that can be drawn, trimmed texts, and parts
that belong together.  A record has a field for each part, so nothing but reading keeps them in step.
-/

namespace DirectiveEngine

namespace JsonValue

/-- The value of the first member of an object that has the name. -/
def member? (name : Text) : JsonValue → Option JsonValue
  | object members => members.lookup name
  | _ => none

/-- The value that names lead to, each a member of what the one before leads to. -/
def field? : List Text → JsonValue → Option JsonValue
  | [], v => some v
  | name :: names, v => (v.member? name).bind (field? names)

/-- A flag is set, or a value that may be missing is there. -/
def isSet : JsonValue → Bool
  | null => false
  | bool b => b
  | _ => true

/-- What is written in a record, which is a text with a property. -/
def IsText (p : Text → Prop) (v : JsonValue) : Prop :=
  ∃ t, v = string t ∧ p t

end JsonValue

namespace Directive

open JsonValue

/-- Where the gate of a directive is written. -/
def gateFields : List Text :=
  ["condition", "else_if_condition", "is_else"]

/-- What a record says of a directive fits together, and can be used. -/
structure IsWellFormed (record : JsonValue) : Prop where
  gate : (gateFields.countP fun name => (record.field? [name]).any isSet) ≤ 1
  weight : ∃ n, record.field? ["random_weight"] = some (int n) ∧ 1 ≤ n ∧
    (record.field? ["is_random"] = some (bool false) → n = 100)
  raw : ∃ v ∈ record.field? ["raw_text"], v.IsText fun t => t.trim = t
  body : ∃ v ∈ record.field? ["body"], v.IsText fun t => t.trim = t
  message : (record.field? ["kind", "Message"]).isSome →
    record.field? ["console_actor"] = some (bool false) ∧ record.field? ["suppress_output"] = some (bool false) ∧
      record.field? ["body"] = some (string [])
  assignment : (record.field? ["kind", "Assignment"]).isSome → record.field? ["body"] = some (string []) ∧
    (record.field? ["kind", "Assignment", "name"] = some null ↔
      record.field? ["kind", "Assignment", "value"] = some null)
  loop : record.field? ["kind", "Loop", "source"] = some null ↔ record.field? ["kind", "Loop", "variable"] = some null
  webhook : ∀ v ∈ record.field? ["kind", "Webhook", "url"],
    v.IsText fun url => url.trim = url ∧ url ≠ [] ∧ ¬ "::" <:+: url
  hostCall : ∀ v ∈ record.field? ["kind", "HostCall", "result_variable"],
    v = null ∨ v.IsText fun name => name.trim = name ∧ name ≠ []

/-! ### Fields -/

variable {d : Directive}

private theorem field?_kind (d : Directive) (names : List Text) :
    d.record.field? ("kind" :: names) = d.kind.record.field? names := rfl

private theorem of_message {kind : DirectiveKind} (h : (kind.record.field? ["Message"]).isSome) :
    ∃ spec, kind = .message spec := by
  cases kind with
  | message spec => exact ⟨spec, rfl⟩
  | command | hostCall | webhook | loop | assignment => cases h

private theorem of_assignment {kind : DirectiveKind} (h : (kind.record.field? ["Assignment"]).isSome) :
    ∃ spec, kind = .assignment spec := by
  cases kind with
  | assignment spec => exact ⟨spec, rfl⟩
  | command | message | hostCall | webhook | loop => cases h

private theorem of_webhook {kind : DirectiveKind} {v : JsonValue} (h : kind.record.field? ["Webhook", "url"] = some v) :
    ∃ spec, kind = .webhook (some spec) ∧ v = string spec.url := by
  cases kind with
  | webhook spec =>
    cases spec with
    | none => cases h
    | some spec => exact ⟨spec, rfl, (Option.some.inj h).symm⟩
  | command | message | hostCall | loop | assignment => cases h

private theorem of_hostCall {kind : DirectiveKind} {v : JsonValue}
    (h : kind.record.field? ["HostCall", "result_variable"] = some v) :
    ∃ capture, kind = .hostCall capture ∧ v = ofText? capture := by
  cases kind with
  | hostCall capture => exact ⟨capture, rfl, (Option.some.inj h).symm⟩
  | command | message | webhook | loop | assignment => cases h

/-- The two fields of a loop are written together, or not at all. -/
private theorem loop_fields (kind : DirectiveKind) :
    kind.record.field? ["Loop", "source"] = some null ↔ kind.record.field? ["Loop", "variable"] = some null := by
  cases kind with
  | loop spec =>
    cases spec with
    | none => exact iff_of_true rfl rfl
    | some spec => exact iff_of_false nofun nofun
  | command | message | hostCall | webhook | assignment => exact iff_of_false nofun nofun

private theorem assignment_fields (kind : DirectiveKind) :
    kind.record.field? ["Assignment", "name"] = some null ↔ kind.record.field? ["Assignment", "value"] = some null := by
  cases kind with
  | assignment spec =>
    cases spec with
    | none => exact iff_of_true rfl rfl
    | some spec => exact iff_of_false nofun nofun
  | command | message | hostCall | webhook | loop => exact iff_of_false nofun nofun

private theorem isSet_ofText? (t : Option Text) : (ofText? t).isSet = t.isSome := by
  cases t <;> rfl

/-- A gate is written in one field of the record. -/
private theorem count_gate (d : Directive) :
    (gateFields.countP fun name => (d.record.field? [name]).any isSet) ≤ 1 := by
  have hcondition : d.record.field? ["condition"] = some (ofText? d.condition?) := rfl
  have helse : d.record.field? ["else_if_condition"] = some (ofText? d.elseCondition?) := rfl
  have hother : d.record.field? ["is_else"] = some (bool d.isElse) := rfl
  simp only [gateFields, List.countP_cons, List.countP_nil, hcondition, helse, hother, Option.any_some, isSet_ofText?]
  unfold condition? elseCondition? isElse
  cases d.gate <;> simp [isSet]

/-! ### Parts -/

theorem parseWeight_pos (inner : Text) : 0 < parseWeight inner := by
  unfold parseWeight
  split
  · rename_i w
    cases h : (natural? maxWeight (Text.trim w)).filter (0 < ·) with
    | none => decide
    | some n => simpa using (Option.filter_eq_some_iff.1 h).2
  · decide

/-- What is taken for the weight of a member of the random group can be drawn. -/
theorem pos_of_takeWeight {t : Text} {n : Nat} (h : (takeWeight t).1 = some n) : 0 < n := by
  unfold takeWeight at h
  split at h
  · exact Option.some.inj h ▸ parseWeight_pos _
  · cases h

theorem capture_of_splitCapture {t name : Text} (h : (splitCapture t).2 = some name) :
    name.trim = name ∧ name ≠ [] := by
  rcases splitCapture_cases t with ⟨-, hsplit⟩ | ⟨_, word, _, -, -, hsplit⟩ <;> rw [hsplit] at h
  · cases h
  · obtain ⟨hne, rfl⟩ : word.trim ≠ [] ∧ word.trim = name := by simpa using h
    exact ⟨Text.trim_trim word, hne⟩

namespace Form

variable {raw : Text} (h : Form raw d)
include h

theorem of_message {spec : MessageSpec} (hkind : d.kind = .message spec) :
    d.asConsole = false ∧ d.quiet = false ∧ d.body = [] := by
  cases h with
  | message _ _ _ marks body => exact ⟨marks.1, marks.2, body⟩
  | loop _ kind | assignment _ kind | hostCall _ _ kind | webhook _ _ kind | command kind =>
    cases hkind.symm.trans kind

theorem of_assignment {spec : Option AssignmentSpec} (hkind : d.kind = .assignment spec) : d.body = [] := by
  cases h with
  | assignment _ _ body => exact body
  | message _ _ kind | loop _ kind | hostCall _ _ kind | webhook _ _ kind | command kind =>
    cases hkind.symm.trans kind

theorem of_webhook {spec : WebhookSpec} (hkind : d.kind = .webhook (some spec)) :
    spec.url.trim = spec.url ∧ spec.url ≠ [] ∧ ¬ "::" <:+: spec.url := by
  cases h with
  | webhook rest _ kind => exact WebhookSpec.url_of_parse? (DirectiveKind.webhook.inj (kind.symm.trans hkind))
  | message _ _ kind | loop _ kind | assignment _ kind | hostCall _ _ kind | command kind =>
    cases hkind.symm.trans kind

theorem of_hostCall {name : Text} (hkind : d.kind = .hostCall (some name)) : name.trim = name ∧ name ≠ [] := by
  cases h with
  | hostCall rest _ kind => exact capture_of_splitCapture (DirectiveKind.hostCall.inj (kind.symm.trans hkind))
  | message _ _ kind | loop _ kind | assignment _ kind | webhook _ _ kind | command kind =>
    cases hkind.symm.trans kind

end Form

/-! ### Whole directives -/

private theorem IsRead.weight {raw : Text} (h : IsRead raw d) : 1 ≤ d.weight ∧ (d.isRandom = false → d.weight = 100) := by
  obtain ⟨-, ⟨t, hweight⟩, -⟩ := h
  unfold Directive.weight isRandom
  cases h : d.weight? with
  | none => exact ⟨by decide, fun _ => rfl⟩
  | some n => exact ⟨pos_of_takeWeight (hweight.symm.trans h), nofun⟩

theorem IsRead.isWellFormed {raw : Text} (h : IsRead raw d) : IsWellFormed d.record := by
  obtain ⟨hpos, hweight⟩ := h.weight
  obtain ⟨hraw, -, hform⟩ := h
  constructor
  case gate => exact d.count_gate
  case weight =>
    refine ⟨d.weight, rfl, by omega, fun hrandom => ?_⟩
    have hflag : d.isRandom = false := JsonValue.bool.inj (Option.some.inj hrandom)
    exact_mod_cast hweight hflag
  case raw => exact ⟨_, rfl, d.raw, rfl, by simp only [hraw, Text.trim_trim]⟩
  case body => exact ⟨_, rfl, d.body, rfl, hform.trim_body⟩
  case message =>
    intro hmessage
    obtain ⟨spec, hkind⟩ := of_message (field?_kind d ["Message"] ▸ hmessage)
    obtain ⟨hconsole, hquiet, hbody⟩ := hform.of_message hkind
    exact ⟨congrArg (some ∘ bool) hconsole, congrArg (some ∘ bool) hquiet, congrArg (some ∘ string) hbody⟩
  case assignment =>
    intro hassignment
    obtain ⟨spec, hkind⟩ := of_assignment (field?_kind d ["Assignment"] ▸ hassignment)
    exact ⟨congrArg (some ∘ string) (hform.of_assignment hkind), assignment_fields d.kind⟩
  case loop => exact loop_fields d.kind
  case webhook =>
    intro v hv
    obtain ⟨spec, hkind, rfl⟩ := of_webhook (field?_kind d ["Webhook", "url"] ▸ hv)
    exact ⟨spec.url, rfl, hform.of_webhook hkind⟩
  case hostCall =>
    intro v hv
    obtain ⟨capture, hkind, rfl⟩ := of_hostCall (field?_kind d ["HostCall", "result_variable"] ▸ hv)
    cases capture with
    | none => exact .inl rfl
    | some name => exact .inr ⟨name, rfl, hform.of_hostCall hkind⟩

/-- The record of every text that is read is well-formed. -/
theorem parse_isWellFormed (raw : Text) : IsWellFormed (parse raw).record :=
  (parse_isRead raw).isWellFormed

/-- A message stays one behind a loop marker. -/
example : parse "[foreach:a:b]#message hi" =
    { raw := "[foreach:a:b]#message hi", delay := 0, gate := .always, asConsole := false, quiet := false,
      weight? := none, kind := .message ⟨none, some "hi", none⟩, body := [] } := by
  decide +kernel

end Directive

end DirectiveEngine
