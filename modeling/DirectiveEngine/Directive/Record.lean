import DirectiveEngine.Directive.Basic
import DirectiveEngine.Json.Value

/-!
# Directives as JSON

The record of a directive, with every field present.  A field that the directive lacks is null.
-/

namespace DirectiveEngine

open JsonValue

def WebhookSpec.record (s : WebhookSpec) : JsonValue :=
  object
    [("url", string s.url),
     ("headers", object (s.headers.map fun h => (h.1, string h.2))),
     ("body", string s.body),
     ("store_variable", ofText? s.capture),
     ("silent", bool s.silent),
     ("dynamic_store_name", bool s.dynamicCapture)]

def DirectiveKind.record : DirectiveKind → JsonValue
  | .command => string "Command"
  | .message m =>
    object [("Message",
      object [("style", ofText? m.style), ("text", ofText? m.text), ("target", ofText? m.target)])]
  | .hostCall capture => object [("HostCall", object [("result_variable", ofText? capture)])]
  | .webhook spec => object [("Webhook", (spec.map WebhookSpec.record).getD null)]
  | .loop spec =>
    object [("Loop",
      object [("source", ofText? (spec.map LoopSpec.source)), ("variable", ofText? (spec.map LoopSpec.item))])]
  | .assignment spec =>
    object [("Assignment",
      object
        [("name", ofText? (spec.map AssignmentSpec.name)),
         ("value", ofText? (spec.map AssignmentSpec.value)),
         ("suppress_output", bool ((spec.map AssignmentSpec.quiet).getD false))])]

namespace Directive

/-- The condition written with `if`. -/
def condition? (d : Directive) : Option Text :=
  match d.gate with
  | .whenever c => some c
  | _ => none

/-- The condition written with `else if`. -/
def elseCondition? (d : Directive) : Option Text :=
  match d.gate with
  | .elseWhen c => some c
  | _ => none

def isElse (d : Directive) : Bool :=
  d.gate == .otherwise

def record (d : Directive) : JsonValue :=
  object
    [("raw_text", string d.raw),
     ("delay", int d.delay),
     ("condition", ofText? d.condition?),
     ("else_if_condition", ofText? d.elseCondition?),
     ("is_else", bool d.isElse),
     ("console_actor", bool d.asConsole),
     ("suppress_output", bool d.quiet),
     ("is_random", bool d.isRandom),
     ("random_weight", int d.weight),
     ("kind", d.kind.record),
     ("body", string d.body)]

end Directive
end DirectiveEngine
