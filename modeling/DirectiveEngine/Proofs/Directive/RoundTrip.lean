import DirectiveEngine.Proofs.Directive.Marker

/-!
# Reading back what is written

A directive is written as a heading, a slash or none, and a body.  Whatever the order of its markers, the parser gives
back what was meant (`parse_written`).
-/

namespace DirectiveEngine

/-! ### Bodies -/

/-- What a directive does when it is no message. -/
inductive Content where
  | command (text : Text)
  | assignment (spec : AssignmentSpec)
  | hostCall (line : Text) (capture : Option Text)

namespace Content

def written : Content → Text
  | command text => text
  | assignment spec => '+' :: (spec.name ++ (if spec.quiet then ['~'] else []) ++ ':' :: spec.value)
  | hostCall line none => '$' :: line
  | hostCall line (some name) => '$' :: (line ++ " >>" ++ name)

def kind : Content → DirectiveKind
  | command _ => .command
  | assignment spec => .assignment (some spec)
  | hostCall _ capture => .hostCall capture

def body : Content → Text
  | command text => text
  | assignment _ => []
  | hostCall line _ => line

def IsWellFormed : Content → Prop
  | command text =>
    Text.trim text = text ∧ text ≠ [] ∧ '[' ∉ text ∧ (∀ c ∈ text.head?, c ∉ ['/', '!', '-', '+', '$', '%']) ∧
      ¬ "#message" <+: text
  | assignment spec =>
    (Text.trim spec.name = spec.name ∧ spec.name ≠ [] ∧ '[' ∉ spec.name ∧ ':' ∉ spec.name ∧
      spec.name.getLast? ≠ some '~') ∧ Text.trim spec.value = spec.value ∧ '[' ∉ spec.value
  | hostCall line capture =>
    (Text.trim line = line ∧ '[' ∉ line ∧ ¬ ">>" <:+: line) ∧
      ∀ name ∈ capture, name ≠ [] ∧ (∀ c ∈ name, isBlank c = false) ∧ '[' ∉ name

end Content

inductive Body where
  | message (target : Option Text) (style text : Text)
  | marked (asConsole quiet : Bool) (content : Content)

namespace Body

def written : Body → Text
  | message none style text => "#message:" ++ style ++ ':' :: text
  | message (some target) style text => "#message@" ++ target ++ ':' :: (style ++ ':' :: text)
  | marked asConsole quiet content =>
    (if asConsole then ['!'] else []) ++ ((if quiet then ['-'] else []) ++ content.written)

/-- A name of a player or a style. -/
def IsLabel (t : Text) : Prop :=
  Text.trim t = t ∧ t ≠ [] ∧ ':' ∉ t ∧ '[' ∉ t

def IsWellFormed : Body → Prop
  | message target style text =>
    (∀ name ∈ target, IsLabel name) ∧ IsLabel style ∧ Text.trim text = text ∧ '[' ∉ text
  | marked _ _ content => content.IsWellFormed

end Body

/-- What a heading and a body mean together.  A loop takes the place of all kinds but a message. -/
def Heading.directive (h : Heading) (raw : Text) : Body → Directive
  | .message target style text =>
    { raw, delay := h.delay?.getD 0, gate := h.gate, asConsole := false, quiet := false, weight? := h.weight?
      kind := .message ⟨some style, some text, target⟩, body := [] }
  | .marked asConsole quiet content =>
    { raw, delay := h.delay?.getD 0, gate := h.gate, asConsole, quiet, weight? := h.weight?
      kind := (h.loop?.map fun spec => .loop (some spec)).getD content.kind, body := content.body }

/-- A directive as written. -/
def writtenDirective (ms : List (Marker × Text)) (slash : Bool) (b : Body) : Text :=
  (ms.flatMap fun x => x.1.written ++ x.2) ++ ((if slash then ['/'] else []) ++ b.written)

/-! ### Ends -/

/-- A trimmed text without an opening bracket, such as follows a heading. -/
structure IsTail (t : Text) : Prop where
  trim : Text.trim t = t
  ne_nil : t ≠ []
  bracket : '[' ∉ t

/-- Between a character and a trimmed text anything may stand. -/
private theorem IsTail.of_append {c : Char} {a b : Text} (hc : isBlank c = false) (hb : Text.trim b = b)
    (hne : b ≠ []) (hbracket : '[' ∉ c :: a ++ b) : IsTail (c :: a ++ b) :=
  ⟨Text.trim_append (by simpa using hc) hb hne, by simp, hbracket⟩

private theorem Content.isTail {x : Content} (hx : x.IsWellFormed) : IsTail x.written := by
  cases x with
  | command text => exact ⟨hx.1, hx.2.1, hx.2.2.1⟩
  | assignment spec =>
    obtain ⟨⟨-, -, hname, -, -⟩, hvalue, hbracket⟩ := hx
    refine .of_append (by decide) (Text.trim_cons (by decide) hvalue) (by simp) ?_
    cases spec.quiet <;> simp [hname, hbracket]
  | hostCall line capture =>
    obtain ⟨⟨hline, hbracket, -⟩, hname⟩ := hx
    cases capture with
    | none => exact ⟨Text.trim_cons (by decide) hline, by simp [written], by simp [written, hbracket]⟩
    | some name =>
      obtain ⟨hne, hblank, hnameBracket⟩ := hname name rfl
      refine .of_append (by decide) (Text.trim_of_not_isBlank hblank) hne ?_
      simp [hbracket, hnameBracket]

private theorem IsTail.mark {c : Char} {t : Text} (ht : IsTail t) (hc : isBlank c = false)
    (hbracket : c ≠ '[') (b : Bool) : IsTail ((if b then [c] else []) ++ t) := by
  cases b with
  | false => exact ht
  | true => exact ⟨Text.trim_cons hc ht.trim, by simp, by simp [hbracket.symm, ht.bracket]⟩

theorem Body.isTail {b : Body} (hb : b.IsWellFormed) : IsTail b.written := by
  cases b with
  | message target style text =>
    obtain ⟨htarget, ⟨-, -, -, hstyle⟩, htext, hbracket⟩ := hb
    have hend : Text.trim (':' :: text) = ':' :: text := Text.trim_cons (by decide) htext
    cases target with
    | none =>
      have hwritten : Body.written (.message none style text) = '#' :: ("message:" ++ style) ++ ':' :: text := rfl
      rw [hwritten]
      refine .of_append (by decide) hend (by simp) ?_
      simp [hstyle, hbracket]
    | some name =>
      obtain ⟨-, -, -, hname⟩ := htarget name rfl
      have hwritten : Body.written (.message (some name) style text) =
          '#' :: ("message@" ++ name ++ ':' :: style) ++ ':' :: text := by
        change "#message@" ++ name ++ ':' :: (style ++ ':' :: text) = _
        simp
      rw [hwritten]
      refine .of_append (by decide) hend (by simp) ?_
      simp [hname, hstyle, hbracket]
  | marked asConsole quiet content =>
    exact ((Content.isTail hb).mark (by decide) (by decide) quiet).mark (by decide) (by decide) asConsole

/-! ### Marks -/

open Directive (takeMark)

private theorem takeMark_append {mark : Char} {t : Text} (ht : t.head? ≠ some mark) (b : Bool) :
    takeMark mark ((if b then [mark] else []) ++ t) = (b, t) := by
  cases b with
  | true => simp [takeMark]
  | false =>
    cases t with
    | nil => rfl
    | cons c t =>
      have hc : c ≠ mark := fun h => ht (congrArg some h)
      simp [takeMark, hc]

private theorem Content.head_ne {x : Content} (hx : x.IsWellFormed) :
    ∀ c ∈ ['/', '!', '-'], x.written.head? ≠ some c := by
  intro c hc hhead
  cases x with
  | command text => exact hx.2.2.2.1 c hhead (List.mem_append_left ['+', '$', '%'] hc)
  | assignment spec =>
    obtain rfl : '+' = c := Option.some.inj hhead
    exact absurd hc (by decide)
  | hostCall line capture =>
    obtain rfl : '$' = c := by cases capture <;> exact Option.some.inj hhead
    exact absurd hc (by decide)

private theorem Body.head_ne {b : Body} (hb : b.IsWellFormed) : b.written.head? ≠ some '/' := by
  cases b with
  | message target style text =>
    have hhead : (Body.message target style text).written.head? = some '#' := by cases target <;> rfl
    rw [hhead]
    decide
  | marked asConsole quiet content =>
    cases asConsole with
    | true =>
      have hhead : (Body.marked true quiet content).written.head? = some '!' := rfl
      rw [hhead]
      decide
    | false =>
      cases quiet with
      | true =>
        have hhead : (Body.marked false true content).written.head? = some '-' := rfl
        rw [hhead]
        decide
      | false => exact Content.head_ne hb '/' (by simp)

/-! ### Reading bodies -/

/-- Blanks around the parts are left out. -/
theorem splitAtColon?_of_not_mem {a : Text} (hne : a ≠ []) (hcolon : ':' ∉ a) (b : Text) :
    Directive.splitAtColon? (a ++ ':' :: b) = some (a.trim, b.trim) := by
  have hsplit : Text.splitFirst? ":" (a ++ ':' :: b) = some (a, b) := Text.splitFirst?_of_not_mem hcolon [] b
  obtain ⟨c, r, rfl⟩ := List.exists_cons_of_ne_nil hne
  rw [Directive.splitAtColon?, hsplit]

private theorem splitAtColon?_append {a b : Text} (hne : a ≠ []) (hcolon : ':' ∉ a) (ha : Text.trim a = a)
    (hb : Text.trim b = b) : Directive.splitAtColon? (a ++ ':' :: b) = some (a, b) := by
  rw [splitAtColon?_of_not_mem hne hcolon, ha, hb]

private theorem parseAssignment?_written {spec : AssignmentSpec} (hx : (Content.assignment spec).IsWellFormed) :
    Directive.parseAssignment? (spec.name ++ (if spec.quiet then ['~'] else []) ++ ':' :: spec.value) =
      some spec := by
  obtain ⟨⟨hname, hne, -, hcolon, htilde⟩, hvalue, -⟩ := hx
  cases hq : spec.quiet with
  | false =>
    have hlast : Text.stripLast? '~' spec.name = none := if_neg htilde
    have hsplit := splitAtColon?_append hne hcolon hname hvalue
    rw [Directive.parseAssignment?, if_neg Bool.false_ne_true, List.append_nil, hsplit]
    simp [hlast, ← hq]
  | true =>
    have hlast : Text.stripLast? '~' (spec.name ++ ['~']) = some spec.name := by simp [Text.stripLast?]
    have htrim : Text.trim (spec.name ++ ['~']) = spec.name ++ ['~'] :=
      Text.trim_append (Text.trim_eq_self_iff.1 hname).1 rfl (by simp)
    have hsplit := splitAtColon?_append (by simp) (by simpa using hcolon) htrim hvalue
    rw [Directive.parseAssignment?, if_pos rfl, hsplit]
    simp [hlast, ← hq]

private theorem splitCapture_written {line name : Text} (hline : ¬ ">>" <:+: line) (hne : name ≠ [])
    (hname : ∀ c ∈ name, isBlank c = false) :
    Directive.splitCapture (line ++ " >>" ++ name) = (line ++ " ", some name) := by
  have hsplit : Text.splitFirst? ">>" (line ++ ' ' :: (">>" ++ name)) = some (line ++ " ", name) := by
    rw [Text.splitFirst?_append_cons (by simp) (by decide), Text.splitFirst?_of_not_infix hline,
      Text.splitFirst?_append_self (by simp)]
    rfl
  have hword : name.takeWhile (· != ' ') = name := by
    refine List.takeWhile_eq_self_iff.2 fun c hc => bne_iff_ne.2 ?_
    rintro rfl
    exact absurd (hname _ hc) (by decide)
  have hwritten : line ++ " >>" ++ name = line ++ ' ' :: (">>" ++ name) := by simp
  rw [hwritten, Directive.splitCapture, hsplit]
  simp [hword, Text.trim_of_not_isBlank hname, hne]

private theorem parseMessage_written {target : Option Text} {style text : Text}
    (hb : (Body.message target style text).IsWellFormed) :
    ∃ rest, Text.stripPrefix? "#message" (Body.message target style text).written = some rest ∧
      Directive.parseMessage rest = ⟨some style, some text, target⟩ := by
  obtain ⟨htarget, ⟨hstyle, hne, hcolon, -⟩, htext, -⟩ := hb
  have hsplit := splitAtColon?_append hne hcolon hstyle htext
  cases target with
  | none =>
    refine ⟨':' :: (style ++ ':' :: text), Text.isPrefixOf?_append_self "#message" _, ?_⟩
    simp [Directive.parseMessage, Directive.takeTarget, hsplit]
  | some name =>
    obtain ⟨hname, hnameNe, hnameColon, -⟩ := htarget name rfl
    obtain ⟨c, r, hcons⟩ := List.exists_cons_of_ne_nil hnameNe
    have hcut : Text.splitFirst? ":" (name ++ ':' :: (style ++ ':' :: text)) = some (name, style ++ ':' :: text) :=
      Text.splitFirst?_of_not_mem hnameColon [] _
    have htake : Directive.takeTarget ('@' :: (name ++ ':' :: (style ++ ':' :: text))) =
        (some name, style ++ ':' :: text) := by
      rw [Directive.takeTarget, hcut, hcons]
      simp only
      rw [← hcons, hname]
    refine ⟨'@' :: (name ++ ':' :: (style ++ ':' :: text)), Text.isPrefixOf?_append_self "#message" _, ?_⟩
    rw [Directive.parseMessage, htake]
    simp [hsplit]

private theorem parsePlain_written {x : Content} (hx : x.IsWellFormed) (hkind : ∀ spec, x ≠ .assignment spec) :
    Directive.parsePlain x.written = (x.kind, x.body) := by
  cases x with
  | assignment spec => exact absurd rfl (hkind spec)
  | command text =>
    obtain ⟨htrim, hne, -, hhead, -⟩ := hx
    obtain ⟨c, r, rfl⟩ := List.exists_cons_of_ne_nil hne
    have hc := hhead c rfl
    simp only [List.mem_cons, List.not_mem_nil, or_false, not_or] at hc
    unfold Directive.parsePlain
    split
    · exact absurd (List.cons_eq_cons.1 ‹_›).1 hc.2.2.2.2.1
    · exact absurd (List.cons_eq_cons.1 ‹_›).1 hc.2.2.2.2.2
    · rw [Content.written, htrim]
      rfl
  | hostCall line capture =>
    obtain ⟨⟨hline, -, hinfix⟩, hname⟩ := hx
    cases capture with
    | none =>
      have hsplit : Directive.splitCapture line = (line, none) := by
        rw [Directive.splitCapture, Text.splitFirst?_of_not_infix hinfix]
      simp [Content.written, Directive.parsePlain, hsplit, hline, Content.kind, Content.body]
    | some name =>
      obtain ⟨hne, hblank, -⟩ := hname name rfl
      have hsplit := splitCapture_written hinfix hne hblank
      have htrim : Text.trim (line ++ " ") = line := (Text.trim_append_right rfl line).trans hline
      rw [Content.written, Directive.parsePlain, hsplit]
      simp only [htrim]
      rfl

private theorem Content.head_ne_plus {x : Content} (hx : x.IsWellFormed) (hkind : ∀ spec, x ≠ .assignment spec) :
    x.written.head? ≠ some '+' := by
  intro hhead
  cases x with
  | command text => exact hx.2.2.2.1 '+' hhead (by simp)
  | assignment spec => exact hkind spec rfl
  | hostCall line capture => cases capture <;> exact absurd (Option.some.inj hhead) (by decide)

private theorem parseMarked_written {x : Content} (hx : x.IsWellFormed) (asConsole quiet : Bool) :
    Directive.parseMarked (Body.marked asConsole quiet x).written = (asConsole, quiet, x.kind, x.body) := by
  have hhead := Content.head_ne hx
  have hquiet : ((if quiet then ['-'] else []) ++ x.written).head? ≠ some '!' := by
    cases quiet with
    | true => exact fun h => absurd (Option.some.inj h) (by decide)
    | false => exact hhead '!' (by simp)
  unfold Directive.parseMarked Body.written
  rw [takeMark_append hquiet]
  simp only
  rw [takeMark_append (hhead '-' (by simp))]
  simp only
  by_cases hkind : ∃ spec, x = .assignment spec
  · obtain ⟨spec, rfl⟩ := hkind
    simp only [Content.written, parseAssignment?_written hx]
    rfl
  · have hkind : ∀ spec, x ≠ .assignment spec := fun spec heq => hkind ⟨spec, heq⟩
    have hnone : takeMark '-' x.written = (false, x.written) := takeMark_append (hhead '-' (by simp)) false
    split
    · rename_i rest heq
      exact absurd (congrArg List.head? heq) (Content.head_ne_plus hx hkind)
    · rw [hnone]
      simp only [parsePlain_written hx hkind, Bool.or_false]

private theorem stripPrefix?_marked {x : Content} (hx : x.IsWellFormed) (asConsole quiet : Bool) :
    Text.stripPrefix? "#message" (Body.marked asConsole quiet x).written = none := by
  refine Text.isPrefixOf?_eq_none fun hprefix => ?_
  obtain ⟨t, ht⟩ := hprefix
  have hhead : (Body.marked asConsole quiet x).written.head? = some '#' := by rw [← ht]; rfl
  cases asConsole with
  | true => exact absurd (Option.some.inj hhead) (by decide)
  | false =>
    cases quiet with
    | true => exact absurd (Option.some.inj hhead) (by decide)
    | false =>
      change "#message" ++ t = x.written at ht
      change x.written.head? = some '#' at hhead
      cases x with
      | command text => exact hx.2.2.2.2 ⟨t, ht⟩
      | assignment spec => exact absurd (Option.some.inj hhead) (by decide)
      | hostCall line capture => cases capture <;> exact absurd (Option.some.inj hhead) (by decide)

/-! ### Directives -/

variable {h : Heading} {ms : List (Marker × Text)} {b : Body}

private theorem isBlankText_leftover (hw : h.IsWrittenAs ms) : Text.isBlankText (leftover 6 ms) = true := by
  have hrank (m : Marker) : m.rank < 6 := by cases m <;> simp [Marker.rank]
  refine List.all_eq_true.2 fun c hc => ?_
  obtain ⟨x, hx, hc⟩ := List.mem_flatMap.1 hc
  rw [if_pos (hrank x.1)] at hc
  exact List.all_eq_true.1 (hw.blank x hx) c hc

private theorem head_leftover (hw : h.IsWrittenAs ms) : ∀ c ∈ (leftover 0 ms).head?, isBlank c = false := by
  intro c hc
  cases ms with
  | nil => simp [leftover] at hc
  | cons x ms =>
    obtain ⟨r, hr, -⟩ := (hw.wellFormed _ (hw.mem List.mem_cons_self)).written
    obtain rfl : '[' = c := by simpa [leftover, hr] using hc
    decide

/-- Reading undoes writing: whatever the order of the markers and the blanks behind them, each field of the directive
is what was written for it. -/
theorem parse_written (hw : h.IsWrittenAs ms) (hb : b.IsWellFormed) (slash : Bool) :
    Directive.parse (writtenDirective ms slash b) = h.directive (writtenDirective ms slash b) b := by
  have htail : IsTail ((if slash then ['/'] else []) ++ b.written) :=
    (Body.isTail hb).mark (by decide) (by decide) slash
  have hwritten : writtenDirective ms slash b = leftover 0 ms ++ ((if slash then ['/'] else []) ++ b.written) := by
    simp [writtenDirective, leftover]
  have hraw : Text.trim (writtenDirective ms slash b) = writtenDirective ms slash b := by
    rw [hwritten]
    exact Text.trim_append (head_leftover hw) htail.trim htail.ne_nil
  have hbehind : Text.trim (leftover 6 ms ++ ((if slash then ['/'] else []) ++ b.written)) =
      (if slash then ['/'] else []) ++ b.written :=
    (Text.trim_append_left (isBlankText_leftover hw) _).trans htail.trim
  unfold Directive.parse
  simp only [hraw]
  simp only [hwritten, hw.takeLoop htail.bracket, hw.takeDelay htail.bracket, hw.takeGate htail.bracket,
    hw.takeWeight htail.bracket, hbehind, takeMark_append (Body.head_ne hb)]
  cases b with
  | message target style text =>
    obtain ⟨rest, hstrip, hmessage⟩ := parseMessage_written hb
    rw [hstrip]
    simp only [hmessage]
    rfl
  | marked asConsole quiet content =>
    rw [stripPrefix?_marked hb]
    simp only [parseMarked_written hb]
    cases hl : h.loop? with
    | none => simp [Heading.directive, hl]
    | some spec => simp [Heading.directive, hl]

/-- A random weight, a condition, a loop and a delay, in this order, in front of a quiet command of the console. -/
theorem parse_written_unordered :
    Directive.parse "[random:70][if:op:true] [foreach:a,b:p]  [delay:2] /!-give %p% bread" =
      { raw := "[random:70][if:op:true] [foreach:a,b:p]  [delay:2] /!-give %p% bread"
        delay := 2
        gate := .whenever "op:true"
        asConsole := true
        quiet := true
        weight? := some 70
        kind := .loop (some ⟨"a,b", "p"⟩)
        body := "give %p% bread" } := by
  let h : Heading :=
    { loop? := some ⟨"a,b", "p"⟩, delay? := some 2, gate := .whenever "op:true", weight? := some 70 }
  let ms : List (Marker × Text) :=
    [(.weight 70, ""), (.whenever "op:true", " "), (.loop ⟨"a,b", "p"⟩, "  "), (.delay 2, " ")]
  have hw : h.IsWrittenAs ms := by
    refine ⟨by decide +kernel, by decide +kernel, ?_⟩
    change ∀ m ∈ [Marker.loop ⟨"a,b", "p"⟩, .delay 2, .whenever "op:true", .weight 70], m.IsWellFormed
    have hdelay : 2 ≤ Directive.maxDelay := by decide
    simp only [List.forall_mem_cons]
    refine ⟨⟨⟨⟨?_, ?_⟩, ?_, ?_⟩, ⟨?_, ?_⟩, ?_, ?_⟩, hdelay, ⟨?_, ?_⟩, ⟨?_, ?_⟩, by simp⟩ <;> decide +kernel
  have hb : (Body.marked true true (.command "give %p% bread")).IsWellFormed := by
    refine ⟨by decide +kernel, by decide +kernel, by decide +kernel, fun c hc => ?_, by decide +kernel⟩
    obtain rfl : 'g' = c := Option.some.inj hc
    decide
  have hwritten : writtenDirective ms true (.marked true true (.command "give %p% bread")) =
      "[random:70][if:op:true] [foreach:a,b:p]  [delay:2] /!-give %p% bread" := by decide +kernel
  have hparse := parse_written hw hb true
  rwa [hwritten] at hparse

end DirectiveEngine
