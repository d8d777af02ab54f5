import DirectiveEngine.Yaml.Token

/-!
# Document nodes

The tree of a document: scalars, sequences and mappings with their tags, before anything is said about what
they denote.  An alias stands for the whole node that its anchor names.
-/

namespace DirectiveEngine.Yaml

inductive Node where
  /-- A scalar is plain if it stands without quotes and is no block. -/
  | scalar (tag : Option Text) (plain : Bool) (text : Text)
  | sequence (tag : Option Text) (items : List Node)
  | mapping (tag : Option Text) (entries : List (Node × Node))

namespace Node

/-- What has been read so far: the tokens to come, and the nodes that anchors name, the last one first. -/
structure Reader where
  tokens : List Token
  anchors : List (Text × Node) := []

/-- What stands in front of a node. -/
structure Properties where
  anchor : Option Text := none
  tag : Option Text := none

/-- A node that is missing. -/
def empty (tag : Option Text) : Node :=
  .scalar tag true []

/-- The handles that tags may start with, and what they stand for. -/
abbrev Handles := List (Text × Text)

def defaultHandles : Handles :=
  [("!", "!"), ("!!", "tag:yaml.org,2002:")]

def resolveTag? (handles : Handles) (handle suffix : Text) : Option Text :=
  if handle.isEmpty then some suffix else (handles.lookup handle).map (· ++ suffix)

/-- Reads an anchor and a tag, in either order. -/
def properties? (handles : Handles) : List Token → Option (Properties × List Token)
  | .anchor a :: .tag h s :: ts => (resolveTag? handles h s).map fun t => (⟨some a, some t⟩, ts)
  | .tag h s :: .anchor a :: ts => (resolveTag? handles h s).map fun t => (⟨some a, some t⟩, ts)
  | .anchor a :: ts => some (⟨some a, none⟩, ts)
  | .tag h s :: ts => (resolveTag? handles h s).map fun t => (⟨none, some t⟩, ts)
  | ts => some ({}, ts)

/-- An exclamation mark alone leaves a scalar without a tag. -/
def ofScalar (tag : Option Text) (plain : Bool) (text : Text) : Node :=
  if tag = some ['!'] then .scalar none plain text else .scalar tag plain text

/-- Remembers a node under its anchor. -/
def Reader.name (r : Reader) (anchor : Option Text) (n : Node) : Reader :=
  match anchor with
  | some a => { r with anchors := (a, n) :: r.anchors }
  | none => r

/-- Where a node may stand: in a block or inside brackets, and whether a sequence may start at the column of the
mapping around it. -/
structure Spot where
  block : Bool
  indentless : Bool

mutual

/-- Reads a node. -/
def read? (handles : Handles) : Nat → Spot → Reader → Option (Node × Reader)
  | 0, _, _ => none
  | fuel + 1, spot, r =>
    match r.tokens with
    | .alias a :: ts => (r.anchors.lookup a).map fun n => (n, { r with tokens := ts })
    | _ => do
      let (p, ts) ← properties? handles r.tokens
      let (n, r) ← readContent? handles fuel spot p { r with tokens := ts }
      return (n, r.name p.anchor n)

/-- Reads a node behind its properties. -/
def readContent? (handles : Handles) : Nat → Spot → Properties → Reader → Option (Node × Reader)
  | 0, _, _, _ => none
  | fuel + 1, spot, p, r =>
    let rest : Reader := { r with tokens := r.tokens.tail }
    match r.tokens with
    | .scalar plain text :: _ => some (ofScalar p.tag plain text, rest)
    | .flowSequenceStart :: _ =>
      (readFlowItems? handles fuel true rest).map fun (items, r) => (.sequence p.tag items, r)
    | .flowMappingStart :: _ =>
      (readFlowEntries? handles fuel true rest).map fun (entries, r) => (.mapping p.tag entries, r)
    | t :: _ =>
      if spot.indentless ∧ t = .blockEntry then
        (readIndentless? handles fuel r).map fun (items, r) => (.sequence p.tag items, r)
      else if spot.block ∧ t = .blockSequenceStart then
        (readBlockItems? handles fuel rest).map fun (items, r) => (.sequence p.tag items, r)
      else if spot.block ∧ t = .blockMappingStart then
        (readBlockEntries? handles fuel rest).map fun (entries, r) => (.mapping p.tag entries, r)
      else if p.anchor.isSome ∨ p.tag.isSome then some (ofScalar p.tag true [], r)
      else none
    | [] => if p.anchor.isSome ∨ p.tag.isSome then some (ofScalar p.tag true [], r) else none

/-- Reads a node, unless one of the tokens follows before which it is missing. -/
def readUnless? (handles : Handles) : Nat → List Token → Spot → Reader → Option (Node × Reader)
  | 0, _, _, _ => none
  | fuel + 1, stops, spot, r =>
    match r.tokens with
    | t :: _ => if t ∈ stops then some (empty none, r) else read? handles fuel spot r
    | [] => none

def readBlockItems? (handles : Handles) : Nat → Reader → Option (List Node × Reader)
  | 0, _ => none
  | fuel + 1, r =>
    match r.tokens with
    | .blockEntry :: ts => do
      let (n, r) ← readUnless? handles fuel [.blockEntry, .blockEnd] ⟨true, false⟩ { r with tokens := ts }
      (readBlockItems? handles fuel r).map fun (items, r) => (n :: items, r)
    | .blockEnd :: ts => some ([], { r with tokens := ts })
    | _ => none

def readIndentless? (handles : Handles) : Nat → Reader → Option (List Node × Reader)
  | 0, _ => none
  | fuel + 1, r =>
    match r.tokens with
    | .blockEntry :: ts => do
      let stops := [.blockEntry, .key, .value, .blockEnd]
      let (n, r) ← readUnless? handles fuel stops ⟨true, false⟩ { r with tokens := ts }
      (readIndentless? handles fuel r).map fun (items, r) => (n :: items, r)
    | _ => some ([], r)

def readBlockEntries? (handles : Handles) : Nat → Reader → Option (List (Node × Node) × Reader)
  | 0, _ => none
  | fuel + 1, r =>
    let stops := [.key, .value, .blockEnd]
    match r.tokens with
    | .key :: ts => do
      let (k, r) ← readUnless? handles fuel stops ⟨true, true⟩ { r with tokens := ts }
      let (v, r) ← match r.tokens with
        | .value :: ts => readUnless? handles fuel stops ⟨true, true⟩ { r with tokens := ts }
        | _ => some (empty none, r)
      (readBlockEntries? handles fuel r).map fun (entries, r) => ((k, v) :: entries, r)
    | .blockEnd :: ts => some ([], { r with tokens := ts })
    | _ => none

/-- Reads the items of a flow sequence.  A key between them makes a mapping with one entry. -/
def readFlowItems? (handles : Handles) : Nat → Bool → Reader → Option (List Node × Reader)
  | 0, _, _ => none
  | fuel + 1, first, r =>
    match r.tokens with
    | .flowSequenceEnd :: ts => some ([], { r with tokens := ts })
    | ts => do
      let ts ← if first then some ts else
        match ts with
        | .flowEntry :: ts => some ts
        | _ => none
      match ts with
      | .flowSequenceEnd :: ts => some ([], { r with tokens := ts })
      | .key :: ts => do
        let stops := [.value, .flowEntry, .flowSequenceEnd]
        let (k, r) ← readUnless? handles fuel stops ⟨false, false⟩ { r with tokens := ts }
        let (v, r) ← match r.tokens with
          | .value :: ts =>
            readUnless? handles fuel [.flowEntry, .flowSequenceEnd] ⟨false, false⟩ { r with tokens := ts }
          | _ => some (empty none, r)
        (readFlowItems? handles fuel false r).map fun (items, r) => (.mapping none [(k, v)] :: items, r)
      | ts => do
        let (n, r) ← read? handles fuel ⟨false, false⟩ { r with tokens := ts }
        (readFlowItems? handles fuel false r).map fun (items, r) => (n :: items, r)

def readFlowEntries? (handles : Handles) : Nat → Bool → Reader → Option (List (Node × Node) × Reader)
  | 0, _, _ => none
  | fuel + 1, first, r =>
    match r.tokens with
    | .flowMappingEnd :: ts => some ([], { r with tokens := ts })
    | ts => do
      let ts ← if first then some ts else
        match ts with
        | .flowEntry :: ts => some ts
        | _ => none
      match ts with
      | .flowMappingEnd :: ts => some ([], { r with tokens := ts })
      | .key :: ts => do
        let stops := [.value, .flowEntry, .flowMappingEnd]
        let (k, r) ← readUnless? handles fuel stops ⟨false, false⟩ { r with tokens := ts }
        let (v, r) ← match r.tokens with
          | .value :: ts =>
            readUnless? handles fuel [.flowEntry, .flowMappingEnd] ⟨false, false⟩ { r with tokens := ts }
          | _ => some (empty none, r)
        (readFlowEntries? handles fuel false r).map fun (entries, r) => ((k, v) :: entries, r)
      | ts => do
        let (k, r) ← read? handles fuel ⟨false, false⟩ { r with tokens := ts }
        (readFlowEntries? handles fuel false r).map fun (entries, r) => ((k, empty none) :: entries, r)

end

/-- Reads the directives in front of a document. -/
def directives? : List Token → Option (Handles × List Token)
  | .version major minor :: ts => if major = 1 ∧ (minor = 1 ∨ minor = 2) then directives? ts else none
  | .tagHandle h s :: ts => (directives? ts).map fun (handles, ts) => ((h, s) :: handles, ts)
  | ts => some (defaultHandles, ts)

/-- The root of a document whose directives, if any, have been read. -/
def root? (handles : Handles) (explicit : Bool) (ts : List Token) : Option (Node × List Token) :=
  match ts with
  | [] => if explicit then some (empty none, []) else none
  | .documentStart :: _ => if explicit then some (empty none, ts) else none
  | .documentEnd :: _ => if explicit then some (empty none, ts) else none
  | _ => (read? handles (8 * ts.length + 8) ⟨true, false⟩ { tokens := ts }).map fun (n, r) => (n, r.tokens)

/-- The only document of a text: `some none` if there is none at all, and nothing if the text is malformed or
holds more than one. -/
def ofTokens? (ts : List Token) : Option (Option Node) := do
  let (handles, rest) ← directives? ts
  match rest with
  | [] => if ts.isEmpty then return none else none
  | .documentStart :: rest => finish (← root? handles true rest)
  | _ => if rest.length = ts.length then finish (← root? handles false rest) else none
where
  finish (r : Node × List Token) : Option (Option Node) :=
    if r.2.all (· == .documentEnd) then some (some r.1) else none

end Node

/-- The only document of a text, see `Node.ofTokens?`. -/
def document? (t : Text) : Option (Option Node) :=
  (tokens? t).bind Node.ofTokens?

end DirectiveEngine.Yaml
