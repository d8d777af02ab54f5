import DirectiveEngine.Yaml.Node
import DirectiveEngine.Yaml.Plain

/-!
# Reading documents

What the nodes of a document denote.  `Yaml.read?` gives the value of a whole document, in which no mapping may
hold a key twice; the readers below it take a node for a value of a known kind, for which a scalar counts by
its text.
-/

namespace DirectiveEngine.Yaml

namespace Node

mutual

/-- How many collections are nested in each other. -/
def depth : Node → Nat
  | scalar .. => 0
  | sequence _ items => depthItems items + 1
  | mapping _ entries => depthEntries entries + 1

def depthItems : List Node → Nat
  | [] => 0
  | n :: ns => max n.depth (depthItems ns)

def depthEntries : List (Node × Node) → Nat
  | [] => 0
  | (k, v) :: es => max (max k.depth v.depth) (depthEntries es)

end

/-- The value of a scalar with one of the tags of the core schema. -/
def coreScalar? (tag : Text) (plain : Bool) (text : Text) : Option Yaml :=
  if tag = "tag:yaml.org,2002:bool" then (boolOf? text).map bool
  else if tag = "tag:yaml.org,2002:int" then
    (integerOf? text).bind fun n => if intBounds.1 ≤ n ∧ n ≤ intBounds.2 then some (int n) else none
  else if tag = "tag:yaml.org,2002:float" then (floatOf? text).map float
  else if tag = "tag:yaml.org,2002:null" then if isNullText text then some null else none
  else if plain && tag.isEmpty then ofPlain? text
  else some (string text)

/-- Puts an own tag, which starts with an exclamation mark, on a value. -/
def withTag? (tag : Option Text) (v : Option Yaml) : Option Yaml :=
  match tag with
  | some ('!' :: name) => if name.isEmpty then none else v.map (tagged name)
  | _ => v

/-- A key after the keys before it, which it must not repeat. -/
def consEntry? (k v : Yaml) (entries : List (Yaml × Yaml)) : Option (List (Yaml × Yaml)) :=
  if entries.any fun e => same k e.1 then none else some ((k, v) :: entries)

mutual

def toValue? : Node → Option Yaml
  | scalar tag plain text =>
    match tag with
    | none => if plain then ofPlain? text else some (string text)
    | some ('!' :: _) => withTag? tag (if plain then ofPlain? text else some (string text))
    | some t => coreScalar? t plain text
  | sequence tag items => withTag? tag ((toItems? items).map Yaml.sequence)
  | mapping tag entries => withTag? tag ((toEntries? entries).map Yaml.mapping)

def toItems? : List Node → Option (List Yaml)
  | [] => some []
  | n :: ns => do return (← toValue? n) :: (← toItems? ns)

def toEntries? : List (Node × Node) → Option (List (Yaml × Yaml))
  | [] => some []
  | (k, v) :: es => do consEntry? (← toValue? k) (← toValue? v) (← toEntries? es)

end

/-! ### Nodes of a known kind -/

/-- Collections may not be nested deeper than this. -/
def maxDepth : Nat := 128

def isMissing : Node → Bool
  | scalar _ plain text => plain && text.isEmpty
  | _ => false

/-- A scalar, by its text. -/
def text? : Node → Option Text
  | scalar _ _ text => some text
  | _ => none

/-- A plain scalar that is read by `f`. -/
def plainBy? {α : Type} (f : Text → Option α) : Node → Option α
  | scalar _ true text => f text
  | _ => none

def bool? (n : Node) : Option Bool :=
  plainBy? boolOf? n

def nat? (max : Nat) (n : Node) : Option Nat :=
  plainBy? (fun t => if t.head? = some '-' then none else ((integerOf? t).map Int.toNat).filter (· ≤ max)) n

/-- The items of a sequence; a missing node has none. -/
def items? : Node → Option (List Node)
  | sequence _ items => some items
  | n => if n.isMissing then some [] else none

/-- The entries of a mapping; a missing node has none. -/
def entries? : Node → Option (List (Node × Node))
  | mapping _ entries => some entries
  | n => if n.isMissing then some [] else none

def texts? (n : Node) : Option (List Text) := do
  (← n.items?).mapM text?

/-- The entries of a mapping whose keys are scalars. -/
def fields? (n : Node) : Option (List (Text × Node)) := do
  (← n.entries?).mapM fun e => do return (← e.1.text?, e.2)

/-- A value that may be absent, given by a null or a missing node. -/
def optional? {α : Type} (f : Node → Option α) : Node → Option (Option α)
  | scalar none true text =>
    if text.isEmpty || isNullText text then some none else (f (scalar none true text)).map some
  | scalar (some tag) true text =>
    if tag = "tag:yaml.org,2002:null" then (if isNullText text then some none else none)
    else (f (scalar (some tag) true text)).map some
  | n => (f n).map some

end Node

/-- The root of the only document of a text; a text without one has a missing root. -/
def root? (t : Text) : Option Node := do
  let root := (← document? t).getD (.empty none)
  if root.depth ≤ Node.maxDepth then return root else none

/-- The only document of a text as a value; a text without one is null. -/
def read? (t : Text) : Option Yaml :=
  (root? t).bind Node.toValue?

end DirectiveEngine.Yaml
