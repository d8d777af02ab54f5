import DirectiveEngine.Text.Basic

/-!
# Documents

The values of a YAML document.  A mapping keeps its entries in their order, and its keys may be values of any
kind; two keys are the same when they denote the same value.
-/

namespace DirectiveEngine

inductive Yaml where
  | null
  | bool (b : Bool)
  | int (n : Int)
  | float (x : Float)
  | string (t : Text)
  | sequence (items : List Yaml)
  | mapping (entries : List (Yaml × Yaml))
  | tagged (tag : Text) (value : Yaml)

namespace Yaml

/-- Equality of floats as keys: zeros are equal whatever their sign, and not-a-number equals itself. -/
def sameFloat (x y : Float) : Bool :=
  x == y || (x.isNaN && y.isNaN)

mutual

/-- The same value, whatever the order of entries in mappings. -/
def same : Yaml → Yaml → Bool
  | null, null => true
  | bool a, bool b => a == b
  | int a, int b => a == b
  | float a, float b => sameFloat a b
  | string a, string b => a == b
  | sequence a, sequence b => sameItems a b
  | mapping a, mapping b => a.length == b.length && sameEntries a b
  | tagged s a, tagged t b => s == t && same a b
  | _, _ => false

def sameItems : List Yaml → List Yaml → Bool
  | [], [] => true
  | a :: as, b :: bs => same a b && sameItems as bs
  | _, _ => false

/-- Each entry of the first list is in the second one. -/
def sameEntries : List (Yaml × Yaml) → List (Yaml × Yaml) → Bool
  | [], _ => true
  | (k, v) :: as, bs => bs.any (fun e => same k e.1 && same v e.2) && sameEntries as bs

end

/-- The value without the tags on it. -/
def untag : Yaml → Yaml
  | tagged _ v => untag v
  | v => v

/-- Whether a value is a mapping, with or without tags on it. -/
def isMapping (v : Yaml) : Bool :=
  match v.untag with
  | mapping _ => true
  | _ => false

end Yaml
end DirectiveEngine
