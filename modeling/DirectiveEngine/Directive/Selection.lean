import DirectiveEngine.Directive.Basic

/-!
# The random group

Of all random directives of an action list one is picked, each with a probability proportional to its weight,
and runs after the others.
-/

namespace DirectiveEngine

variable {α : Type}

/-- The item whose share of the number line holds the draw, the shares lying side by side from zero. -/
def pickAt? (weight : α → Nat) : Nat → List α → Option α
  | _, [] => none
  | draw, x :: xs => if draw < weight x then some x else pickAt? weight (draw - weight x) xs

/-- A weighted pick by a draw below the sum of the weights.  Without any weight it is the first item. -/
def pick? (weight : α → Nat) (draw : Nat) (xs : List α) : Option α :=
  (pickAt? weight draw xs).or xs.head?

/-- Replaces the random directives by a single one, behind the other directives. -/
def collapseRandom (draw : Nat) (ds : List Directive) : List Directive :=
  ds.filter (fun d => !d.isRandom) ++ (pick? Directive.weight draw (ds.filter Directive.isRandom)).toList

end DirectiveEngine
