import DirectiveEngine.Number.Literal
import DirectiveEngine.Number.Notation
import DirectiveEngine.Template.Delimited

/-!
# Argument placeholders

| placeholder | value |
|---|---|
| `%args%` | every argument, joined by spaces |
| `%argN%` | the `N`-th argument, counted from 1 |
| `%argN-%` | the arguments from the `N`-th on, or nothing |
| `%argN-::d%` | the same, or `d` if there are none |
| `%argN::d%`, `%argN\|d%` | the `N`-th argument, or `d` |
-/

namespace DirectiveEngine

/-- The arguments from the `n`-th on, if there is an `n`-th. -/
def argumentsFrom? (args : List Text) (n : Nat) : Option Text :=
  if n ≤ args.length then some (Text.join " " (args.drop (n - 1))) else none

/-- Replaces the placeholders of all arguments from the `n`-th on. -/
def replaceTail (args : List Text) (t : Text) (n : Nat) : Text :=
  let tail := argumentsFrom? args n
  let name := "%arg" ++ natText n
  let t := replaceDelimited (name ++ "-::") "%" (fun default => some (tail.getD default)) t
  Text.replaceAll (name ++ "-%") (tail.getD []) t

def maxIndex : Nat := 0xFFFFFFFFFFFFFFFF

/-- The argument with a written number. -/
def argument? (args : List Text) (index : Text) : Option Text :=
  match natural? maxIndex index with
  | some (n + 1) => args[n]?
  | _ => none

/-- The value of what stands between `%arg` and the next percent sign. -/
def argumentValue? (args : List Text) (inner : Text) : Option Text :=
  match (Text.splitFirst? "::" inner).or (Text.splitFirst? "|" inner) with
  | some (index, default) => some ((argument? args index).getD default)
  | none => argument? args inner

/-- Tails are replaced for numbers somewhat beyond the last argument, single arguments for all numbers. -/
def replaceArguments (args : List Text) (t : Text) : Text :=
  let t := Text.replaceAll "%args%" (Text.join " " args) t
  let bound := max (args.length + 5) 10
  let t := (List.range' 1 bound).foldl (replaceTail args) t
  replaceDelimited "%arg" "%" (argumentValue? args) t

end DirectiveEngine
