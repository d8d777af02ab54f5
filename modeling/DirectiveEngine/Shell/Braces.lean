import DirectiveEngine.Number.Literal
import DirectiveEngine.Number.Notation
import DirectiveEngine.Shell.Basic

/-!
# Words with braces

One dialect writes several words as one: alternatives between commas in braces, or the first and the last of a
range of numbers.
-/

namespace DirectiveEngine.Shell

/-- The alternatives of a group whose opening brace has been read, and what stands behind the group.  Groups
that are open inside it count their own commas. -/
def braceGroup? : Nat → Word → Option (List Word × Word)
  | _, [] => none
  | depth, .text false ['\x7b'] :: w => (braceGroup? (depth + 1) w).map (continued (.text false ['\x7b']))
  | 0, .text false ['\x7d'] :: w => some ([[]], w)
  | depth + 1, .text false ['\x7d'] :: w => (braceGroup? depth w).map (continued (.text false ['\x7d']))
  | 0, .text false [','] :: w => (braceGroup? 0 w).map fun r => ([] :: r.1, r.2)
  | depth, p :: w => (braceGroup? depth w).map (continued p)
where
  continued (p : Part) (r : List Word × Word) : List Word × Word :=
    match r.1 with
    | [] => r
    | a :: as => ((p :: a) :: as, r.2)

/-- The numbers of a range, upward or downward. -/
def range? (w : Word) : Option (List Word) := do
  let t : Text := w.flatMap fun p => match p with | .text false t => t | _ => ['?']
  let (first, last) ← Text.splitFirst? ".." t
  let a ← integer? (-0x80000000) 0x80000000 first
  let b ← integer? (-0x80000000) 0x80000000 last
  let step : Int := if a ≤ b then 1 else -1
  return (List.range ((b - a).natAbs + 1)).map fun (i : Nat) => [.text false (intText (a + i * step))]

/-- All words that a word with braces stands for. -/
def expandBraces : Nat → Word → List Word
  | 0, w => [w]
  | _, [] => [[]]
  | fuel + 1, p :: w =>
    let alternatives? : Option (List Word × Word) :=
      if p = .text false ['\x7b'] then
        match braceGroup? 0 w with
        | some ([a], rest) => (range? a).map fun ws => (ws, rest)
        | some (as, rest) => some (as.flatMap (expandBraces fuel), rest)
        | none => none
      else none
    match alternatives? with
    | some (as, rest) => as.flatMap fun a => (expandBraces fuel rest).map (a ++ ·)
    | none => (expandBraces fuel w).map (p :: ·)

end DirectiveEngine.Shell
