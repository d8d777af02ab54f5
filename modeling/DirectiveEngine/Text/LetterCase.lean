import DirectiveEngine.Text.Basic
import DirectiveEngine.Text.LetterData

/-!
# Letter case

Lowercase forms by the full Unicode mapping, in which two capitals are special: a dotted capital I has two
characters, and a capital sigma at the end of a word has a form of its own.  Names of players and style words
are compared under the ASCII folding alone.
-/

namespace DirectiveEngine

open LetterData

def lowerAscii (c : Char) : Char :=
  if 'A' ≤ c ∧ c ≤ 'Z' then Char.ofNat (c.toNat + 32) else c

/-- The lowercase form of a character, wherever it stands. -/
def lowerChar (c : Char) : Text :=
  if c.toNat < 128 then [lowerAscii c]
  else if c.toNat = 0x130 then [Char.ofNat 0x69, Char.ofNat 0x307]
  else
    match lowercaseRuns.find? fun r =>
      r.first ≤ c.toNat && c.toNat ≤ r.last && (c.toNat - r.first) % r.step == 0 with
    | some r => [Char.ofNat (Int.toNat (c.toNat + r.shift))]
    | none => [c]

private def inRanges (ranges : List (Nat × Nat)) (c : Char) : Bool :=
  ranges.any fun r => r.1 ≤ c.toNat && c.toNat ≤ r.2

def isCaseIgnorable (c : Char) : Bool :=
  inRanges caseIgnorableRanges c

def isCased (c : Char) : Bool :=
  inRanges casedRanges c

namespace Text

/-- The first character that matters for case is a cased one. -/
def meetsCased (t : Text) : Bool :=
  ((t.dropWhile isCaseIgnorable).head?.map isCased).getD false

/-- Lowercases a text that follows the characters `before`, which stand in reverse order. -/
def lowerAfter (before : Text) : Text → Text
  | [] => []
  | c :: t =>
    let form :=
      if c.toNat = 0x3A3 then
        [Char.ofNat (if meetsCased before && !meetsCased t then 0x3C2 else 0x3C3)]
      else lowerChar c
    form ++ lowerAfter (c :: before) t

def lower (t : Text) : Text :=
  lowerAfter [] t

def lowerAscii (t : Text) : Text :=
  t.map DirectiveEngine.lowerAscii

/-- Equality up to the case of ASCII letters. -/
def sameAscii (s t : Text) : Bool :=
  s.lowerAscii == t.lowerAscii

end Text
end DirectiveEngine
