/-!
# Text

A text is the list of its characters, so every scanner is a recursion on a list.  This module holds the
searches that the rest of the library is built from: cutting a text at an occurrence of another one,
replacing all occurrences, and joining.  The key fact is `eq_of_splitFirst?`: a cut loses nothing.
-/

namespace DirectiveEngine

abbrev Text := List Char

instance : Coe String Text := ⟨String.toList⟩

instance (t : Text) (ts : List Text) : Decidable (t ∈ ts) :=
  List.instDecidableMemOfLawfulBEq t ts

namespace Text

/-! ### Cutting -/

/-- What stands before and after the first occurrence of `sep`. -/
def splitFirst? (sep : Text) : Text → Option (Text × Text)
  | [] => if sep.isEmpty then some ([], []) else none
  | c :: t =>
    match sep.isPrefixOf? (c :: t) with
    | some rest => some ([], rest)
    | none => (splitFirst? sep t).map fun p => (c :: p.1, p.2)

theorem isPrefixOf?_cons_cons (a b : Char) (p t : Text) :
    (a :: p).isPrefixOf? (b :: t) = if a == b then p.isPrefixOf? t else none :=
  rfl

theorem eq_append_of_isPrefixOf? {p t rest : Text} (h : p.isPrefixOf? t = some rest) : t = p ++ rest := by
  induction p generalizing t with
  | nil => exact Option.some.inj h
  | cons a p ih =>
    cases t with
    | nil => nomatch h
    | cons b t =>
      rw [isPrefixOf?_cons_cons] at h
      split at h
      · rename_i hab
        rw [ih h, eq_of_beq hab, List.cons_append]
      · nomatch h

theorem eq_of_splitFirst? {sep t a b : Text} (h : splitFirst? sep t = some (a, b)) :
    t = a ++ sep ++ b := by
  induction t generalizing a b with
  | nil =>
    unfold splitFirst? at h
    split at h
    · simp_all
    · simp at h
  | cons c t ih =>
    unfold splitFirst? at h
    split at h
    · rename_i rest hp
      simp only [Option.some.injEq, Prod.mk.injEq] at h
      obtain ⟨rfl, rfl⟩ := h
      simpa using eq_append_of_isPrefixOf? hp
    · obtain ⟨⟨x, y⟩, hxy, he⟩ := Option.map_eq_some_iff.1 h
      simp only [Prod.mk.injEq] at he
      obtain ⟨rfl, rfl⟩ := he
      simp [ih hxy]

theorem length_of_splitFirst? {sep t a b : Text} (h : splitFirst? sep t = some (a, b)) :
    a.length + sep.length + b.length = t.length := by
  have := congrArg List.length (eq_of_splitFirst? h)
  simp only [List.length_append] at this
  omega

def contains (sub t : Text) : Bool :=
  (splitFirst? sub t).isSome

/-- What stands before and after the last occurrence of a character. -/
def splitLast? (c : Char) (t : Text) : Option (Text × Text) :=
  (splitFirst? [c] t.reverse).map fun p => (p.2.reverse, p.1.reverse)

/-- The pieces left by the first `n` cuts at `sep`; the last piece is uncut. -/
def splitUpTo (sep : Text) : Nat → Text → List Text
  | 0, t => [t]
  | n + 1, t =>
    match splitFirst? sep t with
    | none => [t]
    | some (a, b) => a :: splitUpTo sep n b

/-- All pieces between the occurrences of `sep`, found from the left.  There are at most as many
occurrences as there are characters. -/
def splitAll (sep t : Text) : List Text :=
  splitUpTo sep t.length t

/-! ### Replacing and joining -/

/-- Every occurrence of `old`, found from the left without overlap, becomes `new`; an empty `old` has none. -/
def replaceAll (old new t : Text) : Text :=
  if old.isEmpty then t else
    match _h : splitFirst? old t with
    | none => t
    | some (a, b) => a ++ new ++ replaceAll old new b
termination_by t.length
decreasing_by
  have := length_of_splitFirst? ‹_›
  have : old.length ≠ 0 := by simp_all
  omega

def join (sep : Text) (parts : List Text) : Text :=
  List.intercalate sep parts

/-! ### Ends -/

def stripPrefix? (p t : Text) : Option Text :=
  p.isPrefixOf? t

/-- The text without its last character, if that is `c`. -/
def stripLast? (c : Char) (t : Text) : Option Text :=
  if t.getLast? = some c then some t.dropLast else none

def startsWith (p t : Text) : Bool :=
  p.isPrefixOf t

/-! ### Order -/

/-- Lexicographic order by code points. -/
def le : Text → Text → Bool
  | [], _ => true
  | _ :: _, [] => false
  | a :: s, b :: t => a < b || (a == b && le s t)

end Text
end DirectiveEngine
