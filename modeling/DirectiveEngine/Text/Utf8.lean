import DirectiveEngine.Text.Basic

/-!
# UTF-8

The encoding of texts as bytes, and two readings of bytes: `ofUtf8?` accepts well-formed bytes only, and
`ofUtf8Lossy` puts one replacement character for each longest part that could have begun a character.
-/

namespace DirectiveEngine

abbrev Bytes := List UInt8

def utf8Bytes (c : Char) : Bytes :=
  let n := c.toNat
  if n < 0x80 then [n.toUInt8]
  else if n < 0x800 then [(0xC0 + n / 64).toUInt8, (0x80 + n % 64).toUInt8]
  else if n < 0x10000 then
    [(0xE0 + n / 4096).toUInt8, (0x80 + n / 64 % 64).toUInt8, (0x80 + n % 64).toUInt8]
  else
    [(0xF0 + n / 262144).toUInt8, (0x80 + n / 4096 % 64).toUInt8, (0x80 + n / 64 % 64).toUInt8,
      (0x80 + n % 64).toUInt8]

/-- After a lead byte: how many bytes follow it, the payload of the lead byte, and the range that the first
of the following bytes must lie in. -/
def leadByte? (b : Nat) : Option (Nat × Nat × Nat × Nat) :=
  if b < 0x80 then some (0, b, 0, 0)
  else if b < 0xC2 then none
  else if b < 0xE0 then some (1, b - 0xC0, 0x80, 0xBF)
  else if b < 0xF0 then
    some (2, b - 0xE0, if b = 0xE0 then 0xA0 else 0x80, if b = 0xED then 0x9F else 0xBF)
  else if b < 0xF5 then
    some (3, b - 0xF0, if b = 0xF0 then 0x90 else 0x80, if b = 0xF4 then 0x8F else 0xBF)
  else none

/-- Reads `n` following bytes, the first of them between `lo` and `hi`.  Bytes that do not fit are left. -/
def followingBytes : Nat → Nat → Nat → Nat → Bytes → Option Nat × Bytes
  | 0, payload, _, _, bs => (some payload, bs)
  | _ + 1, _, _, _, [] => (none, [])
  | n + 1, payload, lo, hi, b :: bs =>
    if lo ≤ b.toNat ∧ b.toNat ≤ hi then followingBytes n (payload * 64 + b.toNat % 64) 0x80 0xBF bs
    else (none, b :: bs)

theorem length_followingBytes (n payload lo hi : Nat) (bs : Bytes) :
    (followingBytes n payload lo hi bs).2.length ≤ bs.length := by
  induction bs generalizing n payload lo hi with
  | nil => cases n <;> simp [followingBytes]
  | cons b bs ih =>
    cases n with
    | zero => simp [followingBytes]
    | succ n =>
      simp only [followingBytes]
      split
      · exact Nat.le_succ_of_le (ih ..)
      · exact Nat.le_refl _

/-- The characters that the bytes encode, `none` standing for an ill-formed part. -/
def utf8Chars : Bytes → List (Option Char)
  | [] => []
  | b :: bs =>
    match leadByte? b.toNat with
    | none => none :: utf8Chars bs
    | some (n, payload, lo, hi) =>
      let r := followingBytes n payload lo hi bs
      have := length_followingBytes n payload lo hi bs
      r.1.map Char.ofNat :: utf8Chars r.2
termination_by bs => bs.length

namespace Text

def toUtf8 (t : Text) : Bytes :=
  t.flatMap utf8Bytes

def utf8Size (t : Text) : Nat :=
  t.foldl (fun n c => n + c.utf8Size) 0

def ofUtf8? (bs : Bytes) : Option Text :=
  (utf8Chars bs).mapM id

def ofUtf8Lossy (bs : Bytes) : Text :=
  (utf8Chars bs).map fun c => c.getD (Char.ofNat 0xFFFD)

end Text
end DirectiveEngine
