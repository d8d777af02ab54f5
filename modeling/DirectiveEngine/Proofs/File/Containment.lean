import DirectiveEngine.Proofs.File.Place
import Mathlib.Data.List.Infix

/-!
# Staying in the data directory

The names of a relative path lead some levels up from where it starts, and then down (`FilePath.Route`).  It stays below
its start if it leads no level up, or comes down again by the very names that it went up (`FilePath.prefix_follow_iff`).
A relative path may do otherwise, so a write to it stays in the data directory under this condition only
(`FileAccess.write_below_iff`).
-/

namespace DirectiveEngine

variable {place : FilePath} {name path : Text} {names names' : List Text}

namespace FilePath

/-! ### Up and down -/

/-- What names make of the place they start from: so many levels up, then down by other names. -/
structure Route where
  up : Nat := 0
  down : FilePath := []
  deriving DecidableEq

namespace Route

def enter (r : Route) (name : Text) : Route :=
  if name = "" ∨ name = "." then r
  else if name = ".." then
    if r.down.isEmpty then { r with up := r.up + 1 } else { r with down := r.down.dropLast }
  else { r with down := r.down ++ [name] }

def ofNames (names : List Text) : Route :=
  names.foldl enter {}

/-- Where a route leads; nothing lies above the root. -/
def apply (r : Route) (place : FilePath) : FilePath :=
  place.take (place.length - r.up) ++ r.down

theorem apply_enter (r : Route) (place : FilePath) (name : Text) :
    (r.enter name).apply place = FilePath.enter (r.apply place) name := by
  unfold enter FilePath.enter apply
  split
  · rfl
  · split
    · by_cases hdown : r.down = []
      · have htake : (place.take (place.length - r.up)).dropLast = place.take (place.length - (r.up + 1)) := by
          rw [List.dropLast_eq_take, List.take_take, List.length_take]
          congr 1
          omega
        simp [hdown, htake]
      · simp [hdown, List.dropLast_append_of_ne_nil hdown]
    · simp

theorem up_le_enter (r : Route) (name : Text) : r.up ≤ (r.enter name).up := by
  unfold enter
  split
  · exact Nat.le_refl _
  · split
    · split
      · exact Nat.le_succ _
      · exact Nat.le_refl _
    · exact Nat.le_refl _

theorem up_le_foldl (r : Route) (names : List Text) : r.up ≤ (names.foldl enter r).up := by
  induction names generalizing r with
  | nil => exact Nat.le_refl _
  | cons name names ih => exact (up_le_enter r name).trans (ih _)

theorem up_le_of_prefix (h : names <+: names') : (ofNames names).up ≤ (ofNames names').up := by
  obtain ⟨rest, rfl⟩ := h
  rw [ofNames, ofNames, List.foldl_append]
  exact up_le_foldl _ rest

end Route

open Route (ofNames)

theorem follow_eq_apply (place : FilePath) (names : List Text) : follow place names = (ofNames names).apply place := by
  suffices h : ∀ r : Route, names.foldl FilePath.enter (r.apply place) = (names.foldl Route.enter r).apply place by
    simpa [follow, ofNames, Route.apply] using h {}
  induction names with
  | nil => exact fun r => rfl
  | cons name names ih =>
    intro r
    rw [List.foldl_cons, List.foldl_cons, ← Route.apply_enter, ih]

/-! ### Staying below -/

/-- The names come down again by those that they went up. -/
def ReturnsTo (place : FilePath) (names : List Text) : Prop :=
  place.drop (place.length - (ofNames names).up) <+: (ofNames names).down

instance (place : FilePath) (names : List Text) : Decidable (ReturnsTo place names) :=
  inferInstanceAs (Decidable (_ <+: _))

theorem prefix_follow_iff : place <+: follow place names ↔ ReturnsTo place names := by
  rw [follow_eq_apply, Route.apply, ReturnsTo]
  let left := place.length - (ofNames names).up
  calc place <+: place.take left ++ (ofNames names).down
    _ ↔ place.take left ++ place.drop left <+: place.take left ++ (ofNames names).down := by
      rw [List.take_append_drop]
    _ ↔ place.drop left <+: (ofNames names).down := List.prefix_append_right_inj _

theorem returnsTo_of_up_eq_zero (h : (ofNames names).up = 0) (place : FilePath) : ReturnsTo place names := by
  simp [ReturnsTo, h]

end FilePath

open FilePath (follow ReturnsTo Route)

namespace FileAccess

variable {files : FileAccess} {key : Option Text} {value : Text} {p : FilePath}

/-! ### Writing to relative paths -/

theorem placeOf_relative (h : isAbsolutePath path = false) :
    files.placeOf path = follow files.dataPlace (pathNames path) := by
  obtain ⟨front, -, hdata, hnames, hstart⟩ := files.target_relative h
  rw [placeOf, hnames, hstart, FilePath.follow_append, hdata]

/-- The entry at a place is not what it was before a write. -/
def Changes (files : FileAccess) (path : Text) (key : Option Text) (value : Text) (p : FilePath) : Prop :=
  (files.write path key value).1.tree.get? p ≠ files.tree.get? p

instance (files : FileAccess) (path : Text) (key : Option Text) (value : Text) (p : FilePath) :
    Decidable (files.Changes path key value p) :=
  inferInstanceAs (Decidable (_ ≠ _))

/-- A write makes a file, or gives it another content. -/
def WritesFile (files : FileAccess) (path : Text) (key : Option Text) (value : Text) (p : FilePath) : Prop :=
  files.Changes path key value p ∧ (files.write path key value).1.tree.get? p ≠ some .directory

instance (files : FileAccess) (path : Text) (key : Option Text) (value : Text) (p : FilePath) :
    Decidable (files.WritesFile path key value p) :=
  inferInstanceAs (Decidable (_ ∧ _))

/-- The data directory, or one that its path leads through. -/
def IsOnTheWay (files : FileAccess) (p : FilePath) : Prop :=
  ∃ front, front <+: pathNames files.dataDir ∧ p = follow (files.start files.dataDir) front

theorem eq_placeOf_of_writesFile (h : files.WritesFile path key value p) : p = files.placeOf path := by
  rcases files.get?_write path key value p with hsame | ⟨-, hmade, -⟩ | ⟨hp, -⟩
  · exact absurd hsame h.1
  · exact absurd hmade h.2
  · exact hp

/-- Where a path does not lead up, all that a write to it changes lies in the data directory, but for the directories on
the way there. -/
theorem below_of_changes (hrel : isAbsolutePath path = false) (hup : (Route.ofNames (pathNames path)).up = 0)
    (h : files.Changes path key value p) :
    files.dataPlace <+: p ∨ ¬ files.WritesFile path key value p ∧ files.IsOnTheWay p := by
  obtain ⟨front, hprefix, hdata, hnames, hstart⟩ := files.target_relative hrel
  rcases files.get?_write path key value p with hsame | ⟨-, hmade, way, hway, hp⟩ | ⟨hp, -⟩
  · exact absurd hsame h
  · rw [hstart] at hp
    rw [hnames] at hway
    rcases List.prefix_or_prefix_of_prefix hway (List.prefix_append front _) with hfront | ⟨rest, rfl⟩
    · exact .inr ⟨fun hfile => hfile.2 hmade, way, hfront.trans hprefix, hp⟩
    · -- the directory is made behind the data directory, so the names behind that lead to it
      have hrest : rest <+: pathNames path := (List.prefix_append_right_inj front).1 hway
      have hrestUp : (Route.ofNames rest).up = 0 := Nat.eq_zero_of_le_zero (hup ▸ Route.up_le_of_prefix hrest)
      rw [hp, FilePath.follow_append, hdata]
      exact .inl (FilePath.prefix_follow_iff.2 (FilePath.returnsTo_of_up_eq_zero hrestUp _))
  · rw [hp, placeOf_relative hrel]
    exact .inl (FilePath.prefix_follow_iff.2 (FilePath.returnsTo_of_up_eq_zero hup _))

/-- The only file that a write to a relative path touches is the one that its names lead to from the data directory.  It
lies in the data directory if and only if the names that lead up from there are taken down again; if none leads up, then
the directories that are made lie there as well, or on the way to it. -/
theorem write_below_iff (hrel : isAbsolutePath path = false) (key : Option Text) (value : Text) :
    (∀ p, files.WritesFile path key value p → p = follow files.dataPlace (pathNames path)) ∧
      ((∀ p, files.WritesFile path key value p → files.dataPlace <+: p) ↔
        (∀ p, ¬ files.WritesFile path key value p) ∨ ReturnsTo files.dataPlace (pathNames path)) ∧
      ((Route.ofNames (pathNames path)).up = 0 →
        ReturnsTo files.dataPlace (pathNames path) ∧
          ∀ p, files.Changes path key value p →
            files.dataPlace <+: p ∨ ¬ files.WritesFile path key value p ∧ files.IsOnTheWay p) := by
  have honly : ∀ p, files.WritesFile path key value p → p = follow files.dataPlace (pathNames path) :=
    fun p hp => (eq_placeOf_of_writesFile hp).trans (placeOf_relative hrel)
  refine ⟨honly, ⟨fun hall => ?_, ?_⟩, fun hup => ⟨FilePath.returnsTo_of_up_eq_zero hup _, fun p => ?_⟩⟩
  · by_cases hnone : ∀ p, ¬ files.WritesFile path key value p
    · exact .inl hnone
    · obtain ⟨p, hp⟩ := not_forall_not.1 hnone
      exact .inr (FilePath.prefix_follow_iff.1 (honly p hp ▸ hall p hp))
  · rintro (hnone | hreturns) p hp
    · exact absurd hp (hnone p)
    · exact honly p hp ▸ FilePath.prefix_follow_iff.2 hreturns
  · exact below_of_changes hrel hup

/-- A path that leads out of the data directory and comes back, and its file. -/
theorem write_below_returning :
    let files : FileAccess := { tree := [(["data"], .directory)], working := [], dataDir := "/data/" }
    files.WritesFile "../data/notes/x.txt" none "hi" ["data", "notes", "x.txt"] ∧
      ∀ p, files.WritesFile "../data/notes/x.txt" none "hi" p → files.dataPlace <+: p := by
  intro files
  have hrel : isAbsolutePath "../data/notes/x.txt" = false := by decide +kernel
  exact ⟨by decide +kernel, (write_below_iff hrel none "hi").2.1.2 (.inr (by decide +kernel))⟩

/-- A path that leads out of the data directory. -/
theorem write_outside :
    let files : FileAccess := { tree := [(["data"], .directory)], working := [], dataDir := "/data" }
    isAbsolutePath "../notes.txt" = false ∧ files.WritesFile "../notes.txt" none "hi" ["notes.txt"] ∧
      ¬ files.dataPlace <+: ["notes.txt"] := by
  decide +kernel

end FileAccess
end DirectiveEngine
