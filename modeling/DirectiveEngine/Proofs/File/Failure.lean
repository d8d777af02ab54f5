import DirectiveEngine.Proofs.File.Place
import Mathlib.Data.List.Infix

/-!
# Writes that fail

A write makes the directories on the way to its file before it reads, edits and replaces the file, and replacing comes
last.  So at whatever point it fails, each file holds what it held and none is new; all that is left are directories that
hold no file (`FileAccess.write_all_or_nothing`).  That nothing stands below a directory that is new follows from a law of
trees, which every write keeps: each entry stands in a directory (`FileTree.IsSound`).
-/

namespace DirectiveEngine

variable {tree tree' : FileTree} {place next p q : FilePath} {names : List Text} {name path value : Text}
  {entry : FileEntry}

/-! ### Sound trees -/

namespace FileTree

/-- Each entry stands in a directory. -/
def IsSound (tree : FileTree) : Prop :=
  ∀ p entry, tree.get? p = some entry → tree.get? p.dropLast = some .directory

theorem IsSound.of_dropLast (h : tree.IsSound) (hp : (tree.get? p).isSome) :
    tree.get? p.dropLast = some .directory := by
  obtain ⟨entry, hentry⟩ := Option.isSome_iff_exists.1 hp
  exact h p entry hentry

/-- Above an entry there are directories only. -/
theorem IsSound.above (h : tree.IsSound) (hpq : p <+: q) (hne : p ≠ q) (hq : (tree.get? q).isSome) :
    tree.get? p = some .directory := by
  obtain ⟨rest, rfl⟩ := hpq
  induction rest using List.reverseRecOn with
  | nil => simp at hne
  | append_singleton rest name ih =>
    have hparent := h.of_dropLast hq
    rw [← List.append_assoc, List.dropLast_concat] at hparent
    by_cases hrest : rest = []
    · rwa [hrest, List.append_nil] at hparent
    · exact ih (by simpa using hrest) (by simp [hparent])

/-- One name further there is a directory, or a place for an entry of a directory. -/
theorem IsSound.step (h : tree.IsSound) (hstep : tree.step place name = .ok next) :
    tree.get? next = some .directory ∨ tree.get? next.dropLast = some .directory := by
  obtain ⟨hplace, rfl⟩ := step_eq_ok hstep
  unfold FilePath.enter
  split
  · exact .inl hplace
  · split
    · exact .inl (h _ _ hplace)
    · rw [List.dropLast_concat]
      exact .inr hplace

/-- An entry may be put into a directory, where it takes no directory's place. -/
theorem IsSound.put (h : tree.IsSound) (hp : p ≠ []) (hparent : tree.get? p.dropLast = some .directory)
    (hplace : tree.get? p ≠ some .directory) (entry : FileEntry) : (tree.put p entry).IsSound := by
  intro q e hq
  rw [get?_put _ _ _ _ hp] at hq ⊢
  have hdirectory : tree.get? q.dropLast = some .directory := by
    split at hq
    · rwa [‹q = p›]
    · exact h q e hq
  rw [if_neg, hdirectory]
  rintro rfl
  exact hplace hdirectory

theorem IsSound.makeDirectories (h : tree.IsSound) (place : FilePath) (names : List Text) :
    (tree.makeDirectories place names).1.IsSound := by
  induction names generalizing tree place with
  | nil => exact h
  | cons name names ih =>
    unfold FileTree.makeDirectories
    split
    · exact h
    · rename_i next hstep
      split
      · exact ih h next
      · rename_i hmissing
        have hnone : tree.get? next = none := Option.not_isSome_iff_eq_none.1 hmissing
        have hparent := (h.step hstep).resolve_left (by simp [hnone])
        have hne : next ≠ [] := by
          rintro rfl
          simp at hnone
        exact ih (h.put hne hparent (by simp [hnone]) _) next

theorem IsSound.writeText {t : Text} (h : tree.IsSound) (hstep : tree.step place name = .ok next)
    (hwrite : tree.writeText next t = .ok tree') : tree'.IsSound := by
  rcases writeText_eq_ok hwrite with ⟨-, rfl⟩ | ⟨hne, hdirectory, rfl⟩
  · exact h
  · exact h.put hne ((h.step hstep).resolve_left hdirectory) hdirectory _

/-- A tree has all that another has, and beyond that only directories. -/
structure KeepsFiles (tree tree' : FileTree) : Prop where
  kept : ∀ p entry, tree.get? p = some entry → tree'.get? p = some entry
  new : ∀ p entry, tree.get? p = none → tree'.get? p = some entry → entry = .directory

theorem keepsFiles_makeDirectories (tree : FileTree) (place : FilePath) (names : List Text) :
    tree.KeepsFiles (tree.makeDirectories place names).1 where
  kept p entry hentry := (get?_makeDirectories_of_isSome (by simp [hentry]) place names).trans hentry
  new p entry hnone hentry := by
    rcases get?_makeDirectories tree place names p with hsame | ⟨-, hmade, -⟩
    · simp [hsame, hnone] at hentry
    · exact (Option.some.inj (hmade.symm.trans hentry)).symm

theorem KeepsFiles.file_iff (h : tree.KeepsFiles tree') (p : FilePath) (content : FileContent) :
    tree'.get? p = some (.file content) ↔ tree.get? p = some (.file content) := by
  refine ⟨fun hfile => ?_, h.kept p _⟩
  cases hold : tree.get? p with
  | none => cases h.new p _ hold hfile
  | some entry => rw [← h.kept p entry hold, hfile]

/-- No file stands in a directory that is new. -/
theorem KeepsFiles.empty (h : tree.KeepsFiles tree') (hsound : tree.IsSound) (hp : tree.get? p = none) (hpq : p <+: q)
    (content : FileContent) : tree'.get? q ≠ some (.file content) := by
  intro hfile
  have hold := (h.file_iff q content).1 hfile
  by_cases hne : p = q
  · rw [hne, hold] at hp
    cases hp
  · rw [hsound.above hpq hne (by simp [hold])] at hp
    cases hp

end FileTree

/-! ### Writes -/

namespace FileAccess

variable {files after : FileAccess} {key : Option Text}

theorem isSound_write (h : files.tree.IsSound) (path : Text) (key : Option Text) (value : Text) :
    (files.write path key value).1.tree.IsSound := by
  rcases files.write_cases path key value with
    ⟨directories, e, -, hwrite⟩ | ⟨directories, name, tree, tree', -, -, hmake, hstep, hat, hwrite⟩
  · rw [hwrite]
    exact h.makeDirectories _ _
  · obtain ⟨t, ht, -⟩ := writeAt_eq_ok hat
    have hmid := h.makeDirectories (files.start (files.target path)) directories
    rw [hmake] at hmid
    rw [hwrite]
    exact hmid.writeText hstep ht

/-- All that a failed write does is to make directories. -/
theorem write_eq_error {error : FileError} (h : files.write path key value = (after, .error error)) :
    files.tree.KeepsFiles after.tree ∧ after.working = files.working ∧ after.dataDir = files.dataDir := by
  rcases files.write_cases path key value with ⟨directories, e, -, hwrite⟩ | ⟨_, _, _, _, -, -, -, -, -, hwrite⟩
  · cases h.symm.trans hwrite
    exact ⟨FileTree.keepsFiles_makeDirectories _ _ _, rfl, rfl⟩
  · cases h.symm.trans hwrite

/-- The content of the file that a path is written to, if there is one. -/
inductive Holds (files : FileAccess) (path : Text) : Option Text → Prop where
  | nothing (h : files.tree.get? (files.placeOf path) = none) : Holds files path none
  | text {t : Text} (h : files.tree.readText (files.placeOf path) = .ok t) : Holds files path (some t)

/-- The whole text that a write is for: the value itself, or what an edit of the document makes of the content. -/
def IsNewContent (files : FileAccess) (path : Text) (key : Option Text) (value t : Text) : Prop :=
  match key with
  | none => t = value
  | some key => ∃ content, files.Holds path content ∧ editDocument content key value = .ok t

theorem isNewContent_of_writeAt (hmid : files.tree.KeepsFiles tree)
    (h : writeAt tree (files.target path) (files.placeOf path) key value = .ok tree') :
    ∃ t, files.IsNewContent path key value t ∧ tree.writeText (files.placeOf path) t = .ok tree' := by
  cases key with
  | none =>
    unfold writeAt at h
    simp only at h
    split at h
    · rename_i hwrite
      cases h
      exact ⟨value, rfl, hwrite⟩
    · cases h
  | some key =>
    obtain ⟨t, hwrite, hedit⟩ := writeAt_eq_ok h
    obtain ⟨content, hcontent, hheld⟩ := hedit key rfl
    refine ⟨t, ⟨content, ?_, hcontent⟩, hwrite⟩
    -- on the way no file was made or changed
    rcases hheld with ⟨hnone, rfl⟩ | ⟨t, hread, rfl⟩
    · refine .nothing (Option.eq_none_iff_forall_ne_some.2 fun entry hentry => ?_)
      simp [hmid.kept _ _ hentry] at hnone
    · refine .text (Eq.trans ?_ hread)
      unfold FileTree.readText at hread ⊢
      cases hentry : tree.get? (files.placeOf path) with
      | none => simp [hentry] at hread
      | some entry =>
        cases entry with
        | directory => simp [hentry] at hread
        | file content => rw [(hmid.file_iff _ _).1 hentry]

/-- A write that succeeds leaves the whole new text in one file, unless a device takes it, and no other file changes. -/
theorem write_eq_ok (h : files.write path key value = (after, .ok ())) :
    (∃ t, files.IsNewContent path key value t ∧ (files.tree.get? (files.placeOf path) = some (.file .sink) ∨
      after.tree.get? (files.placeOf path) = some (.file (.text t)))) ∧
    ∀ p ≠ files.placeOf path, ∀ content,
      after.tree.get? p = some (.file content) ↔ files.tree.get? p = some (.file content) := by
  rcases files.write_cases path key value with
    ⟨_, _, -, hwrite⟩ | ⟨directories, name, tree, tree', -, -, hmake, -, hat, hwrite⟩
  · cases h.symm.trans hwrite
  · cases h.symm.trans hwrite
    have hmid := FileTree.keepsFiles_makeDirectories files.tree (files.start (files.target path)) directories
    rw [hmake] at hmid
    obtain ⟨t, hnew, ht⟩ := isNewContent_of_writeAt hmid hat
    refine ⟨⟨t, hnew, ?_⟩, fun p hp content => ?_⟩
    · rcases FileTree.writeText_eq_ok ht with ⟨hsink, rfl⟩ | ⟨hne, -, rfl⟩
      · exact .inl ((hmid.file_iff _ _).1 hsink)
      · exact .inr (by simp [FileTree.get?_put _ _ _ _ hne])
    · rcases FileTree.get?_writeText ht p with hsame | ⟨rfl, -⟩
      · rw [hsame]
        exact hmid.file_iff p content
      · exact absurd rfl hp

/-- If a write fails, whyever, then each file is there as it was and no other, no directory is gone, and those that are
new hold no file; if it does not, then its one file has the whole new text and all others are as they were.  Either way
each entry still stands in a directory. -/
theorem write_all_or_nothing (files : FileAccess) (path : Text) (key : Option Text) (value : Text) :
    (∀ after error, files.write path key value = (after, .error error) →
      (∀ p content, after.tree.get? p = some (.file content) ↔ files.tree.get? p = some (.file content)) ∧
      (∀ p, files.tree.get? p = some .directory → after.tree.get? p = some .directory) ∧
      (files.tree.IsSound → ∀ p, files.tree.get? p = none → after.tree.get? p = some .directory →
        ∀ q content, p <+: q → after.tree.get? q ≠ some (.file content)) ∧
      after.working = files.working ∧ after.dataDir = files.dataDir) ∧
    (∀ after, files.write path key value = (after, .ok ()) →
      (∃ t, files.IsNewContent path key value t ∧ (files.tree.get? (files.placeOf path) = some (.file .sink) ∨
        after.tree.get? (files.placeOf path) = some (.file (.text t)))) ∧
      ∀ p ≠ files.placeOf path, ∀ content,
        after.tree.get? p = some (.file content) ↔ files.tree.get? p = some (.file content)) ∧
    (files.tree.IsSound → (files.write path key value).1.tree.IsSound) := by
  refine ⟨fun after error h => ?_, fun after h => write_eq_ok h, fun h => isSound_write h path key value⟩
  obtain ⟨hkept, hworking, hdata⟩ := write_eq_error h
  exact ⟨hkept.file_iff, fun p hp => hkept.kept p _ hp, fun hsound p hp _ q content hpq => hkept.empty hsound hp hpq content,
    hworking, hdata⟩

/-- A document that can not be read, at the end of a path through a directory that is missing. -/
theorem write_all_or_nothing_malformed :
    let tree : FileTree := [(["data"], .directory), (["data", "f.yml"], .file (.text "a: ["))]
    let files : FileAccess := { tree, working := [], dataDir := "/data" }
    let after : FileAccess := { files with tree := tree.put ["data", "new"] .directory }
    files.write "new/../f.yml" (some "a") "1" = (after, .error .malformed) ∧ tree.IsSound ∧
      (∀ p content, after.tree.get? p = some (.file content) ↔ tree.get? p = some (.file content)) ∧
      ∀ (q : FilePath) content, (["data", "new"] : FilePath) <+: q → after.tree.get? q ≠ some (.file content) := by
  intro tree files after
  have hwrite : files.write "new/../f.yml" (some "a") "1" = (after, .error .malformed) := by decide +kernel
  have hempty : FileTree.IsSound [] := fun p entry hp => by
    cases p with
    | nil => rfl
    | cons name p => cases hp
  have hdata : FileTree.IsSound [(["data"], .directory)] := hempty.put (p := ["data"]) (by simp) rfl (by decide) _
  have hsound : tree.IsSound := hdata.put (p := ["data", "f.yml"]) (by simp) (by decide +kernel) (by decide +kernel) _
  obtain ⟨hfiles, -, hnew, -⟩ := (write_all_or_nothing files "new/../f.yml" (some "a") "1").1 after _ hwrite
  exact ⟨hwrite, hsound, hfiles, hnew hsound ["data", "new"] (by decide +kernel) (by decide +kernel)⟩

end FileAccess
end DirectiveEngine
