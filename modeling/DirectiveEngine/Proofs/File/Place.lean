import DirectiveEngine.File.Access
import DirectiveEngine.Proofs.Except

/-!
# Places of files

Without links, the names of a written path alone say where it leads (`FilePath.follow`); the tree only says whether
they can be followed.  So a write touches the place of its path and no other, but for the directories that it makes on
the way (`FileAccess.get?_write`), and behind a write that succeeds the path leads to what was written
(`FileAccess.write_cases`, `FileTree.locate_of_makeDirectories`).
-/

namespace DirectiveEngine

variable {tree tree' : FileTree} {place next p directory : FilePath} {name path t : Text} {names : List Text}

/-! ### Names -/

namespace FilePath

/-- Where one name leads. -/
def enter (place : FilePath) (name : Text) : FilePath :=
  if name = "" ∨ name = "." then place else if name = ".." then place.dropLast else place ++ [name]

/-- Where names lead, one after the other. -/
def follow (place : FilePath) (names : List Text) : FilePath :=
  names.foldl enter place

theorem follow_append (place : FilePath) (names names' : List Text) :
    follow place (names ++ names') = follow (follow place names) names' :=
  List.foldl_append

end FilePath

open FilePath (enter follow)

/-! ### Following names in a tree -/

namespace FileTree

@[simp] theorem get?_nil (tree : FileTree) : tree.get? [] = some .directory :=
  rfl

theorem step_eq_ok (h : tree.step place name = .ok next) :
    tree.get? place = some .directory ∧ next = enter place name := by
  unfold step at h
  unfold enter
  split at h
  · cases h
  · rename_i hdirectory
    refine ⟨Classical.not_not.1 hdirectory, ?_⟩
    split at h
    · cases h
      rw [if_pos ‹_›]
    · split at h
      · cases h
        rw [if_neg ‹_›, if_pos ‹_›]
      · split at h
        · cases h
        · cases h
          rw [if_neg ‹_›, if_neg ‹_›]

/-- Of the tree a step sees only that it starts in a directory. -/
theorem step_congr (h : tree.get? place = some .directory) (h' : tree'.get? place = some .directory) (name : Text) :
    tree.step place name = tree'.step place name := by
  simp only [step, h, h', ne_eq, not_true_eq_false, if_false]

theorem locate_cons (tree : FileTree) (place : FilePath) (name : Text) (names : List Text) :
    tree.locate place (name :: names) = (tree.step place name).bind fun next =>
      if (tree.get? next).isSome then tree.locate next names else .error .notFound := by
  unfold locate
  rw [List.foldlM_cons]
  cases tree.step place name with
  | error f => rfl
  | ok next =>
    show (if (tree.get? next).isSome then Except.ok next else .error FileFault.notFound).bind _ = _
    split
    · rename_i hsome
      simp [Except.bind, hsome]
    · rename_i hnone
      simp [Except.bind, hnone]

theorem locate_append (tree : FileTree) (place : FilePath) (names names' : List Text) :
    tree.locate place (names ++ names') = (tree.locate place names).bind fun q => tree.locate q names' :=
  List.foldlM_append

theorem locate_cons_eq_ok (h : tree.locate place (name :: names) = .ok p) :
    ∃ next, tree.step place name = .ok next ∧ (tree.get? next).isSome ∧ tree.locate next names = .ok p := by
  rw [locate_cons] at h
  cases hstep : tree.step place name with
  | error f => simp [hstep, Except.bind] at h
  | ok next =>
    by_cases hnext : (tree.get? next).isSome
    · exact ⟨next, rfl, hnext, by simpa [hstep, Except.bind, hnext] using h⟩
    · simp [hstep, Except.bind, hnext] at h

theorem locate_cons_of_step (h : tree.step place name = .ok next) (hnext : (tree.get? next).isSome) :
    tree.locate place (name :: names) = tree.locate next names := by
  rw [locate_cons, h]
  simp [Except.bind, hnext]

theorem locate_eq_ok (h : tree.locate place names = .ok p) :
    p = follow place names ∧ (names ≠ [] → (tree.get? p).isSome) := by
  induction names generalizing place with
  | nil =>
    cases h
    exact ⟨rfl, fun hne => absurd rfl hne⟩
  | cons name names ih =>
    obtain ⟨next, hstep, hnext, hrest⟩ := locate_cons_eq_ok h
    obtain ⟨hp, hsome⟩ := ih hrest
    refine ⟨by rw [hp, (step_eq_ok hstep).2]; rfl, fun _ => ?_⟩
    cases names with
    | nil =>
      cases hrest
      exact hnext
    | cons name' names => exact hsome (by simp)

/-- On the way to a directory there are directories only, so a tree that has these can be followed as well. -/
theorem locate_congr (h : ∀ q, tree.get? q = some .directory → tree'.get? q = some .directory)
    (hdirectory : tree.get? directory = some .directory) (hlocate : tree.locate place names = .ok directory) :
    tree'.locate place names = .ok directory ∧ tree.get? place = some .directory := by
  induction names generalizing place with
  | nil =>
    cases hlocate
    exact ⟨rfl, hdirectory⟩
  | cons name names ih =>
    obtain ⟨next, hstep, -, hrest⟩ := locate_cons_eq_ok hlocate
    obtain ⟨hrest', hnext⟩ := ih hrest
    have hplace := (step_eq_ok hstep).1
    have hstep' : tree'.step place name = .ok next := (step_congr (h place hplace) hplace name).trans hstep
    exact ⟨(locate_cons_of_step hstep' (by simp [h next hnext])).trans hrest', hplace⟩

/-! ### Making directories -/

/-- A directory is made where names lead to nothing, and all else stays. -/
theorem get?_makeDirectories (tree : FileTree) (place : FilePath) (names : List Text) (p : FilePath) :
    (tree.makeDirectories place names).1.get? p = tree.get? p ∨
      tree.get? p = none ∧ (tree.makeDirectories place names).1.get? p = some .directory ∧
        ∃ front, front <+: names ∧ p = follow place front := by
  induction names generalizing tree place with
  | nil => exact .inl rfl
  | cons name names ih =>
    unfold makeDirectories
    split
    · exact .inl rfl
    · rename_i next hstep
      have hfront {front : List Text} (h : front <+: names ∧ p = follow next front) :
          ∃ front, front <+: name :: names ∧ p = follow place front :=
        ⟨name :: front, List.cons_prefix_cons.2 ⟨rfl, h.1⟩, by rw [h.2, (step_eq_ok hstep).2]; rfl⟩
      split
      · exact (ih tree next).imp_right fun ⟨hnone, hmade, front, h⟩ => ⟨hnone, hmade, hfront h⟩
      · rename_i hmissing
        have hne : next ≠ [] := by
          rintro rfl
          exact hmissing rfl
        have hput := get?_put next p .directory tree hne
        rcases ih (tree.put next .directory) next with hsame | ⟨hnone, hmade, front, h⟩
        · by_cases hp : p = next
          · rw [if_pos hp] at hput
            refine .inr ⟨?_, hsame.trans hput, hfront ⟨List.nil_prefix, hp⟩⟩
            rw [hp]
            exact Option.not_isSome_iff_eq_none.1 hmissing
          · rw [if_neg hp] at hput
            exact .inl (hsame.trans hput)
        · by_cases hp : p = next
          · rw [if_pos hp, hnone] at hput
            cases hput
          · rw [if_neg hp, hnone] at hput
            exact .inr ⟨hput.symm, hmade, hfront h⟩

theorem get?_makeDirectories_of_isSome (h : (tree.get? p).isSome) (place : FilePath) (names : List Text) :
    (tree.makeDirectories place names).1.get? p = tree.get? p :=
  (get?_makeDirectories tree place names p).resolve_right fun ⟨hnone, _⟩ => by simp [hnone] at h

/-- The directories that were made can be followed. -/
theorem locate_of_makeDirectories (h : tree.makeDirectories place names = (tree', .ok directory)) :
    tree'.locate place names = .ok directory ∧ tree'.get? directory = some .directory := by
  induction names generalizing tree place with
  | nil =>
    unfold makeDirectories at h
    split at h
    · rename_i hplace
      cases h
      exact ⟨rfl, hplace⟩
    · cases h
  | cons name names ih =>
    unfold makeDirectories at h
    cases hstep : tree.step place name with
    | error f =>
      rw [hstep] at h
      cases h
    | ok next =>
      rw [hstep] at h
      have hplace := (step_eq_ok hstep).1
      -- whether or not `next` was there, making goes on in a tree that has it
      obtain ⟨mid, hmid, hplace', hnext⟩ : ∃ mid, makeDirectories mid next names = (tree', .ok directory) ∧
          get? mid place = some .directory ∧ (get? mid next).isSome := by
        simp only at h
        split at h
        · exact ⟨tree, h, hplace, ‹_›⟩
        · rename_i hmissing
          have hne : next ≠ [] := by
            rintro rfl
            exact hmissing rfl
          refine ⟨tree.put next .directory, h, ?_, by simp [get?_put _ _ _ _ hne]⟩
          rw [get?_put _ _ _ _ hne]
          split
          · rfl
          · exact hplace
      obtain ⟨hlocate, hdirectory⟩ := ih hmid
      have hkept {q : FilePath} (hq : (get? mid q).isSome) : get? tree' q = get? mid q := by
        have hsame := get?_makeDirectories_of_isSome hq next names
        rwa [hmid] at hsame
      have hplace'' : get? tree' place = some .directory := (hkept (by simp [hplace'])).trans hplace'
      refine ⟨?_, hdirectory⟩
      rw [locate_cons_of_step ((step_congr hplace'' hplace name).trans hstep) (by rwa [hkept hnext]), hlocate]

/-! ### Writing files -/

theorem writeText_eq_ok (h : tree.writeText place t = .ok tree') :
    tree.get? place = some (.file .sink) ∧ tree' = tree ∨
      place ≠ [] ∧ tree.get? place ≠ some .directory ∧ tree' = tree.put place (.file (.text t)) := by
  unfold writeText at h
  split at h
  · cases h
  · rename_i hsink
    cases h
    exact .inl ⟨hsink, rfl⟩
  · rename_i hdirectory hsink
    cases h
    refine .inr ⟨?_, hdirectory, rfl⟩
    rintro rfl
    exact hdirectory rfl

/-- A write changes the entry at its place, which becomes a file with the text, and no other one. -/
theorem get?_writeText (h : tree.writeText place t = .ok tree') (p : FilePath) :
    tree'.get? p = tree.get? p ∨ p = place ∧ tree'.get? p = some (.file (.text t)) := by
  rcases writeText_eq_ok h with ⟨-, rfl⟩ | ⟨hne, -, rfl⟩
  · exact .inl rfl
  · rw [get?_put _ _ _ _ hne]
    by_cases hp : p = place
    · exact .inr ⟨hp, if_pos hp⟩
    · exact .inl (if_neg hp)

end FileTree

/-! ### Written paths -/

theorem splitFileName_prefix (names : List Text) : (FileAccess.splitFileName names).1 <+: names := by
  unfold FileAccess.splitFileName
  simp only
  split
  · exact List.nil_prefix
  · rename_i last directories hrest
    have hsuffix : directories <:+ names.reverse :=
      (List.suffix_cons last directories).trans (hrest ▸ List.dropWhile_suffix _)
    simpa using List.reverse_prefix.2 hsuffix

theorem splitFileName_eq {directories : List Text}
    (h : FileAccess.splitFileName names = (directories, some name, false)) : names = directories ++ [name] := by
  unfold FileAccess.splitFileName at h
  simp only at h
  split at h
  · cases h
  · rename_i last directories' hrest
    simp only [Prod.mk.injEq, Option.some.injEq, bne_eq_false_iff_eq] at h
    obtain ⟨rfl, rfl, hlength⟩ := h
    have hwhole : names.reverse.dropWhile (fun n : Text => n.isEmpty || n == ['.']) = names.reverse :=
      (List.dropWhile_suffix _).eq_of_length (by rw [hlength, List.length_reverse])
    rw [hwhole] at hrest
    rw [← List.reverse_reverse names, hrest, List.reverse_cons]

namespace FileAccess

/-- Where following a written path starts. -/
def start (files : FileAccess) (t : Text) : FilePath :=
  if isAbsolutePath t then [] else files.working

/-- The place of the data directory. -/
def dataPlace (files : FileAccess) : FilePath :=
  follow (files.start files.dataDir) (pathNames files.dataDir)

/-- What a path stands for that is written to. -/
def target (files : FileAccess) (path : Text) : Text :=
  joinPath files.dataDir path

/-- The place that a path is written to. -/
def placeOf (files : FileAccess) (path : Text) : FilePath :=
  follow (files.start (files.target path)) (pathNames (files.target path))

variable {files files' : FileAccess} {key : Option Text} {value : Text}

theorem pathNames_append (a b : Text) : pathNames (a ++ '/' :: b) = pathNames a ++ pathNames b :=
  List.splitOn_append_cons_of_beq a b (beq_self_eq_true _)

private theorem follow_concat_nil (place : FilePath) (names : List Text) :
    follow place (names ++ [[]]) = follow place names := by
  rw [FilePath.follow_append]
  rfl

/-- A relative path is followed from the data directory. -/
theorem target_relative (files : FileAccess) (h : isAbsolutePath path = false) :
    ∃ front, front <+: pathNames files.dataDir ∧
      follow (files.start files.dataDir) front = files.dataPlace ∧
      pathNames (files.target path) = front ++ pathNames path ∧
      files.start (files.target path) = files.start files.dataDir := by
  have hstart {t u : Text} (hhead : t.head? = u.head?) : files.start t = files.start u := by
    unfold start isAbsolutePath
    rw [hhead]
  by_cases hempty : files.dataDir = []
  · have htarget : files.target path = path := by simp [target, joinPath, hempty]
    refine ⟨[], List.nil_prefix, ?_, by rw [htarget]; rfl, ?_⟩
    · rw [dataPlace, hempty]
      exact (follow_concat_nil _ []).symm
    · rw [htarget, hempty, start, h]
      rfl
  · by_cases hslash : files.dataDir.getLast? = some '/'
    · -- the directory ends with a slash, behind which the path goes on
      obtain ⟨d, hd⟩ := List.getLast?_eq_some_iff.1 hslash
      have htarget : files.target path = d ++ '/' :: path := by simp [target, joinPath, h, hd]
      have hnames : pathNames files.dataDir = pathNames d ++ [[]] := by
        rw [hd]
        exact pathNames_append d []
      refine ⟨pathNames d, hnames ▸ List.prefix_append _ _, ?_, ?_, hstart ?_⟩
      · rw [dataPlace, hnames, follow_concat_nil]
      · rw [htarget, pathNames_append]
      · rw [htarget, hd]
        cases d <;> rfl
    · have htarget : files.target path = files.dataDir ++ '/' :: path := by
        simp [target, joinPath, h, hempty, hslash]
      refine ⟨pathNames files.dataDir, List.prefix_rfl, rfl, ?_, hstart ?_⟩
      · rw [htarget, pathNames_append]
      · rw [htarget]
        obtain ⟨c, d, hd⟩ := List.exists_cons_of_ne_nil hempty
        rw [hd]
        rfl

theorem writeAt_eq_ok (h : writeAt tree t place key value = .ok tree') :
    ∃ written, tree.writeText place written = .ok tree' ∧
      ∀ k ∈ key, ∃ content, editDocument content k value = .ok written ∧
        (tree.get? place = none ∧ content = none ∨ ∃ c, tree.readText place = .ok c ∧ content = some c) := by
  unfold writeAt at h
  cases key with
  | none =>
    simp only at h
    split at h
    · rename_i hwrite
      cases h
      exact ⟨value, hwrite, by simp⟩
    · cases h
  | some k =>
    simp only at h
    split at h
    · rename_i hnone
      obtain ⟨written, hedit, hwrite⟩ := bind_eq_ok h
      split at hwrite
      · rename_i hwritten
        cases hwrite
        exact ⟨written, hwritten, fun k' hk' => ⟨none, by cases hk'; exact hedit, .inl ⟨hnone, rfl⟩⟩⟩
      · cases hwrite
    · split at h
      · cases h
      · rename_i content hread
        obtain ⟨written, hedit, hwrite⟩ := bind_eq_ok h
        split at hwrite
        · rename_i hwritten
          cases hwrite
          exact ⟨written, hwritten, fun k' hk' => ⟨some content, by cases hk'; exact hedit, .inr ⟨content, hread, rfl⟩⟩⟩
        · cases hwrite

/-- A name that a file can have leads on from its directory. -/
theorem filePlace_eq_ok {name : Option Text} {goesOn : Bool} (h : filePlace tree directory name goesOn = .ok place) :
    ∃ n, name = some n ∧ goesOn = false ∧ tree.step directory n = .ok place := by
  unfold filePlace at h
  cases name with
  | none => cases h
  | some n =>
    simp only at h
    split at h
    · cases h
    · split at h
      · cases h
      · rename_i hstep
        cases goesOn with
        | false =>
          cases h
          exact ⟨n, rfl, rfl, hstep⟩
        | true =>
          simp only [Bool.not_true, Bool.false_eq_true, if_false] at h
          split at h <;> cases h

/-- Behind making directories, the file of a path stands at its place. -/
theorem eq_placeOf_of_filePlace {directories : List Text} {name : Option Text} {goesOn : Bool}
    (hsplit : splitFileName (pathNames (files.target path)) = (directories, name, goesOn))
    (hmake : tree.makeDirectories (files.start (files.target path)) directories = (tree', .ok directory))
    (h : filePlace tree' directory name goesOn = .ok place) :
    ∃ n, pathNames (files.target path) = directories ++ [n] ∧
      directory = follow (files.start (files.target path)) directories ∧
      tree'.step directory n = .ok place ∧ place = files.placeOf path := by
  obtain ⟨n, rfl, rfl, hstep⟩ := filePlace_eq_ok h
  have hnames := splitFileName_eq hsplit
  have hdirectory := (FileTree.locate_eq_ok (FileTree.locate_of_makeDirectories hmake).1).1
  refine ⟨n, hnames, hdirectory, hstep, ?_⟩
  rw [placeOf, hnames, FilePath.follow_append, ← hdirectory]
  exact (FileTree.step_eq_ok hstep).2

/-- A write either fails behind the directories that it made, or goes on to change what its path leads to. -/
theorem write_cases (files : FileAccess) (path : Text) (key : Option Text) (value : Text) :
    (∃ directories e, directories <+: pathNames (files.target path) ∧ files.write path key value =
      ({ files with tree := (files.tree.makeDirectories (files.start (files.target path)) directories).1 }, .error e)) ∨
    ∃ directories name tree tree', pathNames (files.target path) = directories ++ [name] ∧
      '\x00' ∉ files.target path ∧
      files.tree.makeDirectories (files.start (files.target path)) directories =
        (tree, .ok (follow (files.start (files.target path)) directories)) ∧
      tree.step (follow (files.start (files.target path)) directories) name = .ok (files.placeOf path) ∧
      writeAt tree (files.target path) (files.placeOf path) key value = .ok tree' ∧
      files.write path key value = ({ files with tree := tree' }, .ok ()) := by
  generalize hresult : files.write path key value = result
  unfold write at hresult
  have htarget : joinPath files.dataDir path = files.target path := rfl
  have hstart : (if isAbsolutePath (files.target path) then [] else files.working) = files.start (files.target path) :=
    rfl
  obtain ⟨directories, name, goesOn, hsplit⟩ : ∃ directories name goesOn,
      splitFileName (pathNames (files.target path)) = (directories, name, goesOn) := ⟨_, _, _, rfl⟩
  have hprefix := splitFileName_prefix (pathNames (files.target path))
  rw [hsplit] at hprefix
  simp only [htarget, hstart, hsplit] at hresult
  split at hresult
  · exact .inl ⟨[], _, List.nil_prefix, hresult.symm⟩
  · cases hmake : files.tree.makeDirectories (files.start (files.target path)) directories with
    | mk tree made =>
      have hfail {e : FileError} (h : ({ files with tree }, Except.error e) = result) :
          ∃ directories e, directories <+: pathNames (files.target path) ∧ result =
            ({ files with tree := (files.tree.makeDirectories (files.start (files.target path)) directories).1 },
              .error e) :=
        ⟨directories, e, hprefix, by rw [hmake, ← h]⟩
      rw [hmake] at hresult
      cases made with
      | error f => exact .inl (hfail hresult)
      | ok directory =>
        simp only at hresult
        split at hresult
        · exact .inl (hfail hresult)
        · rename_i hnul
          cases hplace : filePlace tree directory name goesOn with
          | error f =>
            rw [hplace] at hresult
            exact .inl (hfail hresult)
          | ok place =>
            obtain ⟨n, hnames, rfl, hstep, rfl⟩ := eq_placeOf_of_filePlace hsplit hmake hplace
            rw [hplace] at hresult
            cases hat : writeAt tree (files.target path) (files.placeOf path) key value with
            | error e =>
              simp only [hat] at hresult
              exact .inl (hfail hresult)
            | ok tree' =>
              simp only [hat] at hresult
              exact .inr ⟨directories, n, tree, tree', hnames, hnul, hmake, hstep, hat, hresult.symm⟩

/-- What a write changes: the file that its path leads to, and directories on the way that were missing. -/
theorem get?_write (files : FileAccess) (path : Text) (key : Option Text) (value : Text) (p : FilePath) :
    (files.write path key value).1.tree.get? p = files.tree.get? p ∨
      (files.tree.get? p = none ∧ (files.write path key value).1.tree.get? p = some .directory ∧
        ∃ front, front <+: pathNames (files.target path) ∧ p = follow (files.start (files.target path)) front) ∨
      p = files.placeOf path ∧ ∃ t, (files.write path key value).1.tree.get? p = some (.file (.text t)) := by
  rcases files.write_cases path key value with
    ⟨directories, e, hprefix, hwrite⟩ | ⟨directories, name, tree, tree', hnames, -, hmake, -, hat, hwrite⟩
  · rw [hwrite]
    rcases FileTree.get?_makeDirectories files.tree (files.start (files.target path)) directories p with
      hsame | ⟨hnone, hmade, front, hfront, hp⟩
    · exact .inl hsame
    · exact .inr (.inl ⟨hnone, hmade, front, hfront.trans hprefix, hp⟩)
  · obtain ⟨t, ht, -⟩ := writeAt_eq_ok hat
    have hmid := FileTree.get?_makeDirectories files.tree (files.start (files.target path)) directories p
    rw [hmake] at hmid
    rw [hwrite]
    rcases FileTree.get?_writeText ht p with hsame | ⟨hp, hwritten⟩
    · rw [hsame]
      rcases hmid with hsame | ⟨hnone, hmade, front, hfront, hp⟩
      · exact .inl hsame
      · exact .inr (.inl ⟨hnone, hmade, front, hfront.trans (hnames ▸ List.prefix_append _ _), hp⟩)
    · exact .inr (.inr ⟨hp, t, hwritten⟩)

end FileAccess
end DirectiveEngine
