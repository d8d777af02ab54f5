import DirectiveEngine.Proofs.File.Place
import DirectiveEngine.Proofs.Yaml.Edit
import Mathlib.Data.List.Infix

/-!
# Keyed writes

A keyed write that succeeds edits the document of the file that its path leads to, and the path can be followed behind
it (`FileAccess.write_keyed`).  So a row of them edits one document, as long as what is written can be read back
(`FileAccess.keyedWrites?_eq_some`): no update is lost on the way, and other files stay (`FileAccess.keyed_writes_kept`).
-/

namespace DirectiveEngine

namespace FileAccess

variable {files files' after : FileAccess} {path key value : Text} {writes : List (Text × Text)} {d e : Yaml}

/-! ### The document of a file -/

/-- The document that a keyed write starts from: that of the file, or an empty one if there is no file. -/
inductive StartsFrom (files : FileAccess) (path : Text) : Yaml → Prop where
  | absent (h : files.tree.get? (files.placeOf path) = none) : StartsFrom files path (.mapping [])
  | present {t : Text} {d : Yaml} (h : files.tree.get? (files.placeOf path) = some (.file (.text t)))
      (hd : document t = .ok d) : StartsFrom files path d

/-- The names of a path can be followed from the data directory, up to its file. -/
def Reaches (files : FileAccess) (path : Text) : Prop :=
  files.tree.locateText files.working (files.target path) = .ok (files.placeOf path)

/-- A path leads nowhere from the working directory. -/
def IsMissing (files : FileAccess) (path : Text) : Prop :=
  (files.tree.locateText files.working path).toOption = none

instance (files : FileAccess) (path : Text) : Decidable (files.IsMissing path) :=
  inferInstanceAs (Decidable (_ = _))

theorem document_write (hback : Yaml.read? e.write = some e) {entries : List (Yaml × Yaml)}
    (he : e = .mapping entries) (hne : entries ≠ []) : document e.write = .ok e := by
  have htrim : e.write.trim.isEmpty = false := by
    rw [he]
    simpa using Yaml.trim_write_mapping hne
  rw [document, htrim, hback]
  rfl

/-! ### One write -/

theorem editDocument_eq_ok {content : Option Text} {written : Text} (h : editDocument content key value = .ok written) :
    ∃ d e, (content.map document).getD (.ok (.mapping [])) = .ok d ∧
      Yaml.set? (Yaml.pathOf key) d (Yaml.ofText value) = some e ∧ written = e.write := by
  unfold editDocument at h
  split at h
  · cases h
  · rename_i d hd
    split at h
    · rename_i e he
      cases h
      exact ⟨d, e, hd, he, rfl⟩
    · cases h

/-- Behind making directories, a keyed write edits the document that it starts from. -/
theorem document_of_startsFrom {tree : FileTree} {place : FilePath} {content : Option Text}
    (hstart : files.StartsFrom path d) (hplace : place = files.placeOf path)
    (hmid : tree.get? place = files.tree.get? place ∨
      files.tree.get? place = none ∧ tree.get? place = some .directory)
    (hcontent : tree.get? place = none ∧ content = none ∨ ∃ c, tree.readText place = .ok c ∧ content = some c) :
    tree.get? place ≠ some (.file .sink) ∧ (content.map document).getD (.ok (.mapping [])) = .ok d := by
  subst hplace
  cases hstart with
  | absent hnone =>
    rcases hmid with hsame | ⟨-, hmade⟩
    · rw [hnone] at hsame
      rcases hcontent with ⟨-, rfl⟩ | ⟨c, hread, -⟩
      · exact ⟨by simp [hsame], rfl⟩
      · simp [FileTree.readText, hsame] at hread
    · rcases hcontent with ⟨hnone', -⟩ | ⟨c, hread, -⟩
      · cases hmade.symm.trans hnone'
      · simp [FileTree.readText, hmade] at hread
  | present hfile hd =>
    have hsame := (hmid.resolve_right fun ⟨hnone, _⟩ => by cases hfile.symm.trans hnone).trans hfile
    rcases hcontent with ⟨hnone, -⟩ | ⟨c, hread, rfl⟩
    · cases hsame.symm.trans hnone
    · simp only [FileTree.readText, hsame, Except.ok.injEq] at hread
      exact ⟨by simp [hsame], hread ▸ hd⟩

/-- A file that is put where the names of a path lead is found there. -/
theorem locate_put_of_makeDirectories {tree tree' : FileTree} {place directory p : FilePath} {directories : List Text}
    {name : Text} {entry : FileEntry} (hmake : tree.makeDirectories place directories = (tree', .ok directory))
    (hstep : tree'.step directory name = .ok p) (hp : tree'.get? p ≠ some .directory) :
    (tree'.put p entry).locate place (directories ++ [name]) = .ok p := by
  have hne : p ≠ [] := by
    rintro rfl
    exact hp rfl
  have hkept : ∀ q, tree'.get? q = some .directory → (tree'.put p entry).get? q = some .directory := by
    intro q hq
    rw [FileTree.get?_put _ _ _ _ hne, if_neg (by rintro rfl; exact hp hq), hq]
  obtain ⟨hlocate, hdirectory⟩ := FileTree.locate_of_makeDirectories hmake
  have hstep' := (FileTree.step_congr (hkept _ hdirectory) hdirectory name).trans hstep
  rw [FileTree.locate_append, (FileTree.locate_congr hkept hdirectory hlocate).1]
  exact FileTree.locate_cons_of_step hstep' (by simp [FileTree.get?_put _ _ _ _ hne])

/-- A path that ends in a name is not empty, and what it stands for neither. -/
theorem ne_nil_of_pathNames {directories : List Text} {name : Text}
    (hnames : pathNames (files.target path) = directories ++ [name]) (hname : name ≠ []) :
    files.target path ≠ [] ∧ path ≠ [] := by
  have hlast (front : List Text) : pathNames (files.target path) ≠ front ++ [[]] := fun h =>
    hname (List.head_eq_of_cons_eq (List.append_inj' (hnames.symm.trans h) rfl).2)
  constructor
  · intro htarget
    exact hlast [] (by rw [htarget]; rfl)
  · rintro rfl
    -- the empty path stands for the data directory, as one whose last name is empty
    obtain ⟨front, -, -, hfront, -⟩ := files.target_relative (show isAbsolutePath [] = false from rfl)
    exact hlast front hfront

/-- A keyed write that succeeds puts the edited document into the file that its path leads to. -/
theorem write_keyed (hstart : files.StartsFrom path d) (h : files.write path (some key) value = (files', .ok ())) :
    ∃ e, Yaml.set? (Yaml.pathOf key) d (Yaml.ofText value) = some e ∧
      files'.tree.get? (files.placeOf path) = some (.file (.text e.write)) ∧
      files'.Reaches path ∧ files'.working = files.working ∧ files'.dataDir = files.dataDir ∧ path ≠ [] := by
  rcases files.write_cases path (some key) value with ⟨_, _, _, hwrite⟩ |
    ⟨directories, name, tree, tree', hnames, hnul, hmake, hstep, hat, hwrite⟩
  · cases h.symm.trans hwrite
  · cases h.symm.trans hwrite
    obtain ⟨written, htext, hedit⟩ := writeAt_eq_ok hat
    obtain ⟨content, hedit, hcontent⟩ := hedit key rfl
    obtain ⟨d', e, hd', hset, rfl⟩ := editDocument_eq_ok hedit
    have hmid := FileTree.get?_makeDirectories files.tree (files.start (files.target path)) directories
      (files.placeOf path)
    rw [hmake] at hmid
    obtain ⟨hsink, hd⟩ := document_of_startsFrom hstart rfl (hmid.imp_right fun h => ⟨h.1, h.2.1⟩) hcontent
    cases hd'.symm.trans hd
    obtain ⟨hne, hdirectory, rfl⟩ := (FileTree.writeText_eq_ok htext).resolve_left fun h => hsink h.1
    have hname : name ≠ [] := by
      rintro rfl
      -- an empty name leads to the directory itself, in which no text can be put
      have hplace : files.placeOf path = _ := (FileTree.step_eq_ok hstep).2
      exact hdirectory (hplace ▸ (FileTree.step_eq_ok hstep).1)
    obtain ⟨htarget, hpath⟩ := ne_nil_of_pathNames hnames hname
    refine ⟨e, hset, by simp [FileTree.get?_put _ _ _ _ hne], ?_, rfl, rfl, hpath⟩
    show FileTree.locateText _ files.working (files.target path) = .ok (files.placeOf path)
    rw [FileTree.locateText, if_neg hnul, if_neg (by simpa using htarget), hnames]
    exact locate_put_of_makeDirectories hmake hstep hdirectory

/-! ### Reading -/

/-- What is read under a key of a document. -/
def textUnder (key : Text) (d : Yaml) : Text :=
  ((d.get? (Yaml.pathOf key)).map Yaml.plainText).getD []

theorem textUnder_empty (key : Text) : textUnder key (.mapping []) = [] := by
  obtain ⟨name, names, hnames⟩ := List.exists_cons_of_ne_nil (Yaml.pathOf_ne_nil key)
  rw [textUnder, hnames]
  rfl

theorem locate?_of_isMissing (hmissing : files.IsMissing path) (hpath : path ≠ []) :
    files.locate? path =
      (files.tree.locateText files.working (files.target path)).toOption.map fun p => (files.target path, p) := by
  have hmissing : (files.tree.locateText files.working path).toOption = none := hmissing
  have hempty : path.isEmpty = false := by simpa using hpath
  simp only [locate?, hmissing, hempty, Option.map_none, Option.none_or, Bool.false_eq_true, if_false]
  rfl

/-- Following the names of a path ends at its place. -/
theorem eq_placeOf_of_locateText {p : FilePath}
    (h : files.tree.locateText files.working (files.target path) = .ok p) :
    p = files.placeOf path ∧ (files.tree.get? p).isSome := by
  unfold FileTree.locateText at h
  split at h
  · cases h
  · split at h
    · cases h
    · obtain ⟨hp, hsome⟩ := FileTree.locate_eq_ok h
      exact ⟨hp, hsome (List.splitOn_ne_nil '/' _)⟩

/-- A keyed read shows the document that a keyed write starts from, unless the names of its path cannot be followed. -/
theorem read_keyed (hmissing : files.IsMissing path) (hpath : path ≠ []) (hstart : files.StartsFrom path d)
    (hreaches : files.tree.get? (files.placeOf path) = none ∨ files.Reaches path) (key : Text) :
    files.read path (some key) = .ok (textUnder key d) := by
  rw [read, locate?_of_isMissing hmissing hpath]
  cases hstart with
  | absent hnone =>
    cases hlocate : files.tree.locateText files.working (files.target path) with
    | error f => simp [Except.toOption, textUnder_empty]
    | ok p =>
      obtain ⟨rfl, hsome⟩ := eq_placeOf_of_locateText hlocate
      simp [hnone] at hsome
  | present hfile hd =>
    have hreaches := hreaches.resolve_left fun hnone => by cases hfile.symm.trans hnone
    simp only [show files.tree.locateText _ _ = _ from hreaches, Except.toOption, Option.map_some, FileTree.readText,
      hfile, hd]
    rfl

/-! ### Rows of writes -/

/-- The files after keyed writes to one path, all of which succeed. -/
def keyedWrites? (path : Text) (files : FileAccess) (writes : List (Text × Text)) : Option FileAccess :=
  writes.foldlM (fun files w =>
    match files.write path (some w.1) w.2 with
    | (files, .ok ()) => some files
    | (_, .error _) => none) files

theorem keyedWrites?_cons_eq_some (h : files.keyedWrites? path ((key, value) :: writes) = some after) :
    ∃ mid, files.write path (some key) value = (mid, .ok ()) ∧ mid.keyedWrites? path writes = some after := by
  unfold keyedWrites? at h
  rw [List.foldlM_cons] at h
  rcases hwrite : files.write path (some key) value with ⟨mid, _ | _⟩
  · simp [hwrite] at h
  · simp only [hwrite] at h
    exact ⟨mid, rfl, h⟩

/-- Keyed writes edit one document, one after the other, as long as what is written can be read back. -/
theorem keyedWrites?_eq_some (hstart : files.StartsFrom path d)
    (hback : ∀ front e, front <+: writes → front ≠ [] → d.edit? front = some e → Yaml.read? e.write = some e)
    (h : files.keyedWrites? path writes = some after) :
    ∃ e, d.edit? writes = some e ∧ after.StartsFrom path e ∧ (files.Reaches path ∨ writes ≠ [] → after.Reaches path) ∧
      ∀ p c, p ≠ files.placeOf path → (after.tree.get? p = some (.file c) ↔ files.tree.get? p = some (.file c)) := by
  induction writes generalizing files d with
  | nil =>
    cases h
    exact ⟨d, rfl, hstart, fun h => h.resolve_right (absurd rfl), fun _ _ _ => Iff.rfl⟩
  | cons w writes ih =>
    obtain ⟨key, value⟩ := w
    obtain ⟨mid, hwrite, hrest⟩ := keyedWrites?_cons_eq_some h
    obtain ⟨e, hset, hfile, hreaches, hworking, hdata, -⟩ := write_keyed hstart hwrite
    have hedit (front : List (Text × Text)) : d.edit? ((key, value) :: front) = e.edit? front := by
      rw [Yaml.edit?_cons, hset]
      rfl
    have hplace : mid.placeOf path = files.placeOf path := by
      rw [placeOf, start, target, hworking, hdata]
      rfl
    obtain ⟨entries, he, hne⟩ := Yaml.exists_mapping_of_set? (Yaml.pathOf_ne_nil key) hset
    have hread := hback [(key, value)] e ⟨writes, rfl⟩ (by simp) (hedit [])
    have hmid : mid.StartsFrom path e := .present (hplace ▸ hfile) (document_write hread he hne)
    obtain ⟨e', he', hafter, hreaches', hothers⟩ := ih hmid (fun front e' hfront hne he' =>
      hback ((key, value) :: front) e' (List.cons_prefix_cons.2 ⟨rfl, hfront⟩) (by simp) ((hedit front).trans he')) hrest
    refine ⟨e', (hedit writes).trans he', hafter, fun _ => hreaches' (.inl hreaches), fun p c hp => ?_⟩
    rw [hothers p c (hplace ▸ hp)]
    have hsame := files.get?_write path (some key) value p
    rw [hwrite] at hsame
    rcases hsame with hsame | ⟨hnone, hmade, -⟩ | ⟨hp', -⟩
    · rw [hsame]
    · simp [hnone, hmade]
    · exact absurd hp' hp

/-- After keyed writes, of which none is below another one, each key reads as what was written last under it, and a key
apart from them as what the document held before.  Other files stay. -/
theorem keyed_writes_kept (hmissing : files.IsMissing path) (hmissing' : after.IsMissing path)
    (hstart : files.StartsFrom path d)
    (hback : ∀ front e, front <+: writes → front ≠ [] → d.edit? front = some e → Yaml.read? e.write = some e)
    (hkeys : ∀ w ∈ writes, ∀ w' ∈ writes, Yaml.pathOf w.1 <+: Yaml.pathOf w'.1 → Yaml.pathOf w.1 = Yaml.pathOf w'.1)
    (hrun : files.keyedWrites? path writes = some after) :
    (∀ before key value behind, writes = before ++ (key, value) :: behind → (∀ w ∈ behind, w.1 ≠ key) →
      after.read path (some key) = .ok (Yaml.ofText value).plainText) ∧
    (∀ key, (∀ w ∈ writes, Yaml.Apart key w.1) →
      (writes ≠ [] → after.read path (some key) = .ok (textUnder key d)) ∧
      (files.tree.get? (files.placeOf path) = none ∨ files.Reaches path →
        after.read path (some key) = files.read path (some key))) ∧
    ∀ p c, p ≠ files.placeOf path → (after.tree.get? p = some (.file c) ↔ files.tree.get? p = some (.file c)) := by
  obtain ⟨e, hedit, hafter, hreaches, hothers⟩ := keyedWrites?_eq_some hstart hback hrun
  have hpath (hne : writes ≠ []) : path ≠ [] := by
    obtain ⟨⟨key, value⟩, rest, rfl⟩ := List.exists_cons_of_ne_nil hne
    obtain ⟨mid, hwrite, -⟩ := keyedWrites?_cons_eq_some hrun
    obtain ⟨-, -, -, -, -, -, hpath⟩ := write_keyed hstart hwrite
    exact hpath
  have hread (hne : writes ≠ []) (key : Text) : after.read path (some key) = .ok (textUnder key e) :=
    read_keyed hmissing' (hpath hne) hafter (.inr (hreaches (.inr hne))) key
  have hkept {key : Text} (hapart : ∀ w ∈ writes, Yaml.Apart key w.1) : textUnder key e = textUnder key d := by
    rw [textUnder, Yaml.get?_edit?_of_apart hedit hapart, textUnder]
  refine ⟨fun before key value behind hwrites hlast => ?_, fun key hapart => ⟨fun hne => ?_, fun hsome => ?_⟩, hothers⟩
  · subst hwrites
    have hmem : (key, value) ∈ before ++ (key, value) :: behind := by simp
    have hlater {w : Text × Text} (hw : w ∈ behind) : w ∈ before ++ (key, value) :: behind := by simp [hw]
    rw [hread (by simp), textUnder, Yaml.get?_edit?_of_last hedit hlast fun w hw =>
      ⟨hkeys _ hmem _ (hlater hw), hkeys _ (hlater hw) _ hmem⟩]
    rfl
  · rw [hread hne, hkept hapart]
  · by_cases hne : writes = []
    · subst hne
      cases hrun
      rfl
    · rw [hread hne, hkept hapart, read_keyed hmissing (hpath hne) hstart hsome]

/-- Two entries below one mapping next to an old one; the first one is written twice. -/
theorem keyed_writes_kept_nested :
    let writes : List (Text × Text) := [("b.c", "2"), ("b.d", "x"), ("b.c", "true")]
    let d : Yaml := .mapping [(.string "a", .int 1)]
    let files : FileAccess :=
      { tree := [(["data"], .directory), (["data", "f.yml"], .file (.text d.write))], working := [], dataDir := "/data" }
    let after : FileAccess := { files with
      tree := [(["data"], .directory), (["data", "f.yml"], .file (.text "a: 1\nb:\n  c: true\n  d: x\n"))] }
    files.keyedWrites? "f.yml" writes = some after ∧
      after.read "f.yml" (some "b.c") = .ok (Yaml.ofText "true").plainText ∧
      after.read "f.yml" (some "a") = .ok (textUnder "a" d) := by
  intro writes d files after
  have hback : ∀ front e, front <+: writes → front ≠ [] →
      d.edit? front = some e → Yaml.read? e.write = some e := by
    have hall : ∀ front ∈ writes.inits,
        (d.edit? front).all (fun e => (Yaml.read? e.write).any e.eqb) = true := by
      decide +kernel
    intro front e hfront _ he
    have hread := hall front ((List.mem_inits _ _).2 hfront)
    rw [he] at hread
    exact Yaml.eq_some_of_any_eqb hread
  have hrun : files.keyedWrites? "f.yml" writes = some after := by
    decide +kernel
  have hd : document d.write = .ok d :=
    document_write (Yaml.eq_some_of_any_eqb (by decide +kernel)) rfl (by simp)
  have hkept := keyed_writes_kept (by decide +kernel) (by decide +kernel)
    (.present rfl hd) hback (by decide +kernel) hrun
  exact ⟨hrun, hkept.1 [("b.c", "2"), ("b.d", "x")] "b.c" "true" [] rfl (by simp),
    (hkept.2.1 "a" (by decide +kernel)).1 (by simp)⟩

/-- A write may make a directory that its own path leads through.  Then the path shows a document that it did not show
before, or leads from the working directory to another file. -/
theorem keyed_write_makes_way :
    let path : Text := "new/../f.yml"
    (let files : FileAccess :=
        { tree := [(["data"], .directory), (["work"], .directory), (["data", "f.yml"], .file (.text "a: 1\n"))],
          working := ["work"], dataDir := "/data" }
      let after := (files.write path (some "b") "2").1
      files.IsMissing path ∧ after.IsMissing path ∧
        (files.write path (some "b") "2").2.toOption.isSome ∧ Yaml.Apart "a" "b" ∧
        (files.read path (some "a")).toOption = some "" ∧ (after.read path (some "a")).toOption = some "1") ∧
      (let files : FileAccess :=
        { tree := [(["work"], .directory), (["work", "f.yml"], .file (.text "b: 7\n"))],
          working := ["work"], dataDir := "/work/new" }
      let after := (files.write path (some "b") "2").1
      files.IsMissing path ∧ files.tree.get? (files.placeOf path) = none ∧
        (files.write path (some "b") "2").2.toOption.isSome ∧ (after.read path (some "b")).toOption = some "7") := by
  decide +kernel

end FileAccess
end DirectiveEngine
