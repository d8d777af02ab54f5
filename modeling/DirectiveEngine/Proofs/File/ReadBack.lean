import DirectiveEngine.Proofs.File.Keyed
import DirectiveEngine.Proofs.Yaml.PlainText

/-!
# Reading back

What is written under a key is read back as the stored value is shown (`FileAccess.read_written`), where the path leads to
the file that was written.  So an integer comes back as it was if it is stored as one, and a word unless it names a float
(`FileAccess.read_written_self`).
-/

namespace DirectiveEngine.FileAccess

variable {files after : FileAccess} {path key value t : Text} {d e : Yaml}

/-! ### Where a path leads -/

/-- From the working directory a path leads nowhere, or to the place that it is written to. -/
def LeadsHome (files : FileAccess) (path : Text) : Prop :=
  ∀ p, files.tree.locateText files.working path = .ok p → p = files.placeOf path

theorem IsMissing.leadsHome (h : files.IsMissing path) : files.LeadsHome path := by
  intro p hp
  rw [IsMissing, hp] at h
  cases h

/-- An absolute path is written where it is read. -/
theorem leadsHome_of_isAbsolutePath (h : isAbsolutePath path = true) : files.LeadsHome path := by
  intro p hp
  have htarget : files.target path = path := by simp [target, joinPath, h]
  exact (eq_placeOf_of_locateText (htarget.symm ▸ hp)).1

theorem locate?_of_leadsHome (hhome : files.LeadsHome path) (hpath : path ≠ []) (hreaches : files.Reaches path) :
    ∃ written, files.locate? path = some (written, files.placeOf path) := by
  have hempty : path.isEmpty = false := by simpa using hpath
  have hreaches : files.tree.locateText files.working (joinPath files.dataDir path) = .ok (files.placeOf path) := hreaches
  unfold locate?
  simp only [hempty, Bool.false_eq_true, if_false, hreaches]
  cases hlocate : files.tree.locateText files.working path with
  | ok p =>
    rw [hhome p hlocate]
    exact ⟨_, rfl⟩
  | error f => exact ⟨_, rfl⟩

/-! ### One write and one read -/

theorem read_of_leadsHome (hhome : files.LeadsHome path) (hpath : path ≠ []) (hreaches : files.Reaches path)
    (hfile : files.tree.get? (files.placeOf path) = some (.file (.text t))) (hd : document t = .ok d) (key : Text) :
    files.read path (some key) = .ok (textUnder key d) := by
  obtain ⟨written, hlocate⟩ := locate?_of_leadsHome hhome hpath hreaches
  simp only [read, hlocate, FileTree.readText, hfile, hd]
  rfl

/-- A keyed write that succeeds is read back as its value is shown, if the document that it makes can be read back. -/
theorem read_written (hstart : files.StartsFrom path d)
    (hback : ∀ e, Yaml.set? (Yaml.pathOf key) d (Yaml.ofText value) = some e → Yaml.read? e.write = some e)
    (hwrite : files.write path (some key) value = (after, .ok ())) (hhome : after.LeadsHome path) :
    after.read path (some key) = .ok (Yaml.ofText value).plainText := by
  obtain ⟨e, hset, hfile, hreaches, hworking, hdata, hpath⟩ := write_keyed hstart hwrite
  obtain ⟨entries, he, hne⟩ := Yaml.exists_mapping_of_set? (Yaml.pathOf_ne_nil key) hset
  have hplace : after.placeOf path = files.placeOf path := by
    rw [placeOf, start, target, hworking, hdata]
    rfl
  rw [read_of_leadsHome hhome hpath hreaches (hplace ▸ hfile) (document_write (hback e hset) he hne), textUnder,
    Yaml.get?_set? hset]
  rfl

/-- An integer is read back as it was written if it is stored as one, and a word that is no truth value unless it is the
name of a float. -/
theorem read_written_self (hstart : files.StartsFrom path d)
    (hback : ∀ e, Yaml.set? (Yaml.pathOf key) d (Yaml.ofText value) = some e → Yaml.read? e.write = some e)
    (hwrite : files.write path (some key) value = (after, .ok ())) (hhome : after.LeadsHome path) :
    (∀ n, Yaml.IsNotation n value → Yaml.storedBounds.1 ≤ n → n ≤ Yaml.storedBounds.2 →
      after.read path (some key) = .ok value) ∧
    (Yaml.IsLetters value → Text.sameAscii value "true" = false → Text.sameAscii value "false" = false →
      (after.read path (some key) = .ok value ↔ value.lowerAscii ∉ Yaml.floatNames)) := by
  rw [read_written hstart hback hwrite hhome, Except.ok.injEq]
  refine ⟨fun n hn hmin hmax => ?_, Yaml.plainText_ofText_letters⟩
  rw [hn.eq_intText]
  exact (Yaml.plainText_ofText_integer n).2 ⟨hmin, hmax⟩

/-- The least integer that is stored as one, and a word that denotes nothing where it stands without quotes. -/
theorem read_written_self_least :
    let d : Yaml := .mapping [(.string "a", .int 1)]
    let files : FileAccess :=
      { tree := [(["data"], .directory), (["data", "f.yml"], .file (.text d.write))], working := [], dataDir := "/data" }
    let after (value : Text) := (files.write "f.yml" (some "b.c") value).1
    (after "-2147483648").read "f.yml" (some "b.c") = .ok "-2147483648" ∧
      (after "Null").read "f.yml" (some "b.c") = .ok "Null" := by
  intro d files after
  have hd : document d.write = .ok d :=
    document_write (Yaml.eq_some_of_any_eqb (by decide +kernel)) rfl (by simp)
  have hstart : files.StartsFrom "f.yml" d := .present rfl hd
  have hback {value : Text} (hall : (Yaml.set? (Yaml.pathOf "b.c") d (Yaml.ofText value)).all
      (fun e => (Yaml.read? e.write).any e.eqb) = true) :
      ∀ e, Yaml.set? (Yaml.pathOf "b.c") d (Yaml.ofText value) = some e → Yaml.read? e.write = some e := by
    intro e he
    rw [he] at hall
    exact Yaml.eq_some_of_any_eqb hall
  have hnotation : Yaml.IsNotation (-2147483648) "-2147483648" :=
    .negative (c := '2') (r := "147483648") (by decide) (List.all_eq_true.1 (by decide))
  have hhome {value : Text} (h : (after value).IsMissing "f.yml") : (after value).LeadsHome "f.yml" :=
    IsMissing.leadsHome h
  have hleast : files.write "f.yml" (some "b.c") "-2147483648" = (after "-2147483648", .ok ()) := by
    decide +kernel
  have hnull : files.write "f.yml" (some "b.c") "Null" = (after "Null", .ok ()) := by
    decide +kernel
  have hleast := read_written_self hstart (hback (by decide +kernel)) hleast (hhome (by decide +kernel))
  have hnull := read_written_self hstart (hback (by decide +kernel)) hnull (hhome (by decide +kernel))
  exact ⟨hleast.1 _ hnotation (by decide) (by decide), (hnull.2 (by decide) (by decide) (by decide)).2 (by decide)⟩

/-- What is read back is another text for an integer beyond the bounds and for a name of a float.  It is that of another
file if the path leads to one from the working directory, and nothing if the path leads to a device. -/
theorem read_written_ne_self :
    let files : FileAccess :=
      { tree := [(["dev"], .directory), (["dev", "null"], .file .sink), (["data"], .directory), (["work"], .directory),
          (["work", "w.yml"], .file (.text "id: 1\n"))],
        working := ["work"], dataDir := "/data" }
    let readBack (path value : Text) :=
      ((files.write path (some "id") value).2.toOption, (files.write path (some "id") value).1.read path (some "id"))
    let wide : Yaml := .mapping [(.string "id", Yaml.ofText "2147483648")]
    (Yaml.read? wide.write).any wide.same = true ∧ readBack "f.yml" "2147483648" = (some (), .ok "2147483648.0") ∧
      readBack "f.yml" "NaN" = (some (), .ok ".nan") ∧ readBack "w.yml" "2" = (some (), .ok "1") ∧
      readBack "/dev/null" "2" = (some (), .ok []) := by
  decide +kernel

end DirectiveEngine.FileAccess
