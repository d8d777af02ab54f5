import DirectiveEngine.File.Access
import DirectiveEngine.Proofs.Yaml.Lens

/-!
# Mappings with tags in the way

A mapping with a tag on it holds entries that are read, but none that can be set.  So a keyed write gives up exactly where
its key leads through such a mapping (`FileAccess.edit_blocked_iff`), while a tag on any other value is overwritten with it.
-/

namespace DirectiveEngine.FileAccess

variable {content : Option Text} {key value : Text}

private theorem document_ne_tagged (c : Text) : document c ≠ .error .tagged := by
  unfold document
  split
  · nofun
  · split <;> nofun

theorem editDocument_eq_tagged_iff :
    editDocument content key value = .error .tagged ↔
      ∃ c d, content = some c ∧ document c = .ok d ∧ Yaml.IsBlocked (Yaml.pathOf key) d := by
  constructor
  · intro h
    unfold editDocument at h
    split at h
    · rename_i e he
      cases h
      cases content with
      | none => cases he
      | some c => exact absurd he (document_ne_tagged c)
    · rename_i d hd
      split at h
      · cases h
      · rename_i hset
        have hblocked := Yaml.set?_eq_none_iff.1 hset
        cases content with
        | none =>
          cases hd
          exact absurd hblocked Yaml.not_isBlocked_empty
        | some c => exact ⟨c, d, rfl, hd, hblocked⟩
  · rintro ⟨c, d, rfl, hd, hblocked⟩
    have hset : Yaml.set? (Yaml.pathOf key) d (Yaml.ofText value) = none := Yaml.set?_eq_none_iff.2 hblocked
    simp [editDocument, hd, hset]

/-- A key can be set in a document unless it leads through a mapping with a tag, and only then a keyed write gives up
for a tag in the document that its file holds. -/
theorem edit_blocked_iff (key : Text) :
    (∀ d v : Yaml, Yaml.set? (Yaml.pathOf key) d v = none ↔ Yaml.IsBlocked (Yaml.pathOf key) d) ∧
    ∀ (content : Option Text) (value : Text), editDocument content key value = .error .tagged ↔
      ∃ c d, content = some c ∧ document c = .ok d ∧ Yaml.IsBlocked (Yaml.pathOf key) d :=
  ⟨fun _ _ => Yaml.set?_eq_none_iff, fun _ _ => editDocument_eq_tagged_iff⟩

/-- The root of a document is a mapping with a tag, so none of its entries can be set. -/
theorem write_tagged_mapping :
    let files : FileAccess :=
      { tree := [(["data"], .directory), (["data", "f.yml"], .file (.text "!t\na: 1\n"))], working := [], dataDir := "/data" }
    (files.read "f.yml" (some "a")).toOption = some "1" ∧ files.write "f.yml" (some "a") "2" = (files, .error .tagged) := by
  decide +kernel

end DirectiveEngine.FileAccess
