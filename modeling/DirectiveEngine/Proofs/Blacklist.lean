import DirectiveEngine.Config.Basic
import DirectiveEngine.Proofs.Dictionary
import DirectiveEngine.Proofs.Text.LetterCase
import DirectiveEngine.Proofs.Text.Trim

/-!
# The blacklist

Commands are compared with the blacklist in a normal form: an entry is trimmed, loses all slashes in front and is put
in lowercase.  So the blacklist holds the bare words of the commands that were listed (`mem_blacklist_of_listed`), and
no word of it starts with a slash (`head?_ne_of_mem_blacklist`).
-/

namespace DirectiveEngine

/-! ### Slashes -/

private theorem eq_of_ofNat_eq_slash {n : Nat} (h : Char.ofNat n = '/') : n = 47 := by
  by_cases hn : n.isValidChar
  · have hof : Char.ofNat n = Char.ofNatAux n hn := dif_pos hn
    exact congrArg Char.toNat (hof.symm.trans h)
  · have hof : Char.ofNat n = '\x00' := dif_neg hn
    exact absurd (hof.symm.trans h) (by decide)

private theorem lowerAscii_eq_slash {c : Char} : lowerAscii c = '/' ↔ c = '/' := by
  constructor
  · intro h
    unfold lowerAscii at h
    split at h
    · rename_i hupper
      have hle : ('A' : Char).toNat ≤ c.toNat := hupper.1
      have := eq_of_ofNat_eq_slash h
      have : ('A' : Char).toNat = 65 := rfl
      omega
    · exact h
  · rintro rfl
    decide

/-- No character but the slash has it for its lowercase form. -/
private theorem head?_lowerChar_ne {c : Char} (hc : c ≠ '/') : (lowerChar c).head? ≠ some '/' := by
  have hruns : ∀ r ∈ LetterData.lowercaseRuns, (47 : Int) < r.first + r.shift := by decide +kernel
  unfold lowerChar
  split
  · simpa [lowerAscii_eq_slash] using hc
  · split
    · decide
    · split
      · rename_i r hr
        intro h
        have hn := eq_of_ofNat_eq_slash (Option.some.inj h)
        have hfirst := hruns r (List.mem_of_find?_eq_some hr)
        have hin := List.find?_some hr
        simp only [Bool.and_eq_true, decide_eq_true_eq] at hin
        omega
      · simpa using hc

theorem Text.head?_lower_ne {t : Text} (h : t.head? ≠ some '/') : (Text.lower t).head? ≠ some '/' := by
  cases t with
  | nil => simp [lower, lowerAfter]
  | cons c t =>
    have hc : c ≠ '/' := by simpa using h
    rw [lower, lowerAfter]
    split
    · simp only [List.singleton_append, List.head?_cons, ne_eq, Option.some.injEq]
      split <;> decide
    · obtain ⟨d, form, hform⟩ := List.exists_cons_of_ne_nil (lowerChar_ne_nil c)
      have hd := head?_lowerChar_ne hc
      rw [hform] at hd ⊢
      simpa using hd

/-! ### Normal forms -/

/-- The name of a command without slashes. -/
structure IsBareWord (word : Text) : Prop where
  ne_nil : word ≠ []
  chars : ∀ c ∈ word, c.isAlphanum = true

instance (word : Text) : Decidable (IsBareWord word) :=
  decidable_of_iff (word ≠ [] ∧ word.all Char.isAlphanum = true)
    ⟨fun h => ⟨h.1, List.all_eq_true.1 h.2⟩, fun h => ⟨h.ne_nil, List.all_eq_true.2 h.chars⟩⟩

namespace Config

theorem mem_blacklist {c : Config} {word : Text} :
    word ∈ c.blacklist ↔ word ≠ [] ∧ ∃ entry ∈ c.blacklistedCommands, blacklistWord entry = word := by
  rw [blacklist, mem_sortedSet, List.mem_filter, List.mem_map]
  simp [and_comm]

theorem head?_ne_of_mem_blacklist {c : Config} {word : Text} (h : word ∈ c.blacklist) : word.head? ≠ some '/' := by
  obtain ⟨-, entry, -, rfl⟩ := mem_blacklist.1 h
  refine Text.head?_lower_ne fun hhead => ?_
  have := List.head?_dropWhile_not (· == '/') entry.trim
  rw [hhead] at this
  simp at this

/-- A command is listed in some letter case, and blanks may stand around it. -/
def Lists (c : Config) (command : Text) : Prop :=
  ∃ entry ∈ c.blacklistedCommands, Text.sameAscii entry.trim command = true

theorem blacklistWord_of_sameAscii {entry word : Text} {n : Nat} (hword : IsBareWord word)
    (h : Text.sameAscii entry.trim (List.replicate n '/' ++ word) = true) :
    blacklistWord entry = word.lowerAscii := by
  have hsame : entry.trim.lowerAscii = List.replicate n '/' ++ word.lowerAscii := by
    rw [eq_of_beq h, Text.lowerAscii, List.map_append, List.map_replicate]
    rfl
  obtain ⟨slashes, bare, htrim, hslashes, hbare⟩ := List.map_eq_append_iff.1 hsame
  have hslash : ∀ c ∈ slashes, (c == '/') = true := by
    intro c hc
    have hmem : DirectiveEngine.lowerAscii c ∈ List.replicate n '/' := hslashes ▸ List.mem_map_of_mem hc
    simpa [lowerAscii_eq_slash] using List.eq_of_mem_replicate hmem
  have hof : ∀ c ∈ bare, ∃ d ∈ word, DirectiveEngine.lowerAscii d = DirectiveEngine.lowerAscii c := by
    intro c hc
    have hmem : DirectiveEngine.lowerAscii c ∈ word.lowerAscii := hbare ▸ List.mem_map_of_mem hc
    exact List.mem_map.1 hmem
  have hdrop : bare.dropWhile (· == '/') = bare := by
    cases bare with
    | nil => rfl
    | cons c bare =>
      refine List.dropWhile_cons_of_neg fun hc => ?_
      obtain ⟨d, hd, heq⟩ := hof c List.mem_cons_self
      obtain rfl : d = '/' := lowerAscii_eq_slash.1 (heq.trans (lowerAscii_eq_slash.2 (eq_of_beq hc)))
      exact absurd (hword.chars _ hd) (by decide)
  have hascii : ∀ c ∈ bare, c.toNat < 128 := by
    intro c hc
    obtain ⟨d, hd, heq⟩ := hof c hc
    exact toNat_lowerAscii_lt.1 (heq ▸ toNat_lowerAscii_lt.2 (toNat_lt_of_isAlphanum (hword.chars d hd)))
  rw [blacklistWord, htrim, List.dropWhile_append_of_pos hslash, hdrop, Text.lower_of_ascii hascii]
  exact hbare

/-- A listed command is on the blacklist without its slashes. -/
theorem mem_blacklist_of_listed {c : Config} {word : Text} {n : Nat} (hword : IsBareWord word)
    (h : c.Lists (List.replicate n '/' ++ word)) : word.lowerAscii ∈ c.blacklist := by
  obtain ⟨entry, hentry, hsame⟩ := h
  exact mem_blacklist.2 ⟨by simpa [Text.lowerAscii] using hword.ne_nil, entry, hentry, blacklistWord_of_sameAscii hword hsame⟩

end Config
end DirectiveEngine
