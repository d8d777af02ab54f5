import DirectiveEngine.Directive.Parse
import DirectiveEngine.Proofs.Number
import DirectiveEngine.Proofs.Text.Search
import DirectiveEngine.Proofs.Text.Trim
import Mathlib.Data.List.Basic

/-!
# Markers

The heading of a directive as it is meant, and the ways to write it: its markers in any order, each with blanks behind
it (`Heading.IsWrittenAs`).  An opening bracket stands nowhere but where a marker begins, so the parser finds the
marker that it looks for and takes it out, whatever else is left (`Heading.IsWrittenAs.takeMarker?`).
-/

namespace DirectiveEngine

/-! ### Headings -/

inductive Marker where
  | loop (spec : LoopSpec)
  | delay (n : Nat)
  | whenever (condition : Text)
  | elseWhen (condition : Text)
  | otherwise
  | weight (n : Nat)
  deriving DecidableEq

namespace Marker

/-- What the parser looks for. -/
def opening : Marker → Text
  | loop _ => "[foreach:"
  | delay _ => "[delay:"
  | whenever _ => "[if:"
  | elseWhen _ => "[else if:"
  | otherwise => "[else]"
  | weight _ => "[random"

/-- What stands between the opening and the closing bracket. -/
def inside : Marker → Text
  | loop spec => spec.source ++ ':' :: spec.item
  | delay n => natText n
  | whenever c => c
  | elseWhen c => c
  | otherwise => []
  | weight n => ':' :: natText n

/-- What follows the opening. -/
def remainder : Marker → Text
  | otherwise => []
  | m => m.inside ++ [']']

def written (m : Marker) : Text :=
  m.opening ++ m.remainder

/-- When the parser looks for it. -/
def rank : Marker → Nat
  | loop _ => 0
  | delay _ => 1
  | elseWhen _ => 2
  | otherwise => 3
  | whenever _ => 4
  | weight _ => 5

def IsUnbracketed (t : Text) : Prop :=
  '[' ∉ t ∧ ']' ∉ t

def IsWellFormed : Marker → Prop
  | loop spec =>
    (IsUnbracketed spec.source ∧ Text.trim spec.source = spec.source ∧ spec.source ≠ []) ∧
      IsUnbracketed spec.item ∧ Text.trim spec.item = spec.item ∧ ':' ∉ spec.item
  | delay n => n ≤ Directive.maxDelay
  | whenever c => IsUnbracketed c
  | elseWhen c => IsUnbracketed c
  | otherwise => True
  | weight n => 1 ≤ n ∧ n ≤ Directive.maxWeight

end Marker

def Gate.markers : Gate → List Marker
  | always => []
  | whenever c => [.whenever c]
  | elseWhen c => [.elseWhen c]
  | otherwise => [.otherwise]

/-- What the markers in front of a directive say. -/
structure Heading where
  loop? : Option LoopSpec
  delay? : Option Nat
  gate : Gate
  weight? : Option Nat

namespace Heading

def markers (h : Heading) : List Marker :=
  h.loop?.toList.map .loop ++ (h.delay?.toList.map .delay ++ (h.gate.markers ++ h.weight?.toList.map .weight))

/-- The markers in any order, with blanks behind each. -/
structure IsWrittenAs (h : Heading) (ms : List (Marker × Text)) : Prop where
  markers : (ms.map Prod.fst).Perm h.markers
  blank : ∀ x ∈ ms, Text.isBlankText x.2 = true
  wellFormed : ∀ m ∈ h.markers, m.IsWellFormed

end Heading

/-- The text of a heading when the markers below a rank are taken out. -/
def leftover (i : Nat) (ms : List (Marker × Text)) : Text :=
  ms.flatMap fun x => (if x.1.rank < i then [] else x.1.written) ++ x.2

/-! ### Brackets -/

namespace Marker

variable {m m' : Marker}

private theorem unbracketed_natText (n : Nat) : IsUnbracketed (natText n) :=
  ⟨not_mem_natText (by decide), not_mem_natText (by decide)⟩

theorem IsWellFormed.inside (hm : m.IsWellFormed) : IsUnbracketed m.inside := by
  cases m with
  | loop spec => simpa [IsUnbracketed, Marker.inside] using ⟨⟨hm.1.1.1, hm.2.1.1⟩, hm.1.1.2, hm.2.1.2⟩
  | delay n => exact unbracketed_natText n
  | whenever c => exact hm
  | elseWhen c => exact hm
  | otherwise => exact ⟨List.not_mem_nil, List.not_mem_nil⟩
  | weight n => simpa [IsUnbracketed, Marker.inside] using unbracketed_natText n

/-- The only opening bracket of a marker is its first character. -/
theorem IsWellFormed.written (hm : m.IsWellFormed) : ∃ r, m.written = '[' :: r ∧ '[' ∉ r := by
  have hopening : ∃ o, m.opening = '[' :: o ∧ '[' ∉ o := by
    cases m <;> exact ⟨_, rfl, by decide⟩
  have hremainder : '[' ∉ m.remainder := by
    have hinside := hm.inside.1
    cases m <;> simp_all [remainder]
  obtain ⟨o, ho, hmem⟩ := hopening
  exact ⟨o ++ m.remainder, by rw [Marker.written, ho]; rfl, by simp [hmem, hremainder]⟩

/-- Neither of two texts starts with the other. -/
def Apart (o p : Text) : Prop :=
  ¬ o <+: p ∧ ¬ p <+: o

instance (o p : Text) : Decidable (Apart o p) :=
  inferInstanceAs (Decidable (_ ∧ _))

/-- The openings by their ranks. -/
private def openings : List Text :=
  ["[foreach:", "[delay:", "[else if:", "[else]", "[if:", "[random"]

theorem apart_opening (h : m.rank ≠ m'.rank) : Apart m.opening m'.opening := by
  have htable : ∀ i < 6, ∀ j < 6, i ≠ j → Apart (openings.getD i []) (openings.getD j []) := by decide +kernel
  have hopening (m : Marker) : m.rank < 6 ∧ m.opening = openings.getD m.rank [] := by
    cases m <;> exact ⟨by simp [rank], rfl⟩
  rw [(hopening m).2, (hopening m').2]
  exact htable _ (hopening m).1 _ (hopening m').1 h

private theorem Apart.not_prefix {o : Text} (h : Apart o m.opening) (t : Text) : ¬ o <+: m.written ++ t := by
  intro hp
  have hm : m.opening <+: m.written ++ t := ⟨m.remainder ++ t, by simp [Marker.written]⟩
  exact (List.prefix_or_prefix_of_prefix hp hm).elim h.1 h.2

end Marker

open Marker (Apart)

variable {i : Nat} {ms : List (Marker × Text)} {t : Text}

private theorem bracket_not_mem_blank {g : Text} (h : Text.isBlankText g = true) : '[' ∉ g :=
  fun hc => absurd (List.all_eq_true.1 h _ hc) (by decide)

/-- The search goes over all markers that start otherwise. -/
private theorem splitFirst?_leftover {o : Text} (hwell : ∀ x ∈ ms, x.1.IsWellFormed)
    (hblank : ∀ x ∈ ms, Text.isBlankText x.2 = true) (ho : ∀ x ∈ ms, i ≤ x.1.rank → Apart ('[' :: o) x.1.opening) :
    Text.splitFirst? ('[' :: o) (leftover i ms ++ t) =
      (Text.splitFirst? ('[' :: o) t).map fun p => (leftover i ms ++ p.1, p.2) := by
  induction ms with
  | nil => simp [leftover]
  | cons x ms ih =>
    have ih := ih (fun y hy => hwell y (List.mem_cons_of_mem _ hy))
      (fun y hy => hblank y (List.mem_cons_of_mem _ hy))
      fun y hy => ho y (List.mem_cons_of_mem _ hy)
    have hgap := bracket_not_mem_blank (hblank x List.mem_cons_self)
    have hrest := Text.splitFirst?_append hgap o (leftover i ms ++ t)
    rw [ih] at hrest
    have hcons : leftover i (x :: ms) = (if x.1.rank < i then [] else x.1.written) ++ (x.2 ++ leftover i ms) := by
      simp [leftover]
    rw [hcons]
    split
    · -- the marker has been taken, only its blanks are left
      simpa [Function.comp_def] using hrest
    · -- the marker is still there, and its own bracket starts another opening
      rename_i hge
      have hapart := ho x List.mem_cons_self (Nat.le_of_not_lt hge)
      obtain ⟨r, hr, hmem⟩ := (hwell x List.mem_cons_self).written
      have hnot := hapart.not_prefix (x.2 ++ leftover i ms ++ t)
      rw [hr] at hnot ⊢
      simp only [List.cons_append, List.append_assoc] at hnot hrest ⊢
      rw [Text.splitFirst?_cons hnot, Text.splitFirst?_append hmem, hrest]
      simp [Function.comp_def]

private theorem leftover_append (i : Nat) (as bs : List (Marker × Text)) (m : Marker) (g : Text) :
    leftover i (as ++ (m, g) :: bs) =
      leftover i as ++ ((if m.rank < i then [] else m.written) ++ (g ++ leftover i bs)) := by
  simp [leftover]

private theorem leftover_succ (h : ∀ x ∈ ms, x.1.rank ≠ i) : leftover (i + 1) ms = leftover i ms := by
  refine List.flatMap_congr fun x hx => ?_
  have hne := h x hx
  by_cases hlt : x.1.rank < i
  · rw [if_pos hlt, if_pos (by omega)]
  · rw [if_neg hlt, if_neg (by omega)]

/-! ### Taking markers out -/

private theorem takeMarker?_of_none {o : Text} (h : Text.splitFirst? o t = none) : takeMarker? o t = none := by
  rw [takeMarker?, h]
  rfl

namespace Heading

variable {h : Heading} {m : Marker}

private theorem nodup_rank (h : Heading) : (h.markers.map Marker.rank).Nodup := by
  obtain ⟨loop, delay, gate, weight⟩ := h
  cases loop <;> cases delay <;> cases gate <;> cases weight <;> simp [markers, Gate.markers, Marker.rank]

/-- What the presence of a marker means. -/
def Says (h : Heading) : Marker → Prop
  | .loop spec => h.loop? = some spec
  | .delay n => h.delay? = some n
  | .whenever c => h.gate = .whenever c
  | .elseWhen c => h.gate = .elseWhen c
  | .otherwise => h.gate = .otherwise
  | .weight n => h.weight? = some n

theorem mem_markers : m ∈ h.markers ↔ h.Says m := by
  have hgate : m ∈ h.gate.markers ↔ match m with
      | .whenever c => h.gate = .whenever c
      | .elseWhen c => h.gate = .elseWhen c
      | .otherwise => h.gate = .otherwise
      | _ => False := by
    cases h.gate <;> cases m <;> simp [Gate.markers, eq_comm]
  cases m <;> simp [markers, Says, hgate]

namespace IsWrittenAs

theorem mem (hw : h.IsWrittenAs ms) {x : Marker × Text} (hx : x ∈ ms) : x.1 ∈ h.markers :=
  hw.markers.mem_iff.1 (List.mem_map_of_mem hx)

/-- A marker is the only one of its rank. -/
private theorem split (hw : h.IsWrittenAs ms) (hm : m ∈ h.markers) :
    ∃ as g bs, ms = as ++ (m, g) :: bs ∧ ∀ x ∈ as ++ bs, x.1.rank ≠ m.rank := by
  obtain ⟨⟨m, g⟩, hmem, rfl⟩ := List.mem_map.1 (hw.markers.mem_iff.2 hm)
  obtain ⟨as, bs, rfl⟩ := List.append_of_mem hmem
  have hnodup : (((as ++ (m, g) :: bs).map Prod.fst).map Marker.rank).Nodup :=
    ((hw.markers.map Marker.rank).nodup_iff).2 h.nodup_rank
  refine ⟨as, g, bs, rfl, fun x hx heq => ?_⟩
  have hperm : (((m, g) :: (as ++ bs)).map (Marker.rank ∘ Prod.fst)).Perm
      ((as ++ (m, g) :: bs).map (Marker.rank ∘ Prod.fst)) := List.perm_middle.symm.map _
  rw [List.map_map] at hnodup
  have hcons := hperm.nodup_iff.2 hnodup
  exact (List.nodup_cons.1 hcons).1 (List.mem_map.2 ⟨x, hx, heq⟩)

/-- The search for the opening of a marker finds that marker, and no other behind it. -/
private theorem splitFirst? (hw : h.IsWrittenAs ms) (hm : m ∈ h.markers) (ht : '[' ∉ t) :
    ∃ a b, Text.splitFirst? m.opening (leftover m.rank ms ++ t) = some (a, m.remainder ++ b) ∧
      leftover (m.rank + 1) ms ++ t = a ++ b ∧ Text.splitFirst? m.opening b = none := by
  obtain ⟨as, g, bs, rfl, hne⟩ := hw.split hm
  obtain ⟨o, ho⟩ : ∃ o, m.opening = '[' :: o := by
    cases m <;> exact ⟨_, rfl⟩
  have hwell : ∀ x ∈ as ++ (m, g) :: bs, x.1.IsWellFormed := fun x hx => hw.wellFormed _ (hw.mem hx)
  have hapart : ∀ x ∈ as ++ bs, Apart ('[' :: o) x.1.opening :=
    fun x hx => ho ▸ Marker.apart_opening (hne x hx).symm
  have hgap : '[' ∉ g := bracket_not_mem_blank (hw.blank (m, g) (by simp))
  have hbehind : Text.splitFirst? ('[' :: o) (g ++ (leftover m.rank bs ++ t)) = none := by
    rw [Text.splitFirst?_append hgap, splitFirst?_leftover (fun x hx => hwell x (by simp [hx]))
      (fun x hx => hw.blank x (by simp [hx])) (fun x hx _ => hapart x (List.mem_append_right _ hx)),
      Text.splitFirst?_eq_none List.mem_cons_self ht]
    rfl
  refine ⟨leftover m.rank as, g ++ (leftover m.rank bs ++ t), ?_, ?_, ho ▸ hbehind⟩
  · have hleft : leftover m.rank (as ++ (m, g) :: bs) ++ t =
        leftover m.rank as ++ (m.opening ++ (m.remainder ++ (g ++ (leftover m.rank bs ++ t)))) := by
      rw [leftover_append, if_neg (Nat.lt_irrefl _), Marker.written]
      simp only [List.append_assoc]
    rw [hleft, ho, splitFirst?_leftover (fun x hx => hwell x (by simp [hx])) (fun x hx => hw.blank x (by simp [hx]))
      (fun x hx _ => hapart x (List.mem_append_left _ hx)), Text.splitFirst?_append_self (by simp)]
    simp
  · have has : leftover (m.rank + 1) as = leftover m.rank as :=
      leftover_succ fun x hx => hne x (List.mem_append_left _ hx)
    have hbs : leftover (m.rank + 1) bs = leftover m.rank bs :=
      leftover_succ fun x hx => hne x (List.mem_append_right _ hx)
    rw [leftover_append, if_pos (Nat.lt_succ_self _), has, hbs]
    simp only [List.nil_append, List.append_assoc]

/-- Without a marker of its rank, the search for an opening finds nothing. -/
private theorem absent (hw : h.IsWrittenAs ms) (ht : '[' ∉ t) (hm : ∀ x, h.Says x → x.rank ≠ m.rank) :
    Text.splitFirst? m.opening (leftover m.rank ms ++ t) = none ∧
      leftover (m.rank + 1) ms = leftover m.rank ms := by
  have hne : ∀ x ∈ ms, x.1.rank ≠ m.rank := fun x hx => hm _ (mem_markers.1 (hw.mem hx))
  obtain ⟨o, ho⟩ : ∃ o, m.opening = '[' :: o := by
    cases m <;> exact ⟨_, rfl⟩
  refine ⟨?_, leftover_succ hne⟩
  rw [ho, splitFirst?_leftover (fun x hx => hw.wellFormed _ (hw.mem hx)) hw.blank
    (fun x hx _ => ho ▸ Marker.apart_opening (hne x hx).symm), Text.splitFirst?_eq_none List.mem_cons_self ht]
  rfl

/-- Taking a marker out leaves the markers of higher rank, and all blanks. -/
theorem takeMarker? (hw : h.IsWrittenAs ms) (ht : '[' ∉ t) (hm : m ∈ h.markers)
    (hclosed : m.remainder = m.inside ++ [']']) :
    DirectiveEngine.takeMarker? m.opening (leftover m.rank ms ++ t) =
      some (m.inside, leftover (m.rank + 1) ms ++ t) := by
  obtain ⟨a, b, hsplit, hrest, -⟩ := hw.splitFirst? hm ht
  have hclose : Text.splitFirst? [']'] (m.inside ++ ']' :: b) = some (m.inside, b) :=
    Text.splitFirst?_of_not_mem (hw.wellFormed m hm).inside.2 [] b
  rw [DirectiveEngine.takeMarker?, hsplit, hclosed, hrest]
  simp [hclose]

end IsWrittenAs

/-! ### Reading headings -/

private theorem splitLast?_append {a b : Text} (hb : ':' ∉ b) :
    Text.splitLast? ':' (a ++ ':' :: b) = some (a, b) := by
  have hsplit := Text.splitFirst?_of_not_mem (c := ':') (a := b.reverse) (by simpa using hb) [] a.reverse
  have hreverse : (a ++ ':' :: b).reverse = b.reverse ++ (':' :: [] ++ a.reverse) := by simp
  rw [Text.splitLast?, hreverse, hsplit]
  simp

private theorem parseLoop?_inside {spec : LoopSpec} (hm : (Marker.loop spec).IsWellFormed) :
    Directive.parseLoop? (Marker.loop spec).inside = some spec := by
  obtain ⟨⟨-, hsource, hne⟩, -, hitem, hcolon⟩ := hm
  obtain ⟨c, source, hcons⟩ := List.exists_cons_of_ne_nil hne
  rw [Directive.parseLoop?, Marker.inside, splitLast?_append hcolon, hcons]
  simp only
  rw [← hcons, hsource, hitem]

private theorem trim_natText (n : Nat) : Text.trim (natText n) = natText n := by
  refine Text.trim_of_not_isBlank fun c hc => ?_
  have hdigit := isDigit_of_mem_natText hc
  simp only [Char.isDigit, Bool.and_eq_true, decide_eq_true_eq, ge_iff_le, UInt32.le_iff_toNat_le] at hdigit
  change 48 ≤ c.toNat ∧ c.toNat ≤ 57 at hdigit
  simp [isBlank]
  omega

namespace IsWrittenAs

theorem takeLoop (hw : h.IsWrittenAs ms) (ht : '[' ∉ t) :
    Directive.takeLoop (leftover 0 ms ++ t) = (h.loop?.map some, leftover 1 ms ++ t) := by
  unfold Directive.takeLoop
  cases hl : h.loop? with
  | none =>
    obtain ⟨hnone, hleft⟩ :
        Text.splitFirst? "[foreach:" (leftover 0 ms ++ t) = none ∧ leftover 1 ms = leftover 0 ms :=
      hw.absent (m := .loop ⟨[], []⟩) ht fun x hx => by cases x <;> simp_all [Says, Marker.rank]
    rw [takeMarker?_of_none hnone, hleft]
    rfl
  | some spec =>
    have hm : Marker.loop spec ∈ h.markers := mem_markers.2 hl
    have htake : DirectiveEngine.takeMarker? "[foreach:" (leftover 0 ms ++ t) =
        some ((Marker.loop spec).inside, leftover 1 ms ++ t) := hw.takeMarker? ht hm rfl
    simp only [htake, parseLoop?_inside (hw.wellFormed _ hm), Option.map_some]

theorem takeDelay (hw : h.IsWrittenAs ms) (ht : '[' ∉ t) :
    Directive.takeDelay (leftover 1 ms ++ t) = (h.delay?.getD 0, leftover 2 ms ++ t) := by
  unfold Directive.takeDelay
  cases hd : h.delay? with
  | none =>
    obtain ⟨hnone, hleft⟩ :
        Text.splitFirst? "[delay:" (leftover 1 ms ++ t) = none ∧ leftover 2 ms = leftover 1 ms :=
      hw.absent (m := .delay 0) ht fun x hx => by cases x <;> simp_all [Says, Marker.rank]
    rw [takeMarker?_of_none hnone, hleft]
    rfl
  | some n =>
    have hm : Marker.delay n ∈ h.markers := mem_markers.2 hd
    have htake : DirectiveEngine.takeMarker? "[delay:" (leftover 1 ms ++ t) =
        some ((Marker.delay n).inside, leftover 2 ms ++ t) := hw.takeMarker? ht hm rfl
    have hn : n ≤ Directive.maxDelay := hw.wellFormed _ hm
    simp only [htake, Marker.inside, trim_natText, natural?_natText hn, Option.getD_some]

/-- The parser tries the three kinds of gates one after the other. -/
theorem takeGate (hw : h.IsWrittenAs ms) (ht : '[' ∉ t) :
    Directive.takeGate (leftover 2 ms ++ t) = (h.gate, leftover 5 ms ++ t) := by
  have helse (hg : ∀ c, h.gate ≠ .elseWhen c) :
      Text.splitFirst? "[else if:" (leftover 2 ms ++ t) = none ∧ leftover 3 ms = leftover 2 ms :=
    hw.absent (m := .elseWhen []) ht fun x hx => by cases x <;> simp_all [Says, Marker.rank]
  have hother (hg : h.gate ≠ .otherwise) :
      Text.splitFirst? "[else]" (leftover 3 ms ++ t) = none ∧ leftover 4 ms = leftover 3 ms :=
    hw.absent (m := .otherwise) ht fun x hx => by cases x <;> simp_all [Says, Marker.rank]
  have hwhen (hg : ∀ c, h.gate ≠ .whenever c) :
      Text.splitFirst? "[if:" (leftover 4 ms ++ t) = none ∧ leftover 5 ms = leftover 4 ms :=
    hw.absent (m := .whenever []) ht fun x hx => by cases x <;> simp_all [Says, Marker.rank]
  unfold Directive.takeGate Text.contains
  cases hg : h.gate with
  | elseWhen c =>
    have htake : DirectiveEngine.takeMarker? "[else if:" (leftover 2 ms ++ t) = some (c, leftover 3 ms ++ t) :=
      hw.takeMarker? (m := .elseWhen c) ht (mem_markers.2 hg) rfl
    rw [htake, ← (hother (by simp [hg])).2, ← (hwhen (by simp [hg])).2]
  | otherwise =>
    obtain ⟨helse, hleft⟩ := helse (by simp [hg])
    obtain ⟨a, b, hfound, hrest, hnone⟩ :
        ∃ a b, Text.splitFirst? "[else]" (leftover 3 ms ++ t) = some (a, b) ∧ leftover 4 ms ++ t = a ++ b ∧
          Text.splitFirst? "[else]" b = none :=
      IsWrittenAs.splitFirst? (m := .otherwise) hw (mem_markers.2 hg) ht
    have hremoved : Text.replaceAll "[else]" "" (leftover 3 ms ++ t) = a ++ b := by
      rw [Text.replaceAll_of_splitFirst? hfound (by simp), Text.replaceAll_of_none hnone]
      simp
    -- there is one such marker, so that removing all of them removes it
    rw [takeMarker?_of_none helse, ← hleft, hfound, hremoved, (hwhen (by simp [hg])).2, hrest]
    rfl
  | whenever c =>
    obtain ⟨helse, hleft⟩ := helse (by simp [hg])
    obtain ⟨hother, hleft'⟩ := hother (by simp [hg])
    have htake : DirectiveEngine.takeMarker? "[if:" (leftover 4 ms ++ t) = some (c, leftover 5 ms ++ t) :=
      hw.takeMarker? (m := .whenever c) ht (mem_markers.2 hg) rfl
    rw [takeMarker?_of_none helse, ← hleft, hother, ← hleft', htake]
    rfl
  | always =>
    obtain ⟨helse, hleft⟩ := helse (by simp [hg])
    obtain ⟨hother, hleft'⟩ := hother (by simp [hg])
    obtain ⟨hwhen, hleft''⟩ := hwhen (by simp [hg])
    rw [takeMarker?_of_none helse, ← hleft, hother, ← hleft', takeMarker?_of_none hwhen, ← hleft'']
    rfl

theorem takeWeight (hw : h.IsWrittenAs ms) (ht : '[' ∉ t) :
    Directive.takeWeight (leftover 5 ms ++ t) = (h.weight?, leftover 6 ms ++ t) := by
  unfold Directive.takeWeight
  cases hweight : h.weight? with
  | none =>
    obtain ⟨hnone, hleft⟩ :
        Text.splitFirst? "[random" (leftover 5 ms ++ t) = none ∧ leftover 6 ms = leftover 5 ms :=
      hw.absent (m := .weight 0) ht fun x hx => by cases x <;> simp_all [Says, Marker.rank]
    rw [takeMarker?_of_none hnone, hleft]
  | some n =>
    have hm : Marker.weight n ∈ h.markers := mem_markers.2 hweight
    have htake : DirectiveEngine.takeMarker? "[random" (leftover 5 ms ++ t) =
        some ((Marker.weight n).inside, leftover 6 ms ++ t) := hw.takeMarker? ht hm rfl
    obtain ⟨hpos, hn⟩ : 0 < n ∧ n ≤ Directive.maxWeight := hw.wellFormed _ hm
    have hread : Directive.parseWeight (Marker.weight n).inside = n := by
      simp [Directive.parseWeight, Marker.inside, trim_natText, natural?_natText hn, Option.filter, hpos]
    simp only [htake, hread]

end IsWrittenAs

end Heading

end DirectiveEngine
