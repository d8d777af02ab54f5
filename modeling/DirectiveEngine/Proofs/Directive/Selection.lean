import DirectiveEngine.Directive.Parse
import DirectiveEngine.Directive.Selection
import Mathlib.Algebra.GroupWithZero.Nat
import Mathlib.Data.List.Nodup
import Mathlib.Data.List.Zip
import Mathlib.Order.Interval.Finset.Nat

/-!
# Weighted picks

The weights of a list lay out the draws from zero on, one stretch for each item; an item is picked by the draws in its
stretch (`pick?_eq_some_iff`), of which there are as many as it weighs (`card_draws`).  Directives of an action list
are told apart by their positions (`keptAt`), so this holds for equal ones too.
-/

namespace DirectiveEngine

variable {α : Type} {weight : α → Nat} {draw : Nat} {xs ys : List α} {x : α}

/-! ### Picks and the items of a list -/

private theorem mem_of_pickAt? (h : pickAt? weight draw xs = some x) : x ∈ xs := by
  induction xs generalizing draw with
  | nil => simp [pickAt?] at h
  | cons y ys ih =>
    unfold pickAt? at h
    split at h
    · rw [Option.some.inj h]
      exact List.mem_cons_self
    · exact List.mem_cons_of_mem _ (ih h)

theorem mem_of_pick? (h : pick? weight draw xs = some x) : x ∈ xs := by
  rcases Option.or_eq_some_iff.1 h with h | ⟨-, h⟩
  · exact mem_of_pickAt? h
  · exact List.mem_of_mem_head? h

theorem pick?_map {β : Type} (f : β → α) (weight : α → Nat) (draw : Nat) (xs : List β) :
    pick? weight draw (xs.map f) = (pick? (weight ∘ f) draw xs).map f := by
  have hpick (draw : Nat) : pickAt? weight draw (xs.map f) = (pickAt? (weight ∘ f) draw xs).map f := by
    induction xs generalizing draw with
    | nil => rfl
    | cons x xs ih =>
      simp only [List.map_cons, pickAt?, Function.comp_apply, ih]
      split <;> rfl
  unfold pick?
  rw [hpick, List.head?_map]
  cases pickAt? (weight ∘ f) draw xs <;> rfl

/-- Whatever the draw, something is picked if there is anything. -/
theorem isSome_pick? (hne : xs ≠ []) (weight : α → Nat) (draw : Nat) : (pick? weight draw xs).isSome := by
  obtain ⟨x, xs, rfl⟩ := List.exists_cons_of_ne_nil hne
  rw [pick?, Option.isSome_or, Bool.or_eq_true]
  exact .inr rfl

/-! ### Stretches of draws -/

/-- The draws below the sum of the weights in front fall on what stands there. -/
theorem pickAt?_append (weight : α → Nat) (draw : Nat) (xs ys : List α) :
    pickAt? weight draw (xs ++ ys) =
      if draw < (xs.map weight).sum then pickAt? weight draw xs
      else pickAt? weight (draw - (xs.map weight).sum) ys := by
  induction xs generalizing draw with
  | nil => rfl
  | cons x xs ih =>
    rw [List.cons_append, pickAt?, pickAt?, ih, List.map_cons, List.sum_cons]
    by_cases hx : draw < weight x
    · have hsum : draw < weight x + (xs.map weight).sum := by omega
      simp [hx, hsum]
    · have hsum : draw - weight x < (xs.map weight).sum ↔ draw < weight x + (xs.map weight).sum := by omega
      simp [hx, hsum, Nat.sub_sub]

theorem pickAt?_eq_none_iff : pickAt? weight draw xs = none ↔ (xs.map weight).sum ≤ draw := by
  induction xs generalizing draw with
  | nil => simp [pickAt?]
  | cons x xs ih =>
    rw [pickAt?, List.map_cons, List.sum_cons]
    split
    · simp
      omega
    · rw [ih]
      omega

theorem pick?_of_lt (h : draw < (xs.map weight).sum) : pick? weight draw xs = pickAt? weight draw xs := by
  obtain ⟨x, hx⟩ := Option.ne_none_iff_exists'.1 (mt pickAt?_eq_none_iff.1 (Nat.not_le.2 h))
  rw [pick?, hx]
  rfl

theorem weight_pos_of_pick? (weight : α → Nat) (hdraw : draw < (xs.map weight).sum) (h : pick? weight draw xs = some x) :
    0 < weight x := by
  rw [pick?_of_lt hdraw] at h
  clear hdraw
  induction xs generalizing draw with
  | nil => simp [pickAt?] at h
  | cons y ys ih =>
    unfold pickAt? at h
    split at h
    · rename_i hy
      rw [← Option.some.inj h]
      omega
    · exact ih h

/-- An item is picked by the draws from the sum of the weights in front of it on, as many as it weighs. -/
theorem pick?_eq_some_iff (hnodup : (xs ++ x :: ys).Nodup) (hdraw : draw < ((xs ++ x :: ys).map weight).sum) :
    pick? weight draw (xs ++ x :: ys) = some x ↔
      (xs.map weight).sum ≤ draw ∧ draw < (xs.map weight).sum + weight x := by
  obtain ⟨-, hnodup', hapart⟩ := List.nodup_append.1 hnodup
  have hxs : x ∉ xs := fun h => hapart x h x List.mem_cons_self rfl
  have hys : x ∉ ys := (List.nodup_cons.1 hnodup').1
  rw [pick?_of_lt hdraw, pickAt?_append]
  split
  · rename_i hfront
    refine iff_of_false (fun h => hxs (mem_of_pickAt? h)) fun h => ?_
    omega
  · rw [pickAt?]
    split
    · refine iff_of_true rfl ?_
      omega
    · refine iff_of_false (fun h => hys (mem_of_pickAt? h)) fun h => ?_
      omega

/-- Of the draws below the sum of the weights, as many pick an item as it weighs. -/
theorem card_draws [DecidableEq α] (weight : α → Nat) (hnodup : xs.Nodup) (hx : x ∈ xs) :
    ((Finset.range (xs.map weight).sum).filter fun draw => pick? weight draw xs = some x).card = weight x := by
  obtain ⟨as, bs, rfl⟩ := List.append_of_mem hx
  have hstretch : ((Finset.range ((as ++ x :: bs).map weight).sum).filter fun draw =>
      pick? weight draw (as ++ x :: bs) = some x) =
        Finset.Ico (as.map weight).sum ((as.map weight).sum + weight x) := by
    ext draw
    rw [Finset.mem_filter, Finset.mem_range, Finset.mem_Ico]
    constructor
    · rintro ⟨hdraw, h⟩
      exact (pick?_eq_some_iff hnodup hdraw).1 h
    · intro h
      have hdraw : draw < ((as ++ x :: bs).map weight).sum := by
        simp only [List.map_append, List.map_cons, List.sum_append, List.sum_cons]
        omega
      exact ⟨hdraw, (pick?_eq_some_iff hnodup hdraw).2 h⟩
  rw [hstretch, Nat.card_Ico, Nat.add_sub_cancel_left]

/-! ### Positions in an action list -/

/-- What is left of a list when its random group is collapsed, each directive with its position in the list. -/
def keptAt (draw : Nat) (ds : List Directive) : List (Directive × Nat) :=
  (ds.zipIdx.filter fun x => !x.1.isRandom) ++
    (pick? (fun x => x.1.weight) draw (ds.zipIdx.filter fun x => x.1.isRandom)).toList

/-- A property of the directives alone is filtered for with or without positions. -/
private theorem map_fst_filter_zipIdx (p : Directive → Bool) (ds : List Directive) :
    (ds.zipIdx.filter fun x => p x.1).map Prod.fst = ds.filter p := by
  conv => rhs; rw [← List.zipIdx_map_fst 0 ds, List.filter_map]
  rfl

theorem map_fst_keptAt (draw : Nat) (ds : List Directive) : (keptAt draw ds).map Prod.fst = collapseRandom draw ds := by
  unfold keptAt collapseRandom
  rw [List.map_append, map_fst_filter_zipIdx fun d => !d.isRandom, ← map_fst_filter_zipIdx Directive.isRandom,
    pick?_map, Option.toList_map]
  rfl

theorem getElem?_of_mem_keptAt {draw : Nat} {ds : List Directive} {x : Directive × Nat} (h : x ∈ keptAt draw ds) :
    ds[x.2]? = some x.1 := by
  have hplaced : x ∈ ds.zipIdx := by
    rcases List.mem_append.1 h with h | h
    · exact (List.mem_filter.1 h).1
    · exact (List.mem_filter.1 (mem_of_pick? (Option.mem_toList.1 h))).1
  exact List.mem_zipIdx_iff_getElem?.1 hplaced

/-! ### The random group -/

/-- The random directives of a list, each with its position. -/
def randomAt (ds : List Directive) : List (Directive × Nat) :=
  ds.zipIdx.filter fun x => x.1.isRandom

theorem randomAt_nodup (ds : List Directive) : (randomAt ds).Nodup := by
  have hpositions : (ds.zipIdx.map Prod.snd).Nodup := by
    rw [List.zipIdx_map_snd]
    exact List.nodup_range'
  exact hpositions.of_map.filter _

/-- A random directive is kept just if it is picked. -/
theorem mem_keptAt_iff {ds : List Directive} {x : Directive × Nat} (hx : x.1.isRandom) :
    x ∈ keptAt draw ds ↔ pick? (fun x => x.1.weight) draw (randomAt ds) = some x := by
  have hother : x ∉ ds.zipIdx.filter fun x => !x.1.isRandom := fun h => by
    have hno := (List.mem_filter.1 h).2
    simp [hx] at hno
  rw [keptAt, List.mem_append, Option.mem_toList]
  exact or_iff_right hother

/-- Collapsing keeps the directives without a random mark, in order, and behind them one of the others, if there are
any: each for as many draws as it weighs, so none without weight if another one has some. -/
theorem collapseRandom_proportional (ds : List Directive) :
    let total := ((randomAt ds).map fun x => x.1.weight).sum
    (∀ draw, collapseRandom draw ds = (keptAt draw ds).map Prod.fst) ∧
    (randomAt ds = [] → ∀ draw, collapseRandom draw ds = ds) ∧
    (randomAt ds ≠ [] → ∀ draw, ∃ x ∈ randomAt ds, x ∈ keptAt draw ds ∧
      collapseRandom draw ds = (ds.filter fun d => !d.isRandom) ++ [x.1]) ∧
    (∀ x ∈ randomAt ds, ((Finset.range total).filter fun draw => x ∈ keptAt draw ds).card = x.1.weight) ∧
    (0 < total → ∀ draw < total, ∀ x ∈ randomAt ds, x ∈ keptAt draw ds → 0 < x.1.weight) := by
  intro total
  have hrandom {x : Directive × Nat} (hx : x ∈ randomAt ds) : x.1.isRandom := (List.mem_filter.1 hx).2
  refine ⟨fun draw => (map_fst_keptAt draw ds).symm, fun hnone draw => ?_, fun hsome draw => ?_, fun x hx => ?_,
    fun _ draw hdraw x hx hkept => ?_⟩
  · have hfilter : ds.filter Directive.isRandom = [] := by
      rw [← map_fst_filter_zipIdx Directive.isRandom]
      exact congrArg (List.map Prod.fst) hnone
    have hall : ds.filter (fun d => !d.isRandom) = ds :=
      List.filter_eq_self.2 fun d hd => by simpa using List.filter_eq_nil_iff.1 hfilter d hd
    rw [collapseRandom, hfilter, hall]
    exact List.append_nil ds
  · obtain ⟨x, hx⟩ := Option.isSome_iff_exists.1 (isSome_pick? hsome (fun x => x.1.weight) draw)
    refine ⟨x, mem_of_pick? hx, (mem_keptAt_iff (hrandom (mem_of_pick? hx))).2 hx, ?_⟩
    rw [← map_fst_keptAt, ← map_fst_filter_zipIdx fun d => !d.isRandom, keptAt]
    change List.map Prod.fst (_ ++ (pick? (fun x => x.1.weight) draw (randomAt ds)).toList) = _
    rw [hx, List.map_append]
    rfl
  · simp only [mem_keptAt_iff (hrandom hx)]
    exact card_draws (fun x => x.1.weight) (randomAt_nodup ds) hx
  · exact weight_pos_of_pick? (fun x : Directive × Nat => x.1.weight) hdraw
      ((mem_keptAt_iff (hrandom hx)).1 hkept)

/-- Two equal actions are picked apart, by two of the five draws each. -/
theorem collapseRandom_proportional_equal :
    let ds := (["[random:2] a", "b", "[random:2] a", "[random:1] c"] : List Text).map Directive.parse
    (randomAt ds).length = 3 ∧
      ∀ x ∈ randomAt ds, ((Finset.range 5).filter fun draw => x ∈ keptAt draw ds).card = x.1.weight := by
  intro ds
  have htotal : ((randomAt ds).map fun x => x.1.weight).sum = 5 := by decide +kernel
  refine ⟨by decide +kernel, fun x hx => ?_⟩
  rw [← htotal]
  exact (collapseRandom_proportional ds).2.2.2.1 x hx

end DirectiveEngine
