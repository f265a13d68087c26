import Seismic.Proofs.Column.Extremes
import Seismic.Proofs.Double.Integers
import Seismic.Subvolume.Bench

/-!
# The median by selection

The median does not need a sorted column.  It is enough that the upper middle value stands in its
place, with no greater one before it and no smaller one behind it.  The lower middle value is then
the greatest of those before.  However the others are arranged, what comes out is what a full sort
would give, and so it is the same for every order of the column.
-/

namespace Seismic
namespace Column

open Double (IsNumber value)

variable {xs ys zs : List Float} {k : Nat} {upper : Float}

/-! ## The sorted column -/

/-- There is one way to sort a column, as the total order tells all words apart. -/
theorem eq_mergeSort (hp : zs.Perm xs) (hs : zs.Pairwise fun x y => Scalar.totalLe x y = true) :
    xs.mergeSort Scalar.totalLe = zs := by
  refine List.Perm.eq_of_pairwise (fun _ _ _ _ => Double.totalLe_antisymm)
    (List.pairwise_mergeSort Double.totalLe_trans Double.totalLe_total xs) hs ?_
  exact (List.mergeSort_perm xs Scalar.totalLe).trans hp.symm

/-! ## Selection -/

/-- A rearranged column with the value of rank `k` in place. -/
structure IsSelected (k : Nat) (upper : Float) (ys xs : List Float) : Prop where
  perm : ys.Perm xs
  entry : ys[k]? = some upper
  left : ∀ y ∈ ys.take k, Scalar.totalLe y upper = true
  right : ∀ y ∈ ys.drop (k + 1), Scalar.totalLe upper y = true

/-- What a selection routine is for: it rearranges a list so that the value of a rank is in
place. -/
def Selects (select : Nat → List Float → List Float) : Prop :=
  ∀ k xs, k < xs.length → ∃ upper, IsSelected k upper (select k xs) xs

namespace IsSelected

theorem split (h : IsSelected k upper ys xs) : ys = ys.take k ++ upper :: ys.drop (k + 1) := by
  obtain ⟨hk, he⟩ := List.getElem?_eq_some_iff.mp h.entry
  calc ys = ys.take k ++ ys.drop k := (List.take_append_drop k ys).symm
    _ = ys.take k ++ upper :: ys.drop (k + 1) := by rw [List.drop_eq_getElem_cons hk, he]

theorem lt_length (h : IsSelected k upper ys xs) : k < ys.length :=
  (List.getElem?_eq_some_iff.mp h.entry).1

/-- Sorting what stands before and behind the selected value sorts the column. -/
theorem mergeSort_eq (h : IsSelected k upper ys xs) : xs.mergeSort Scalar.totalLe =
    (ys.take k).mergeSort Scalar.totalLe ++
      upper :: (ys.drop (k + 1)).mergeSort Scalar.totalLe := by
  have hleft := List.mergeSort_perm (ys.take k) Scalar.totalLe
  have hright := List.mergeSort_perm (ys.drop (k + 1)) Scalar.totalLe
  apply eq_mergeSort
  · refine (hleft.append (hright.cons upper)).trans ?_
    rw [← h.split]
    exact h.perm
  · have hsort : ∀ l : List Float, (l.mergeSort Scalar.totalLe).Pairwise
        fun x y => Scalar.totalLe x y = true :=
      List.pairwise_mergeSort Double.totalLe_trans Double.totalLe_total
    have hbelow : ∀ y ∈ (ys.take k).mergeSort Scalar.totalLe, Scalar.totalLe y upper = true :=
      fun y hy => h.left y (hleft.mem_iff.mp hy)
    have habove : ∀ y ∈ (ys.drop (k + 1)).mergeSort Scalar.totalLe,
        Scalar.totalLe upper y = true := fun y hy => h.right y (hright.mem_iff.mp hy)
    rw [List.pairwise_append, List.pairwise_cons]
    refine ⟨hsort _, ⟨habove, hsort _⟩, ?_⟩
    intro y hy z hz
    rcases List.mem_cons.mp hz with rfl | hz
    · exact hbelow y hy
    · exact Double.totalLe_trans _ _ _ (hbelow y hy) (habove z hz)

theorem length_take (h : IsSelected k upper ys xs) :
    ((ys.take k).mergeSort Scalar.totalLe).length = k := by
  rw [List.length_mergeSort, List.length_take, Nat.min_eq_left h.lt_length.le]

theorem take_mergeSort (h : IsSelected k upper ys xs) :
    (xs.mergeSort Scalar.totalLe).take k = (ys.take k).mergeSort Scalar.totalLe := by
  rw [h.mergeSort_eq, List.take_left' h.length_take]

/-- The sorted column has the same value in place. -/
theorem sorted (h : IsSelected k upper ys xs) :
    IsSelected k upper (xs.mergeSort Scalar.totalLe) xs where
  perm := List.mergeSort_perm xs Scalar.totalLe
  entry := by
    rw [h.mergeSort_eq, List.getElem?_append_right h.length_take.le, h.length_take, Nat.sub_self]
    rfl
  left y hy := by
    rw [h.take_mergeSort] at hy
    exact h.left y ((List.mergeSort_perm _ _).mem_iff.mp hy)
  right y hy := by
    rw [h.mergeSort_eq, ← List.drop_drop, List.drop_left' h.length_take] at hy
    exact h.right y ((List.mergeSort_perm _ _).mem_iff.mp hy)

/-! ## Ranks -/

theorem countP_lt_le (h : IsSelected k upper ys xs) :
    xs.countP (fun x => decide (x < upper)) ≤ k := by
  have hnone : (upper :: ys.drop (k + 1)).countP (fun x => decide (x < upper)) = 0 := by
    rw [List.countP_eq_zero]
    intro x hx hlt
    have hle : Scalar.totalLe upper x = true := by
      rcases List.mem_cons.mp hx with rfl | hx
      · exact Double.totalLe_refl x
      · exact h.right x hx
    obtain ⟨hn, hu, hv⟩ := Double.lt_iff.mp (of_decide_eq_true hlt)
    exact absurd (Double.value_le_of_totalLe hu hn hle) hv.not_ge
  calc xs.countP (fun x => decide (x < upper))
      = (ys.take k ++ upper :: ys.drop (k + 1)).countP (fun x => decide (x < upper)) := by
        rw [← h.split, h.perm.countP_eq]
    _ = (ys.take k).countP (fun x => decide (x < upper)) := by
        rw [List.countP_append, hnone, Nat.add_zero]
    _ ≤ (ys.take k).length := List.countP_le_length
    _ ≤ k := List.length_take_le k ys

theorem countP_gt_le (h : IsSelected k upper ys xs) :
    xs.countP (fun x => decide (upper < x)) ≤ xs.length - (k + 1) := by
  have hnone : (ys.take k).countP (fun x => decide (upper < x)) = 0 := by
    rw [List.countP_eq_zero]
    intro x hx hlt
    obtain ⟨hu, hn, hv⟩ := Double.lt_iff.mp (of_decide_eq_true hlt)
    exact absurd (Double.value_le_of_totalLe hn hu (h.left x hx)) hv.not_ge
  have hself : ¬ decide (upper < upper) = true := by
    intro hlt
    exact absurd (Double.lt_iff.mp (of_decide_eq_true hlt)).2.2 (lt_irrefl _)
  calc xs.countP (fun x => decide (upper < x))
      = (ys.take k ++ upper :: ys.drop (k + 1)).countP (fun x => decide (upper < x)) := by
        rw [← h.split, h.perm.countP_eq]
    _ = (ys.drop (k + 1)).countP (fun x => decide (upper < x)) := by
        rw [List.countP_append, hnone, Nat.zero_add,
          List.countP_cons_of_neg (p := fun x => decide (upper < x)) hself]
    _ ≤ (ys.drop (k + 1)).length := List.countP_le_length
    _ = xs.length - (k + 1) := by rw [List.length_drop, h.perm.length_eq]

/-! ## The lower middle value -/

variable (hxs : ∀ x ∈ xs, IsNumber x)

include hxs

theorem isNumber (h : IsSelected k upper ys xs) : IsNumber upper :=
  hxs upper (h.perm.mem_iff.mp (List.mem_of_getElem? h.entry))

theorem isNumber_of_mem_take (h : IsSelected k upper ys xs) {y : Float} (hy : y ∈ ys.take k) :
    IsNumber y :=
  hxs y (h.perm.mem_iff.mp (List.mem_of_mem_take hy))

/-- What stands before the selected value may be in any order: the greatest of it is at one
place. -/
theorem greatest_take_add (h : IsSelected k upper ys xs) {l : Float} (hl : l ∈ ys.take k)
    (hmax : ∀ y ∈ ys.take k, value y ≤ value l) :
    greatest (ys.take k) + upper = l + upper := by
  have hne : ys.take k ≠ [] := List.ne_nil_of_mem hl
  have hg := greatest_isExtreme hne (fun y hy => h.isNumber_of_mem_take hxs hy)
  have hv : value (greatest (ys.take k)) = value l :=
    le_antisymm (hmax _ hg.mem) (hg.below l hl)
  exact Double.add_congr_of_totalLe (h.isNumber_of_mem_take hxs hg.mem)
    (h.isNumber_of_mem_take hxs hl) (h.isNumber hxs) hv (h.left _ hg.mem) (h.left l hl)

/-- The lower middle value stands right before the upper one in the sorted column. -/
theorem lower (h : IsSelected (k + 1) upper ys xs) : ∃ l,
    (xs.mergeSort Scalar.totalLe)[k]? = some l ∧ Scalar.totalLe l upper = true ∧
      greatest (ys.take (k + 1)) + upper = l + upper := by
  have hlen : k < ((ys.take (k + 1)).mergeSort Scalar.totalLe).length := by
    rw [h.length_take]
    exact Nat.lt_succ_self k
  have hsort := List.pairwise_mergeSort Double.totalLe_trans Double.totalLe_total
    (ys.take (k + 1))
  have hmem : ∀ y, y ∈ (ys.take (k + 1)).mergeSort Scalar.totalLe ↔ y ∈ ys.take (k + 1) :=
    fun y => (List.mergeSort_perm _ _).mem_iff
  have hl : ((ys.take (k + 1)).mergeSort Scalar.totalLe)[k] ∈ ys.take (k + 1) :=
    (hmem _).mp (List.getElem_mem hlen)
  refine ⟨((ys.take (k + 1)).mergeSort Scalar.totalLe)[k], ?_, h.left _ hl,
    h.greatest_take_add hxs hl ?_⟩
  · rw [h.mergeSort_eq, List.getElem?_append_left hlen, List.getElem?_eq_getElem hlen]
  · intro y hy
    obtain ⟨i, hi, rfl⟩ := List.getElem_of_mem ((hmem y).mpr hy)
    have hik : i ≤ k := by
      rw [h.length_take] at hi
      exact Nat.lt_succ_iff.mp hi
    refine Double.value_le_of_totalLe (h.isNumber_of_mem_take hxs hy)
      (h.isNumber_of_mem_take hxs hl) ?_
    rcases hik.lt_or_eq with hlt | rfl
    · exact List.pairwise_iff_getElem.mp hsort i k hi hlen hlt
    · exact Double.totalLe_refl _

end IsSelected

/-! ## The median of an arrangement -/

theorem median_eq_medianOf (xs : List Float) :
    median xs = medianOf (xs.mergeSort Scalar.totalLe) := by
  unfold medianOf
  rw [List.length_mergeSort]
  rfl

theorem medianOf_eq {α : Type} [Scalar α] [Limits α] {ys : List α} {upper : α}
    (h : ys[ys.length / 2]? = some upper) : medianOf ys =
      if ys.length % 2 = 1 then upper else (greatest (ys.take (ys.length / 2)) + upper) / 2 := by
  unfold medianOf
  rw [h]

/-- However the selection arranges the others, the median is that of the sorted column. -/
theorem medianOf_eq_median (hxs : ∀ x ∈ xs, IsNumber x)
    (h : IsSelected (xs.length / 2) upper ys xs) : medianOf ys = median xs := by
  have hlen : ys.length = xs.length := h.perm.length_eq
  have hsorted : IsSelected ((xs.mergeSort Scalar.totalLe).length / 2) upper
      (xs.mergeSort Scalar.totalLe) xs := by
    rw [List.length_mergeSort]
    exact h.sorted
  have hentry : ys[ys.length / 2]? = some upper := by
    rw [hlen]
    exact h.entry
  rw [median_eq_medianOf, medianOf_eq hsorted.entry, medianOf_eq hentry, List.length_mergeSort, hlen]
  by_cases hodd : xs.length % 2 = 1
  · rw [if_pos hodd, if_pos hodd]
  · rw [if_neg hodd, if_neg hodd]
    have hpos : 0 < xs.length := hlen ▸ Nat.zero_lt_of_lt h.lt_length
    obtain ⟨k, hk⟩ : ∃ k, xs.length / 2 = k + 1 := Nat.exists_eq_succ_of_ne_zero (by omega)
    rw [hk] at h ⊢
    obtain ⟨l, hl, -, hg⟩ := h.lower hxs
    obtain ⟨l', hl', -, hg'⟩ := h.sorted.lower hxs
    rw [hl] at hl'
    rw [hg, hg', Option.some.inj hl']

/-! ## Half the sum of two zeros -/

theorem isInteger_of_value_zero {x : Float} (hx : IsNumber x) (h : value x = 0) :
    Double.IsInteger x 0 := by
  obtain ⟨hf, hv⟩ := Double.isFinite_of_value_eq hx (r := 0) h
  exact ⟨hf, by rw [hv, Int.cast_zero]⟩

theorem half_zeros {x y : Float} (hx : Double.IsInteger x 0) (hy : Double.IsInteger y 0) :
    Double.IsInteger ((x + y) / 2) 0 := by
  have hsum : Double.IsInteger (x + y) 0 := hx.add hy (by norm_num)
  exact hsum.zero_div Double.isInteger_two.finite (by rw [Double.isInteger_two.eq]; norm_num)

/-! ## What the median is -/

theorem isSelected_of_sorted (hp : zs.Perm xs)
    (hs : zs.Pairwise fun x y => Scalar.totalLe x y = true) (hk : k < zs.length) :
    IsSelected k zs[k] zs xs := by
  have hsplit : zs = zs.take k ++ zs[k] :: zs.drop (k + 1) := by
    rw [← List.drop_eq_getElem_cons hk, List.take_append_drop]
  rw [hsplit, List.pairwise_append, List.pairwise_cons] at hs
  obtain ⟨-, ⟨hright, -⟩, hleft⟩ := hs
  exact ⟨hp, List.getElem?_eq_getElem hk, fun y hy => hleft y hy _ List.mem_cons_self, hright⟩

/-- A full sort is a selection of every rank. -/
theorem exists_isSelected (hk : k < xs.length) :
    ∃ upper, IsSelected k upper (xs.mergeSort Scalar.totalLe) xs := by
  have hlen : k < (xs.mergeSort Scalar.totalLe).length := by
    rw [List.length_mergeSort]
    exact hk
  exact ⟨_, isSelected_of_sorted (List.mergeSort_perm xs _)
    (List.pairwise_mergeSort Double.totalLe_trans Double.totalLe_total xs) hlen⟩

theorem median_of_isSelected (h : IsSelected (xs.length / 2) upper (xs.mergeSort Scalar.totalLe) xs) :
    median xs = if xs.length % 2 = 1 then upper
      else (greatest ((xs.mergeSort Scalar.totalLe).take (xs.length / 2)) + upper) / 2 := by
  have hentry : (xs.mergeSort Scalar.totalLe)[(xs.mergeSort Scalar.totalLe).length / 2]? =
      some upper := by
    rw [List.length_mergeSort]
    exact h.entry
  rw [median_eq_medianOf, medianOf_eq hentry, List.length_mergeSort]
  rfl

/-- Two sorted columns agree in every place, up to the sign of zeros. -/
theorem map_value_eq (hxs : ∀ x ∈ xs, IsNumber x) (hp : zs.Perm xs)
    (hs : zs.Pairwise fun x y => x ≤ y) :
    zs.map value = (xs.mergeSort Scalar.totalLe).map value := by
  have hperm := List.mergeSort_perm xs Scalar.totalLe
  have hsorted := List.pairwise_mergeSort Double.totalLe_trans Double.totalLe_total xs
  have hother : (zs.map value).Pairwise fun a b => a ≤ b :=
    List.pairwise_map.mpr (hs.imp fun h => (Double.le_iff.mp h).2.2)
  have hvalues : ((xs.mergeSort Scalar.totalLe).map value).Pairwise fun a b => a ≤ b := by
    rw [List.pairwise_map]
    refine hsorted.imp_of_mem ?_
    intro x y hx hy hle
    exact Double.value_le_of_totalLe (hxs x (hperm.mem_iff.mp hx)) (hxs y (hperm.mem_iff.mp hy)) hle
  exact List.Perm.eq_of_pairwise (fun _ _ _ _ => le_antisymm) hother hvalues
    ((hp.trans hperm.symm).map value)

/-- The value of middle rank of an odd number of values, half the sum of the two middle ones of an
even number.  Places of middle ranks are those in a sorted column. -/
structure IsMedian (xs : List Float) (m : Float) : Prop where
  odd : xs.length % 2 = 1 → m ∈ xs ∧
    xs.countP (fun x => decide (x < m)) ≤ (xs.length - 1) / 2 ∧
    xs.countP (fun x => decide (m < x)) ≤ (xs.length - 1) / 2
  even : xs.length % 2 = 0 → ∃ l ∈ xs, ∃ u ∈ xs, l ≤ u ∧ m = (l + u) / 2 ∧
    ∀ zs : List Float, zs.Perm xs → zs.Pairwise (fun x y => Scalar.totalLe x y = true) →
      zs[xs.length / 2 - 1]? = some l ∧ zs[xs.length / 2]? = some u
  /-- A comparison that takes the two zeros for equal leaves more than one way to sort.  The
  median is the same for all, up to its sign if it is zero. -/
  sorted : xs.length % 2 = 0 → ∀ zs : List Float, zs.Perm xs → zs.Pairwise (fun x y => x ≤ y) →
    ∃ l u, zs[xs.length / 2 - 1]? = some l ∧ zs[xs.length / 2]? = some u ∧ l ≤ u ∧
      (m = (l + u) / 2 ∨ (m == (l + u) / 2) = true)

theorem median_odd (hodd : xs.length % 2 = 1) : median xs ∈ xs ∧
    xs.countP (fun x => decide (x < median xs)) ≤ (xs.length - 1) / 2 ∧
    xs.countP (fun x => decide (median xs < x)) ≤ (xs.length - 1) / 2 := by
  obtain ⟨upper, h⟩ := exists_isSelected (show xs.length / 2 < xs.length by omega)
  have hlt := h.countP_lt_le
  have hgt := h.countP_gt_le
  rw [median_of_isSelected h, if_pos hodd]
  refine ⟨h.perm.mem_iff.mp (List.mem_of_getElem? h.entry), ?_, ?_⟩
  · omega
  · omega

section

variable (hxs : ∀ x ∈ xs, IsNumber x)

include hxs

/-- The median is half the sum of the two middle values of the sorted column. -/
theorem median_even (hne : xs ≠ []) (heven : xs.length % 2 = 0) : ∃ l u,
    (xs.mergeSort Scalar.totalLe)[xs.length / 2 - 1]? = some l ∧
      (xs.mergeSort Scalar.totalLe)[xs.length / 2]? = some u ∧
      Scalar.totalLe l u = true ∧ median xs = (l + u) / 2 := by
  have hpos := List.length_pos_of_ne_nil hne
  obtain ⟨u, h⟩ := exists_isSelected (show xs.length / 2 < xs.length by omega)
  obtain ⟨k, hk⟩ : ∃ k, xs.length / 2 = k + 1 := Nat.exists_eq_succ_of_ne_zero (by omega)
  have hm := median_of_isSelected h
  rw [if_neg (by omega)] at hm
  rw [hk] at h hm ⊢
  obtain ⟨l, hl, hle, hg⟩ := h.lower hxs
  refine ⟨l, u, hl, h.entry, hle, ?_⟩
  rw [hm, hg]

/-- In another sorted column only zeros can have traded places. -/
theorem median_even_of_sorted (hne : xs ≠ []) (heven : xs.length % 2 = 0) (hp : zs.Perm xs)
    (hs : zs.Pairwise fun x y => x ≤ y) :
    ∃ l u, zs[xs.length / 2 - 1]? = some l ∧ zs[xs.length / 2]? = some u ∧ l ≤ u ∧
      (median xs = (l + u) / 2 ∨ (median xs == (l + u) / 2) = true) := by
  have hpos := List.length_pos_of_ne_nil hne
  have hperm := List.mergeSort_perm xs Scalar.totalLe
  obtain ⟨l, u, hl, hu, hle, hm⟩ := median_even hxs hne heven
  have hlen : xs.length / 2 < zs.length := by
    rw [hp.length_eq]
    omega
  have hplace : ∀ i (hi : i < zs.length) {x}, (xs.mergeSort Scalar.totalLe)[i]? = some x →
      IsNumber zs[i] ∧ IsNumber x ∧ value x = value zs[i] := by
    intro i hi x hx
    have hv := congrArg (fun vs => vs[i]?) (map_value_eq hxs hp hs)
    rw [List.getElem?_map, List.getElem?_map, hx, List.getElem?_eq_getElem hi] at hv
    exact ⟨hxs _ (hp.mem_iff.mp (List.getElem_mem hi)),
      hxs _ (hperm.mem_iff.mp (List.mem_of_getElem? hx)), (Option.some.inj hv).symm⟩
  obtain ⟨hzl, hnl, hvl⟩ := hplace (xs.length / 2 - 1) (by omega) hl
  obtain ⟨hzu, hnu, hvu⟩ := hplace (xs.length / 2) hlen hu
  refine ⟨_, _, List.getElem?_eq_getElem (by omega), List.getElem?_eq_getElem hlen, ?_, ?_⟩
  · rw [Double.le_iff, ← hvl, ← hvu]
    exact ⟨hzl, hzu, Double.value_le_of_totalLe hnl hnu hle⟩
  · rw [hm]
    rcases Double.add_congr_value hnl hzl hnu hzu hvl hvu with he | ⟨h0, h0'⟩
    · exact Or.inl (congrArg (· / 2) he)
    · have hz := half_zeros (isInteger_of_value_zero hnl h0) (isInteger_of_value_zero hnu h0')
      have hz' := half_zeros (isInteger_of_value_zero hzl (hvl ▸ h0))
        (isInteger_of_value_zero hzu (hvu ▸ h0'))
      have hsame : Double.Same ((l + u) / 2)
          ((zs[xs.length / 2 - 1] + zs[xs.length / 2]) / 2) := ⟨hz.finite, hz.eq.trans hz'.eq.symm⟩
      exact Or.inr (hsame.beq hz'.finite)

theorem isMedian_median (hne : xs ≠ []) : IsMedian xs (median xs) where
  odd := median_odd
  even heven := by
    obtain ⟨l, u, hl, hu, hle, hm⟩ := median_even hxs hne heven
    have hmem : ∀ i {x}, (xs.mergeSort Scalar.totalLe)[i]? = some x → x ∈ xs := fun i x hx =>
      (List.mergeSort_perm xs Scalar.totalLe).mem_iff.mp (List.mem_of_getElem? hx)
    refine ⟨l, hmem _ hl, u, hmem _ hu, ?_, hm, ?_⟩
    · exact Double.le_of_totalLe (hxs l (hmem _ hl)) (hxs u (hmem _ hu)) hle
    · intro zs hp hs
      rw [← eq_mergeSort hp hs]
      exact ⟨hl, hu⟩
  sorted heven _ hp hs := median_even_of_sorted hxs hne heven hp hs

end

theorem median_perm (h : ys.Perm xs) : median ys = median xs := by
  have hsort : ys.mergeSort Scalar.totalLe = xs.mergeSort Scalar.totalLe :=
    (eq_mergeSort ((List.mergeSort_perm ys _).trans h)
      (List.pairwise_mergeSort Double.totalLe_trans Double.totalLe_total ys)).symm
  rw [median_eq_medianOf, median_eq_medianOf, hsort]

theorem selects_mergeSort : Selects fun _ xs => xs.mergeSort Scalar.totalLe :=
  fun _ _ hk => exists_isSelected hk

end Column

/-- A segment of four samples with the reference at the third of them. -/
def ResampledSegment.four (w x y z : Float) : ResampledSegment Float :=
  ⟨⟨⟨1 / 2, 0⟩⟩, ⟨3, 2, 7 / 2⟩, #[w, x, y, z]⟩

end Seismic
