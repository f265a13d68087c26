import Seismic.Attribute.Reduce
import Seismic.Proofs.Double.Order
import Seismic.Proofs.Double.Remainder

/-!
# The extremes of a column

A fold that keeps the larger or the smaller of two numbers ends at its start or at one of the
values it went over, and none of them is beyond it.  Least and greatest value start from an
infinity, which is beyond no number, so they are values of the column unless it is empty.
-/

namespace Seismic

/-- The sample of an attribute over a segment. -/
def Attribute.sample {α σ : Type} [Scalar α] [Root α] [Limits α] [Sampled σ α] (a : Attribute)
    (s : ResampledSegment α) : Result α σ :=
  return Sampled.narrow (← a.reduce s)

namespace Column

open Float.Model.UnpackedFloat (Sign)
open Double (IsNumber IsFinite value toReal)

/-! ## Folds that keep one of two numbers -/

/-- Of two numbers `pick` keeps one that the other is not beyond. -/
structure Keeps (pick : Float → Float → Float) (Below : Float → Float → Prop) : Prop where
  refl : ∀ x, Below x x
  trans : ∀ {x y z}, Below x y → Below y z → Below x z
  choice : ∀ {x y}, IsNumber x → IsNumber y → pick x y = x ∨ pick x y = y
  left : ∀ {x y}, IsNumber x → IsNumber y → Below x (pick x y)
  right : ∀ {x y}, IsNumber x → IsNumber y → Below y (pick x y)

theorem keeps_max : Keeps Scalar.max fun x y => value x ≤ value y where
  refl _ := le_rfl
  trans := le_trans
  choice := Double.max_choice
  left hx hy := (le_max_left _ _).trans_eq (Double.value_max hx hy).symm
  right hx hy := (le_max_right _ _).trans_eq (Double.value_max hx hy).symm

theorem keeps_min : Keeps Scalar.min fun x y => value y ≤ value x where
  refl _ := le_rfl
  trans h h' := le_trans h' h
  choice := Double.min_choice
  left hx hy := (Double.value_min hx hy).trans_le (min_le_left _ _)
  right hx hy := (Double.value_min hx hy).trans_le (min_le_right _ _)

/-- The number is in the list, and no number of the list is beyond it. -/
structure IsExtreme (Below : Float → Float → Prop) (m : Float) (xs : List Float) : Prop where
  mem : m ∈ xs
  below : ∀ x ∈ xs, Below x m

variable {pick : Float → Float → Float} {Below : Float → Float → Prop} {xs : List Float}
  {start : Float}

theorem Keeps.foldl (h : Keeps pick Below) (hs : IsNumber start) (hxs : ∀ x ∈ xs, IsNumber x) :
    IsExtreme Below (xs.foldl pick start) (start :: xs) := by
  induction xs generalizing start with
  | nil =>
    refine ⟨List.mem_cons_self, ?_⟩
    intro x hx
    rw [List.mem_singleton.mp hx]
    exact h.refl start
  | cons y ys ih =>
    have hy : IsNumber y := hxs y List.mem_cons_self
    have hkept : IsNumber (pick start y) := by
      rcases h.choice hs hy with he | he <;> rw [he]
      · exact hs
      · exact hy
    have hrest := ih hkept (fun x hx => hxs x (List.mem_cons_of_mem y hx))
    have hlast := hrest.below (pick start y) List.mem_cons_self
    rw [List.foldl_cons]
    refine ⟨?_, ?_⟩
    · rcases List.mem_cons.mp hrest.mem with hm | hm
      · rw [hm]
        rcases h.choice hs hy with he | he <;> rw [he]
        · exact List.mem_cons_self
        · exact List.mem_cons_of_mem start List.mem_cons_self
      · exact List.mem_cons_of_mem start (List.mem_cons_of_mem y hm)
    · intro x hx
      rcases List.mem_cons.mp hx with rfl | hx
      · exact h.trans (h.left hs hy) hlast
      · rcases List.mem_cons.mp hx with rfl | hx
        · exact h.trans (h.right hs hy) hlast
        · exact hrest.below x (List.mem_cons_of_mem _ hx)

/-- A start that only itself is not beyond leaves no trace in a list that has values. -/
theorem Keeps.foldl_of_least (h : Keeps pick Below) (hs : IsNumber start)
    (hstart : ∀ x, IsNumber x → Below x start → x = start) (hne : xs ≠ [])
    (hxs : ∀ x ∈ xs, IsNumber x) : IsExtreme Below (xs.foldl pick start) xs := by
  have hall := h.foldl hs hxs
  refine ⟨?_, fun x hx => hall.below x (List.mem_cons_of_mem start hx)⟩
  rcases List.mem_cons.mp hall.mem with hm | hm
  · obtain ⟨x, hx⟩ := List.exists_mem_of_ne_nil xs hne
    have hb := hall.below x (List.mem_cons_of_mem start hx)
    rw [hm] at hb ⊢
    rw [← hstart x (hxs x hx) hb]
    exact hx
  · exact hm

/-! ## Least and greatest value -/

theorem infinity_isNumber (s : Sign) : IsNumber (Double.infinity s) ∧
    value (Double.infinity s) = Binary.value (.infinity s) := by
  have hu : (Double.infinity s).toModel.unpack = .infinity s := Binary.unpack_pack_infinity s
  refine ⟨?_, congrArg Binary.value hu⟩
  rw [IsNumber, hu]
  exact Float.Model.UnpackedFloat.noConfusion

theorem eq_infinity_of_le {x : Float} (hx : IsNumber x)
    (h : value x ≤ value (Double.infinity .negative)) : x = Double.infinity .negative := by
  rw [(infinity_isNumber .negative).2] at h
  exact Double.eq_of_unpack_number hx ((Double.unpack_of_value_bot hx (le_bot_iff.mp h)).trans
    (Binary.unpack_pack_infinity .negative).symm)

theorem eq_infinity_of_ge {x : Float} (hx : IsNumber x)
    (h : value (Double.infinity .positive) ≤ value x) : x = Double.infinity .positive := by
  rw [(infinity_isNumber .positive).2] at h
  exact Double.eq_of_unpack_number hx ((Double.unpack_of_value_top hx (top_le_iff.mp h)).trans
    (Binary.unpack_pack_infinity .positive).symm)

theorem greatest_isExtreme (hne : xs ≠ []) (hxs : ∀ x ∈ xs, IsNumber x) :
    IsExtreme (fun x y => value x ≤ value y) (greatest xs) xs :=
  keeps_max.foldl_of_least (infinity_isNumber .negative).1 (fun _ => eq_infinity_of_le) hne hxs

theorem least_isExtreme (hne : xs ≠ []) (hxs : ∀ x ∈ xs, IsNumber x) :
    IsExtreme (fun x y => value y ≤ value x) (least xs) xs :=
  keeps_min.foldl_of_least (infinity_isNumber .positive).1 (fun _ => eq_infinity_of_ge) hne hxs

/-! ## The greatest absolute value -/

theorem greatestAbs_eq_foldl (xs : List Float) :
    greatestAbs xs = (xs.map Scalar.abs).foldl Scalar.max (Float.ofInt 0) :=
  List.foldl_map.symm

/-- One of the two extremes has the greatest absolute value. -/
theorem greatestAbs_finite (hne : xs ≠ []) (hxs : ∀ x ∈ xs, IsFinite x) :
    IsFinite (greatestAbs xs) ∧
      toReal (greatestAbs xs) = max |toReal (least xs)| |toReal (greatest xs)| := by
  obtain ⟨hz, hzv⟩ := Double.ofInt_zero
  have hleast := least_isExtreme hne (fun x hx => (hxs x hx).isNumber)
  have hgreatest := greatest_isExtreme hne (fun x hx => (hxs x hx).isNumber)
  have habs : ∀ y ∈ Float.ofInt 0 :: xs.map Scalar.abs, IsFinite y := by
    intro y hy
    rcases List.mem_cons.mp hy with rfl | hy
    · exact hz
    · obtain ⟨x, hx, rfl⟩ := List.mem_map.mp hy
      exact (Double.abs_finite (hxs x hx)).1
  have hfold := keeps_max.foldl hz.isNumber
    (fun y hy => (habs y (List.mem_cons_of_mem _ hy)).isNumber)
  rw [← greatestAbs_eq_foldl] at hfold
  have hf : IsFinite (greatestAbs xs) := habs _ hfold.mem
  have hbound : ∀ x ∈ xs, |toReal x| ≤ toReal (greatestAbs xs) := by
    intro x hx
    obtain ⟨ha, hav⟩ := Double.abs_finite (hxs x hx)
    have hle := hfold.below x.abs (List.mem_cons_of_mem _ (List.mem_map_of_mem hx))
    rw [Double.value_of_isFinite ha, Double.value_of_isFinite hf, hav] at hle
    exact EReal.coe_le_coe_iff.mp hle
  refine ⟨hf, le_antisymm ?_ (max_le (hbound _ hleast.mem) (hbound _ hgreatest.mem))⟩
  rcases List.mem_cons.mp hfold.mem with h0 | hm
  · rw [h0, hzv]
    exact le_max_of_le_left (abs_nonneg _)
  · obtain ⟨x, hx, hxe⟩ := List.mem_map.mp hm
    have hlo := hleast.below x hx
    have hhi := hgreatest.below x hx
    rw [Double.value_of_isFinite (hxs _ hleast.mem), Double.value_of_isFinite (hxs x hx),
      EReal.coe_le_coe_iff] at hlo
    rw [Double.value_of_isFinite (hxs _ hgreatest.mem), Double.value_of_isFinite (hxs x hx),
      EReal.coe_le_coe_iff] at hhi
    rw [← hxe]
    show toReal x.abs ≤ _
    rw [(Double.abs_finite (hxs x hx)).2]
    exact abs_le_max_abs_abs hlo hhi

end Column
end Seismic
