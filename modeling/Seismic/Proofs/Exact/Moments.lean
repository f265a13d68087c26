import Mathlib.Algebra.BigOperators.Ring.List
import Mathlib.Analysis.Real.Sqrt
import Mathlib.Tactic.FieldSimp
import Seismic.Attribute.Reduce
import Seismic.Proofs.Exact.Scalar

/-!
# Moments of a column in exact arithmetic

Every sum over a column is a pass of its own: over all values, over their magnitudes, over those of
one sign, over the squares, and over the squared distances from a mean that was found before.  Where
nothing is rounded they determine one another.  The values of both signs make up the column, since a
zero adds nothing, and the variance is the mean square less the square of the mean.
-/

namespace Seismic

/-- The segment with every value replaced. -/
def ResampledSegment.map {α : Type} (f : α → α) (c : ResampledSegment α) : ResampledSegment α :=
  { c with values := c.values.map f }

namespace Exact

variable {K : Type} [Field K] [LinearOrder K] [FloorRing K]

/-! ## Sums and means -/

theorem foldl_add_val (xs : List (Exact K)) (s : Exact K) :
    (xs.foldl (· + ·) s).val = s.val + (xs.map val).sum := by
  induction xs generalizing s with
  | nil => simp
  | cons x xs ih => rw [List.foldl_cons, ih, add_val, List.map_cons, List.sum_cons, add_assoc]

theorem sum_val (xs : List (Exact K)) : (Column.sum xs).val = (xs.map val).sum := by
  rw [Column.sum, foldl_add_val, zero_val, zero_add]

/-- The mean of no values is zero, as is the quotient of zero by zero. -/
theorem mean_val (xs : List (Exact K)) :
    (Column.mean xs).val = (xs.map val).sum / (xs.length : K) := by
  cases xs with
  | nil => simp [Column.mean]
  | cons x xs =>
    show (Column.sum (x :: xs) / Scalar.ofNat (x :: xs).length).val = _
    rw [div_val, sum_val, ofNat_val]

/-- So a mean counts for as much as its values, also if there are none. -/
theorem length_mul_mean [CharZero K] (xs : List (Exact K)) :
    (xs.length : K) * (Column.mean xs).val = (xs.map val).sum := by
  rw [mean_val]
  cases xs with
  | nil => simp
  | cons x xs => exact mul_div_cancel₀ _ (Nat.cast_ne_zero.mpr (Nat.succ_ne_zero _))

/-! ## Values of one sign -/

section Signs

variable {f : K → K} {x : Exact K} {xs : List (Exact K)}

theorem positive_cons : Column.positive (x :: xs) =
    if 0 < x.val then x :: Column.positive xs else Column.positive xs := by
  simp [Column.positive, List.filter_cons, lt_iff]

theorem negative_cons : Column.negative (x :: xs) =
    if x.val < 0 then x :: Column.negative xs else Column.negative xs := by
  simp [Column.negative, List.filter_cons, lt_iff]

/-- A sum over the values is one over those of each sign, if zeros count for nothing. -/
theorem sum_by_sign (h0 : f 0 = 0) (xs : List (Exact K)) :
    (xs.map fun x => f x.val).sum = ((Column.positive xs).map fun x => f x.val).sum +
      ((Column.negative xs).map fun x => f x.val).sum := by
  induction xs with
  | nil => simp [Column.positive, Column.negative]
  | cons x xs ih =>
    rw [positive_cons, negative_cons, List.map_cons, List.sum_cons, ih]
    rcases lt_trichotomy x.val 0 with h | h | h
    · rw [if_neg h.not_gt, if_pos h, List.map_cons, List.sum_cons]
      exact add_left_comm _ _ _
    · rw [if_neg h.not_gt, if_neg h.not_lt, h, h0, zero_add]
    · rw [if_pos h, if_neg h.not_gt, List.map_cons, List.sum_cons]
      exact (add_assoc _ _ _).symm

theorem sum_positive_add_sum_negative (xs : List (Exact K)) :
    (Column.sum (Column.positive xs)).val + (Column.sum (Column.negative xs)).val =
      (xs.map val).sum := by
  rw [sum_val, sum_val]
  exact (sum_by_sign (f := id) rfl xs).symm

theorem sum_positive_sub_sum_negative [IsStrictOrderedRing K] (xs : List (Exact K)) :
    (Column.sum (Column.positive xs)).val - (Column.sum (Column.negative xs)).val =
      ((xs.map Scalar.abs).map val).sum := by
  have hpositive : (Column.positive xs).map (fun x => |x.val|) = (Column.positive xs).map val :=
    List.map_congr_left fun x hx => abs_of_pos (by simpa [lt_iff] using (List.mem_filter.mp hx).2)
  have hnegative : (Column.negative xs).map (fun x => |x.val|) =
      ((Column.negative xs).map val).map fun y => -y := by
    rw [List.map_map]
    exact List.map_congr_left fun x hx =>
      abs_of_neg (by simpa [lt_iff] using (List.mem_filter.mp hx).2)
  have hsplit := sum_by_sign (f := fun y : K => |y|) abs_zero xs
  rw [hpositive, hnegative, ← List.sum_neg] at hsplit
  rw [sum_val, sum_val, List.map_map, sub_eq_add_neg]
  exact hsplit.symm

end Signs

/-! ## The variance -/

theorem power_val (xs : List (Exact K)) :
    (Column.power xs).val = (xs.map fun x => x.val ^ 2).sum / (xs.length : K) := by
  rw [Column.power, mean_val, List.length_map, List.map_map]
  simp only [Function.comp_def, Column.square, mul_val, sq]

theorem variance_val (xs : List (Exact K)) : (Column.variance xs).val =
    (xs.map fun x => (x.val - (Column.mean xs).val) ^ 2).sum / (xs.length : K) := by
  rw [Column.variance, mean_val, List.length_map, List.map_map]
  simp only [Function.comp_def, Column.square, mul_val, sub_val, sq]

omit [LinearOrder K] [FloorRing K] in
/-- The squared distances from any number, by the sums of the values and of their squares. -/
theorem sum_sq_sub (xs : List (Exact K)) (m : K) : (xs.map fun x => (x.val - m) ^ 2).sum =
    (xs.map fun x => x.val ^ 2).sum - (m + m) * (xs.map val).sum + xs.length * m ^ 2 := by
  induction xs with
  | nil => simp
  | cons x xs ih =>
    simp only [List.map_cons, List.sum_cons, List.length_cons, ih]
    push_cast
    ring

theorem variance_eq [CharZero K] (xs : List (Exact K)) :
    (Column.variance xs).val = (Column.power xs).val - (Column.mean xs).val ^ 2 := by
  have hmean := length_mul_mean xs
  rw [variance_val, sum_sq_sub, power_val, ← hmean]
  cases xs with
  | nil => simp [Column.mean]
  | cons x xs =>
    have hn : ((x :: xs).length : K) ≠ 0 := Nat.cast_ne_zero.mpr (Nat.succ_ne_zero _)
    field_simp
    ring

section Affine

variable {f : Exact K → Exact K} {a b : K}

omit [LinearOrder K] [FloorRing K] in
theorem sum_map_affine (hf : ∀ x, (f x).val = a * x.val + b) (xs : List (Exact K)) :
    ((xs.map f).map val).sum = a * (xs.map val).sum + xs.length * b := by
  induction xs with
  | nil => simp
  | cons x xs ih =>
    simp only [List.map_cons, List.sum_cons, List.length_cons, ih, hf]
    push_cast
    ring

theorem mean_map_affine [CharZero K] (hf : ∀ x, (f x).val = a * x.val + b) {xs : List (Exact K)}
    (hne : xs ≠ []) : (Column.mean (xs.map f)).val = a * (Column.mean xs).val + b := by
  have hn : (xs.length : K) ≠ 0 := Nat.cast_ne_zero.mpr (mt List.length_eq_zero_iff.mp hne)
  rw [mean_val, mean_val, List.length_map, sum_map_affine hf]
  field_simp

/-- The values keep their distances from the mean if all are moved, and all distances change by
one factor if the values do. -/
theorem variance_map_affine [CharZero K] (hf : ∀ x, (f x).val = a * x.val + b)
    (xs : List (Exact K)) :
    (Column.variance (xs.map f)).val = a ^ 2 * (Column.variance xs).val := by
  cases xs with
  | nil => simp [Column.variance, Column.mean]
  | cons x xs =>
    have hmean := mean_map_affine hf (List.cons_ne_nil x xs)
    have hsquare (y : Exact K) : ((f y).val - (a * (Column.mean (x :: xs)).val + b)) ^ 2 =
        a ^ 2 * (y.val - (Column.mean (x :: xs)).val) ^ 2 := by
      rw [hf]
      ring
    rw [variance_val, variance_val, hmean, List.length_map, List.map_map, ← mul_div_assoc,
      ← List.sum_map_mul_left]
    simp only [Function.comp_def, hsquare]

end Affine

/-! ## Attributes -/

/-- Real numbers have square roots. -/
noncomputable instance realRoot : Root (Exact ℝ) := ⟨fun x => ⟨√x.val⟩⟩

theorem power_nonneg (xs : List (Exact ℝ)) : 0 ≤ (Column.power xs).val := by
  rw [power_val]
  exact div_nonneg (List.sum_nonneg (by simp [sq_nonneg])) (Nat.cast_nonneg _)

theorem variance_nonneg (xs : List (Exact ℝ)) : 0 ≤ (Column.variance xs).val := by
  rw [variance_val]
  exact div_nonneg (List.sum_nonneg (by simp [sq_nonneg])) (Nat.cast_nonneg _)

/-- The sums and means over a column of real numbers, one in terms of another.  A column without
values has zero for all of them. -/
theorem moments_of_column [Limits (Exact ℝ)] (c : ResampledSegment (Exact ℝ)) :
    ∃ mean meanAbs rms var sd sumPos sumNeg : ℝ,
      (Attribute.mean.reduce c = .ok ⟨mean⟩ ∧ Attribute.meanAbs.reduce c = .ok ⟨meanAbs⟩ ∧
        Attribute.rms.reduce c = .ok ⟨rms⟩ ∧ Attribute.var.reduce c = .ok ⟨var⟩ ∧
        Attribute.sd.reduce c = .ok ⟨sd⟩ ∧ Attribute.sumPos.reduce c = .ok ⟨sumPos⟩ ∧
        Attribute.sumNeg.reduce c = .ok ⟨sumNeg⟩) ∧
      c.values.size * mean = (c.values.toList.map val).sum ∧
      c.values.size * meanAbs = (c.values.toList.map fun x => |x.val|).sum ∧
      c.values.size * mean = sumPos + sumNeg ∧
      c.values.size * meanAbs = sumPos - sumNeg ∧
      var = (c.values.toList.map fun x => (x.val - mean) ^ 2).sum / c.values.size ∧
      var = rms ^ 2 - mean ^ 2 ∧
      (∀ k, Attribute.var.reduce (c.map (· + k)) = .ok ⟨var⟩) ∧
      (∀ k, Attribute.var.reduce (c.map (k * ·)) = .ok ⟨k.val ^ 2 * var⟩) ∧
      sd ^ 2 = var := by
  have hlength : (c.values.size : ℝ) = c.values.toList.length := by rw [Array.length_toList]
  have hmean := length_mul_mean c.values.toList
  have habs := length_mul_mean (c.values.toList.map Scalar.abs)
  rw [List.length_map] at habs
  have hrms : √(Column.power c.values.toList).val ^ 2 = (Column.power c.values.toList).val :=
    Real.sq_sqrt (power_nonneg _)
  refine ⟨(Column.mean c.values.toList).val, (Column.mean (c.values.toList.map Scalar.abs)).val,
    √(Column.power c.values.toList).val, (Column.variance c.values.toList).val,
    √(Column.variance c.values.toList).val, (Column.sum (Column.positive c.values.toList)).val,
    (Column.sum (Column.negative c.values.toList)).val, ⟨rfl, rfl, rfl, rfl, rfl, rfl, rfl⟩, ?_, ?_,
    ?_, ?_, ?_, ?_, fun k => ?_, fun k => ?_, Real.sq_sqrt (variance_nonneg _)⟩
  · rw [hlength, hmean]
  · rw [hlength, habs, List.map_map]
    rfl
  · rw [hlength, hmean, sum_positive_add_sum_negative]
  · rw [hlength, habs, sum_positive_sub_sum_negative]
  · rw [hlength, variance_val]
  · rw [hrms, variance_eq]
  · show Except.ok (Column.variance (c.values.map (· + k)).toList) = _
    rw [Array.toList_map]
    refine congrArg Except.ok (Exact.ext ?_)
    rw [variance_map_affine (a := 1) (b := k.val) (fun x => by rw [add_val, one_mul]), one_pow,
      one_mul]
  · show Except.ok (Column.variance (c.values.map (k * ·)).toList) = _
    rw [Array.toList_map]
    refine congrArg Except.ok (Exact.ext ?_)
    rw [variance_map_affine (a := k.val) (b := 0) (fun x => by rw [mul_val, add_zero])]

end Exact
end Seismic
