import Seismic.Proofs.Exact.Spline
import Seismic.Proofs.Slopes

/-!
# Splines through steps

The values at the nodes are on one level up to a step, and on another one from there on.  All
slopes are flat but that of the step.  On the interval of the step the derivatives at both ends
lie between zero and three times its slope, and the spline stays between the levels.  On any
other interval both derivatives vanish if a slope beside it is flat as well.

The slopes beyond the ends continue the last two.  So where a single flat interval is left
between the step and an end, the slope beyond it is that of a step in the other direction.
The interval has no flat slope beside it, and the spline leaves the levels there.
-/

namespace Seismic

namespace Spline

/-! ## Slopes beyond the ends -/

variable {α : Type} [Scalar α] {x y : Array α} {k : ℕ}

theorem slope_before (h3 : 2 < x.size) :
    slope x y 1 = extend (slope x y 2) (slope x y 3) := by
  have h := (continued_slope (y := y) h3.le).before
  rwa [Nat.min_eq_left h3] at h

theorem slope_after (hn : x.size = k + 3) :
    slope x y (k + 4) = extend (slope x y (k + 3)) (slope x y (k + 2)) := by
  have h := (continued_slope (x := x) (y := y) (by omega)).after
  rwa [hn, show max 2 (k + 3 - 1) = k + 2 by omega] at h

theorem slope_of_two (hn : x.size = 2) : slope x y 1 = extend (slope x y 2) (slope x y 2) ∧
    slope x y 3 = extend (slope x y 2) (slope x y 2) := by
  have h := continued_slope (x := x) (y := y) hn.ge
  rw [hn] at h
  exact ⟨h.before, h.after⟩

end Spline

namespace Exact

open Spline

/-- Values at `n` nodes: `c` at those before node `j`, and `d` from there on. -/
def stepValues {K : Type} (n j : ℕ) (c d : Exact K) : Array (Exact K) :=
  Array.ofFn fun i : Fin n => if i.val < j then c else d

theorem stepValues_self {K : Type} (n j : ℕ) (c : Exact K) :
    stepValues n j c c = stepValues n 0 c c := by
  unfold stepValues
  simp only [ite_self]

/-- Whether no single interval is left between a step at node `j` of `n` and an end. -/
def Apart (n j : ℕ) : Prop := j = 0 ∨ j = n ∨ j ≠ 2 ∧ j + 2 ≠ n

variable {K : Type} [Field K] [LinearOrder K] [FloorRing K]
variable {x y : Array (Exact K)} {c d p : Exact K} {i j k n : ℕ}

theorem getD_stepValues (hi : i < n) :
    (stepValues n j c d).getD i 0 = if i < j then c else d := by
  unfold stepValues
  rw [Array.getD_eq_getD_getElem?, Array.getElem?_ofFn, dif_pos hi, Option.getD_some]

/-- The slope of the interval that ends at node `j`, where the values there differ as levels. -/
def slopeTo (x : Array (Exact K)) (j : ℕ) (c d : Exact K) : K :=
  (d.val - c.val) / ((x.getD j 0).val - (x.getD (j - 1) 0).val)

/-! ## Slopes of a step -/

/-- The slope of an interval is flat unless the step is there. -/
theorem slope_step (hk : k + 1 < x.size) :
    (slope x (stepValues x.size j c d) (k + 2)).val = if k + 1 = j then slopeTo x j c d else 0 := by
  rw [slope_inner hk, secant, div_val, sub_val, sub_val, getD_stepValues hk,
    getD_stepValues (Nat.lt_of_succ_lt hk)]
  by_cases hj : k + 1 = j
  · rw [if_neg (by omega), if_pos (by omega), if_pos hj, slopeTo, ← hj, Nat.add_sub_cancel]
  · rw [if_neg hj]
    rcases Nat.lt_or_ge (k + 1) j with hlt | hge
    · rw [if_pos hlt, if_pos (by omega), sub_self, zero_div]
    · rw [if_neg (by omega), if_neg (by omega), sub_self, zero_div]

theorem slope_eq_slopeTo (hj : k + 1 = j) (hk : j < x.size) :
    (slope x (stepValues x.size j c d) (k + 2)).val = slopeTo x j c d := by
  rw [slope_step (by omega), if_pos hj]

theorem slope_eq_zero (hj : k + 1 ≠ j) (hk : k + 1 < x.size) :
    (slope x (stepValues x.size j c d) (k + 2)).val = 0 := by
  rw [slope_step hk, if_neg hj]

/-- Beside a flat interval there is a flat slope. -/
theorem slope_beside_flat (h : Apart x.size j) (hj : k + 1 ≠ j) (hk : k + 1 < x.size) :
    (slope x (stepValues x.size j c d) (k + 1)).val = 0 ∨
      (slope x (stepValues x.size j c d) (k + 3)).val = 0 := by
  unfold Apart at h
  rcases Nat.eq_zero_or_pos k with rfl | hpos
  · rcases Nat.lt_or_ge 2 x.size with h3 | h2
    · exact Or.inr (slope_eq_zero (k := 1) (by omega) h3)
    · left
      rw [(slope_of_two (by omega)).1, extend_val, slope_eq_zero hj hk]
      ring
  · obtain ⟨k, rfl⟩ := Nat.exists_eq_succ_of_ne_zero hpos.ne'
    by_cases hbefore : k + 1 = j
    · exact Or.inr (slope_eq_zero (k := k + 2) (by omega) (by omega))
    · exact Or.inl (slope_eq_zero hbefore (by omega))

variable [IsStrictOrderedRing K]

/-- Beside the step the slopes are flat, or they continue that of the step. -/
theorem slope_beside_step (hj : k + 1 = j) (hk : j < x.size) :
    (∃ u : K, 0 ≤ u ∧ u ≤ 3 ∧
      (slope x (stepValues x.size j c d) (k + 1)).val = u * slopeTo x j c d) ∧
    ∃ u : K, 0 ≤ u ∧ u ≤ 3 ∧
      (slope x (stepValues x.size j c d) (k + 3)).val = u * slopeTo x j c d := by
  have hstep := slope_eq_slopeTo (c := c) (d := d) hj hk
  constructor
  · rcases Nat.eq_zero_or_pos k with rfl | hpos
    · rcases Nat.lt_or_ge 2 x.size with h3 | h2
      · refine ⟨2, by norm_num, by norm_num, ?_⟩
        rw [slope_before h3, extend_val, hstep, slope_eq_zero (k := 1) (by omega) h3, sub_zero]
      · refine ⟨1, by norm_num, by norm_num, ?_⟩
        rw [(slope_of_two (by omega)).1, extend_val, hstep]
        ring
    · obtain ⟨k, rfl⟩ := Nat.exists_eq_succ_of_ne_zero hpos.ne'
      refine ⟨0, le_rfl, by norm_num, ?_⟩
      rw [slope_eq_zero (k := k) (by omega) (by omega), zero_mul]
  · rcases Nat.lt_or_ge (k + 2) x.size with hlt | hge
    · refine ⟨0, le_rfl, by norm_num, ?_⟩
      rw [slope_eq_zero (k := k + 1) (by omega) (by omega), zero_mul]
    · rcases Nat.eq_zero_or_pos k with rfl | hpos
      · refine ⟨1, by norm_num, by norm_num, ?_⟩
        rw [(slope_of_two (by omega)).2, extend_val, hstep]
        ring
      · obtain ⟨k, rfl⟩ := Nat.exists_eq_succ_of_ne_zero hpos.ne'
        refine ⟨2, by norm_num, by norm_num, ?_⟩
        rw [slope_after (k := k) (by omega), extend_val, hstep,
          slope_eq_zero (k := k) (by omega) (by omega), sub_zero]

/-! ## Derivatives beside flat intervals and beside the step -/

theorem derivative_flat (h : Apart x.size j) (hj : k + 1 ≠ j) (hk : k + 1 < x.size) :
    (derivative x (stepValues x.size j c d) k).val = 0 ∧
      (derivative x (stepValues x.size j c d) (k + 1)).val = 0 := by
  have hflat := slope_eq_zero (c := c) (d := d) hj hk
  rw [derivative_val, derivative_val]
  rcases slope_beside_flat h hj hk with hbefore | hafter
  · exact ⟨blendOf_eq_zero (Or.inl ⟨hbefore, hflat⟩),
      blendOf_eq_zero (Or.inr (Or.inl ⟨hbefore, hflat⟩))⟩
  · exact ⟨blendOf_eq_zero (Or.inr (Or.inr ⟨hflat, hafter⟩)),
      blendOf_eq_zero (Or.inl ⟨hflat, hafter⟩)⟩

theorem derivative_step (hj : k + 1 = j) (hk : j < x.size) :
    (∃ u : K, 0 ≤ u ∧ u ≤ 3 ∧
      (derivative x (stepValues x.size j c d) k).val = u * slopeTo x j c d) ∧
    ∃ v : K, 0 ≤ v ∧ v ≤ 3 ∧
      (derivative x (stepValues x.size j c d) (k + 1)).val = v * slopeTo x j c d := by
  have hstep : (slope x (stepValues x.size j c d) (k + 2)).val = 1 * slopeTo x j c d := by
    rw [slope_eq_slopeTo hj hk, one_mul]
  have hone : (0 : K) ≤ 1 ∧ (1 : K) ≤ 3 := by norm_num
  obtain ⟨⟨u, hu, hu', hbefore⟩, v, hv, hv', hafter⟩ :=
    slope_beside_step (c := c) (d := d) hj hk
  rw [derivative_val, derivative_val]
  exact ⟨blendOf_multiple hbefore hstep le_rfl (by norm_num) ⟨hu, hu'⟩ hone,
    blendOf_multiple hstep hafter le_rfl (by norm_num) hone ⟨hv, hv'⟩⟩

/-! ## Between the levels -/

/-- On every interval the spline goes from one of its values to the other. -/
theorem cubic_step_mem (hinc : increasing x.toList = true) (h : Apart x.size j)
    (hk : k + 1 < x.size) {t : Exact K} (ht : 0 ≤ t.val ∧ t.val ≤ 1) :
    ∃ r, 0 ≤ r ∧ r ≤ 1 ∧ (cubic (x.getD (k + 1) 0 - x.getD k 0) t
      ((stepValues x.size j c d).getD k 0) ((stepValues x.size j c d).getD (k + 1) 0)
      (derivative x (stepValues x.size j c d) k)
      (derivative x (stepValues x.size j c d) (k + 1))).val =
        ((stepValues x.size j c d).getD k 0).val + (((stepValues x.size j c d).getD (k + 1) 0).val -
          ((stepValues x.size j c d).getD k 0).val) * r := by
  have hlt := getD_lt hinc (Nat.lt_succ_self k) hk
  by_cases hj : k + 1 = j
  · obtain ⟨⟨u, hu, hu', hd⟩, v, hv, hv', hd'⟩ :=
      derivative_step (c := c) (d := d) hj (by omega : j < x.size)
    -- the slope of the step, multiplied by the length of its interval
    have hmul : ((x.getD (k + 1) 0).val - (x.getD k 0).val) * slopeTo x j c d = d.val - c.val := by
      rw [slopeTo, ← hj, Nat.add_sub_cancel, mul_div_cancel₀ _ (sub_ne_zero.mpr hlt.ne')]
    refine cubic_mem ht ?_ ?_ ⟨hu, hu'⟩ ⟨hv, hv'⟩
    · rw [hd, sub_val, getD_stepValues hk, getD_stepValues (by omega), if_neg (by omega),
        if_pos (by omega), ← hmul]
      ring
    · rw [hd', sub_val, getD_stepValues hk, getD_stepValues (by omega), if_neg (by omega),
        if_pos (by omega), ← hmul]
      ring
  · obtain ⟨hd, hd'⟩ := derivative_flat (c := c) (d := d) h hj hk
    refine cubic_mem ht ?_ ?_ (u := 0) (v := 0) (by norm_num) (by norm_num)
    · rw [hd, mul_zero, zero_mul]
    · rw [hd', mul_zero, zero_mul]

theorem stepValues_between {r : K} (hi : i < n) (hk : k < n) (h₀ : 0 ≤ r) (h₁ : r ≤ 1) :
    min c.val d.val ≤ ((stepValues n j c d).getD i 0).val +
      (((stepValues n j c d).getD k 0).val - ((stepValues n j c d).getD i 0).val) * r ∧
    ((stepValues n j c d).getD i 0).val +
      (((stepValues n j c d).getD k 0).val - ((stepValues n j c d).getD i 0).val) * r ≤
        max c.val d.val := by
  have hlevel : ∀ i < n, min c.val d.val ≤ ((stepValues n j c d).getD i 0).val ∧
      ((stepValues n j c d).getD i 0).val ≤ max c.val d.val := fun i hi => by
    rw [getD_stepValues hi]
    split_ifs
    · exact ⟨min_le_left _ _, le_max_left _ _⟩
    · exact ⟨min_le_right _ _, le_max_right _ _⟩
  obtain ⟨hlow, hhigh⟩ := hlevel i hi
  obtain ⟨hlow', hhigh'⟩ := hlevel k hk
  constructor <;> nlinarith

/-- Where a step is apart from the ends, the spline stays between the levels. -/
theorem eval_step_mem (s : Spline (Exact K)) (h2 : 2 ≤ x.size) (hinc : increasing x.toList = true)
    (h : Apart x.size j) (h₁ : x.getD 0 0 ≤ p) (h₂ : p ≤ x.getD (x.size - 1) 0) :
    ∃ v, (s.fit x (stepValues x.size j c d)).2.eval p = .ok v ∧
      min c.val d.val ≤ v.val ∧ v.val ≤ max c.val d.val := by
  have haccepts : Accepts (x, stepValues x.size j c d) := ⟨Array.size_ofFn.symm, h2, hinc⟩
  have hk := interval_add_one_lt p h2
  obtain ⟨hlow, hhigh⟩ := interval_mem h2 hinc h₁ h₂
  have hlt := sub_pos.mpr (getD_lt hinc (Nat.lt_succ_self (interval x p)) hk)
  refine ⟨_, eval_fit s haccepts h₁ h₂, ?_⟩
  obtain ⟨r, h₀, h₁, heq⟩ := cubic_step_mem (c := c) (d := d) hinc h hk
    (t := (p - x.getD (interval x p) 0) / (x.getD (interval x p + 1) 0 - x.getD (interval x p) 0))
    ⟨div_nonneg (sub_nonneg.mpr hlow) hlt.le,
      (div_le_one hlt).mpr (sub_le_sub_right hhigh _)⟩
  rw [piece, heq]
  exact stepValues_between (Nat.lt_of_succ_lt hk) hk h₀ h₁

/-! ## Beyond the levels -/

/-- In the middle of an interval between equal values, only the derivatives count. -/
theorem eval_middle (s : Spline (Exact K)) (h : Accepts (x, y)) (hk : k + 1 < x.size)
    (hy : y.getD (k + 1) 0 = y.getD k 0) : ∃ p v, x.getD 0 0 ≤ p ∧ p ≤ x.getD (x.size - 1) 0 ∧
      (s.fit x y).2.eval p = .ok v ∧ v.val = (y.getD k 0).val +
        ((x.getD (k + 1) 0).val - (x.getD k 0).val) / 8 *
          ((derivative x y k).val - (derivative x y (k + 1)).val) := by
  have hinc := h.in_order
  have hlt := getD_lt hinc (Nat.lt_succ_self k) hk
  set middle : Exact K := ⟨((x.getD k 0).val + (x.getD (k + 1) 0).val) / 2⟩ with hmiddle
  have hlow : (x.getD k 0).val < middle.val := left_lt_add_div_two.mpr hlt
  have hhigh : middle.val < (x.getD (k + 1) 0).val := add_div_two_lt_right.mpr hlt
  refine ⟨middle, _, node_le hinc (Nat.zero_le k) (Nat.lt_of_succ_lt hk) hlow.le,
    le_node hinc (show k + 1 ≤ x.size - 1 by omega) (by omega) hhigh.le,
    eval_of_mem s h hk hlow.le hhigh.le, ?_⟩
  have hhalf : ((middle - x.getD k 0) / (x.getD (k + 1) 0 - x.getD k 0)).val = 1 / 2 := by
    rw [div_val, sub_val, sub_val, div_eq_div_iff (sub_ne_zero.mpr hlt.ne') two_ne_zero, hmiddle]
    ring
  rw [piece, cubic_val, hhalf, hy, sub_val]
  ring

omit [IsStrictOrderedRing K] in
theorem slopeTo_ne_zero (hinc : increasing x.toList = true) (hj : k + 1 = j) (hk : j < x.size)
    (hcd : c ≠ d) : slopeTo x j c d ≠ 0 := by
  have hlt := getD_lt hinc (Nat.lt_succ_self k) (by omega : k + 1 < x.size)
  rw [slopeTo, ← hj, Nat.add_sub_cancel]
  exact div_ne_zero (sub_ne_zero.mpr fun h => hcd (congrArg Exact.mk h).symm)
    (sub_ne_zero.mpr hlt.ne')

/-- A single flat interval before the step lies between slopes of different signs. -/
theorem derivative_first (hinc : increasing x.toList = true) (h3 : 2 < x.size) (hcd : c ≠ d) :
    ∃ r, 0 < r ∧ (derivative x (stepValues x.size 2 c d) 0).val -
      (derivative x (stepValues x.size 2 c d) 1).val = -(r * slopeTo x 2 c d) := by
  have hflat : (slope x (stepValues x.size 2 c d) 2).val = 0 :=
    slope_eq_zero (k := 0) (by omega) (by omega)
  have hstep : (slope x (stepValues x.size 2 c d) 3).val = slopeTo x 2 c d :=
    slope_eq_slopeTo (k := 1) rfl h3
  have hbefore : (slope x (stepValues x.size 2 c d) 1).val = -slopeTo x 2 c d := by
    rw [slope_before h3, extend_val, hflat, hstep, mul_zero, zero_sub]
  rw [derivative_val, derivative_val, hbefore, hflat, hstep]
  obtain ⟨r, hr, hsub⟩ := exists_blendOf_sub (slopeTo_ne_zero hinc (k := 1) rfl h3 hcd)
    (slope x (stepValues x.size 2 c d) 0).val (slope x (stepValues x.size 2 c d) 4).val
  exact ⟨r, hr, by rw [← hsub, neg_sub]⟩

/-- So does a single flat interval after the step. -/
theorem derivative_last (hinc : increasing x.toList = true) (hn : x.size = k + 3) (hcd : c ≠ d) :
    ∃ r, 0 < r ∧ (derivative x (stepValues x.size (k + 1) c d) (k + 1)).val -
      (derivative x (stepValues x.size (k + 1) c d) (k + 2)).val = r * slopeTo x (k + 1) c d := by
  have hstep : (slope x (stepValues x.size (k + 1) c d) (k + 2)).val = slopeTo x (k + 1) c d :=
    slope_eq_slopeTo rfl (by omega)
  have hflat : (slope x (stepValues x.size (k + 1) c d) (k + 3)).val = 0 :=
    slope_eq_zero (k := k + 1) (by omega) (by omega)
  have hafter : (slope x (stepValues x.size (k + 1) c d) (k + 4)).val =
      -slopeTo x (k + 1) c d := by
    rw [slope_after hn, extend_val, hflat, hstep, mul_zero, zero_sub]
  rw [derivative_val, derivative_val, hafter, hflat, hstep, blendOf_swap,
    blendOf_swap (slopeTo x (k + 1) c d)]
  exact exists_blendOf_sub (slopeTo_ne_zero hinc rfl (by omega) hcd) _ _

omit [FloorRing K] in
/-- A value on the far side of one level from the other is not between them. -/
theorem not_between {a b v r : K} (hr : 0 < r) (hab : a ≠ b) (hv : v = a - r * (b - a)) :
    ¬ (min a b ≤ v ∧ v ≤ max a b) := by
  rintro ⟨hlow, hhigh⟩
  rcases lt_or_gt_of_ne hab with hlt | hgt
  · rw [min_eq_left hlt.le] at hlow
    nlinarith
  · rw [max_eq_left hgt.le] at hhigh
    nlinarith

/-- The spline leaves the levels where a single interval is left between a step and an end. -/
theorem exists_eval_step_outside (s : Spline (Exact K)) (hinc : increasing x.toList = true)
    (hj : j ≤ x.size) (hcd : c ≠ d) (h : ¬ Apart x.size j) :
    ∃ p v, x.getD 0 0 ≤ p ∧ p ≤ x.getD (x.size - 1) 0 ∧
      (s.fit x (stepValues x.size j c d)).2.eval p = .ok v ∧
      ¬ (min c.val d.val ≤ v.val ∧ v.val ≤ max c.val d.val) := by
  unfold Apart at h
  have hval : c.val ≠ d.val := fun h => hcd (congrArg Exact.mk h)
  have haccepts : Accepts (x, stepValues x.size j c d) :=
    ⟨Array.size_ofFn.symm, by dsimp only; omega, hinc⟩
  by_cases hfirst : j = 2
  · subst hfirst
    have h3 : 2 < x.size := by omega
    obtain ⟨p, v, h₁, h₂, heval, hv⟩ := eval_middle s haccepts (k := 0) (by omega) (by
      rw [getD_stepValues (by omega), getD_stepValues (by omega)]; rfl)
    obtain ⟨r, hr, hd⟩ := derivative_first hinc h3 hcd
    have hlt := getD_lt hinc (show 0 < 1 by omega) (by omega : 1 < x.size)
    have hlt' := getD_lt hinc (show 1 < 2 by omega) h3
    refine ⟨p, v, h₁, h₂, heval, not_between (r := ((x.getD 1 0).val - (x.getD 0 0).val) / 8 * r /
      ((x.getD 2 0).val - (x.getD 1 0).val)) ?_ hval ?_⟩
    · exact div_pos (mul_pos (div_pos (sub_pos.mpr hlt) (by norm_num)) hr) (sub_pos.mpr hlt')
    · rw [hv, hd, getD_stepValues (by omega), if_pos (by omega), slopeTo]
      ring
  · obtain ⟨k, rfl⟩ := Nat.exists_eq_succ_of_ne_zero (show j ≠ 0 by omega)
    have hn : x.size = k + 3 := by omega
    obtain ⟨p, v, h₁, h₂, heval, hv⟩ := eval_middle s haccepts (k := k + 1) (by omega) (by
      rw [getD_stepValues (by omega), getD_stepValues (by omega), if_neg (by omega),
        if_neg (by omega)])
    obtain ⟨r, hr, hd⟩ := derivative_last hinc hn hcd
    have hlt := getD_lt hinc (show k + 1 < k + 2 by omega) (by omega)
    have hlt' := getD_lt hinc (show k < k + 1 by omega) (by omega)
    refine ⟨p, v, h₁, h₂, heval, ?_⟩
    rw [min_comm, max_comm]
    refine not_between (r := ((x.getD (k + 2) 0).val - (x.getD (k + 1) 0).val) / 8 * r /
      ((x.getD (k + 1) 0).val - (x.getD k 0).val)) ?_ hval.symm ?_
    · exact div_pos (mul_pos (div_pos (sub_pos.mpr hlt) (by norm_num)) hr) (sub_pos.mpr hlt')
    · rw [hv, hd, getD_stepValues (by omega), if_neg (by omega), slopeTo, Nat.add_sub_cancel]
      ring

/-- A spline through a step has a value everywhere from its first node to its last one.  It stays
between the two levels if and only if these are one, or all nodes are on one of them, or no
single interval is left between the step and an end. -/
theorem step_mem_iff (s : Spline (Exact K)) (h2 : 2 ≤ x.size) (hinc : increasing x.toList = true)
    (c d : Exact K) (hj : j ≤ x.size) :
    (∀ p, x.getD 0 0 ≤ p → p ≤ x.getD (x.size - 1) 0 →
      ∃ v, (s.fit x (stepValues x.size j c d)).2.eval p = .ok v ∧
        min c.val d.val ≤ v.val ∧ v.val ≤ max c.val d.val) ↔
    c = d ∨ j = 0 ∨ j = x.size ∨ j ≠ 2 ∧ j + 2 ≠ x.size := by
  constructor
  · intro hall
    by_contra hnot
    rw [not_or] at hnot
    obtain ⟨p, v, h₁, h₂, heval, hout⟩ := exists_eval_step_outside s hinc hj hnot.1 hnot.2
    obtain ⟨v', heval', hin⟩ := hall p h₁ h₂
    cases heval.symm.trans heval'
    exact hout hin
  · rintro (rfl | h) p h₁ h₂
    · rw [stepValues_self]
      exact eval_step_mem s h2 hinc (Or.inl rfl) h₁ h₂
    · exact eval_step_mem s h2 hinc h h₁ h₂

/-- A step in the middle of six nodes has two flat intervals on either side. -/
theorem step_mem_of_six :
    ∃ v, (Spline.fit {} (#[0, 1, 3, 4, 5, 6] : Array (Exact ℚ)) (stepValues 6 3 1 0)).2.eval ⟨7 / 2⟩ =
      .ok v ∧ min (1 : Exact ℚ).val (0 : Exact ℚ).val ≤ v.val ∧
        v.val ≤ max (1 : Exact ℚ).val (0 : Exact ℚ).val :=
  (step_mem_iff (x := #[0, 1, 3, 4, 5, 6]) (j := 3) {} (by decide) (by decide +kernel) 1 0
    (by decide)).mpr (by decide +kernel) ⟨7 / 2⟩ (by decide +kernel) (by decide +kernel)

/-- A step at the third of four nodes.  In the middle of the first interval the spline is below
both levels. -/
theorem not_step_mem : ¬ ∀ (x : Array (Exact ℚ)) (c d p : Exact ℚ) (j : ℕ), 2 ≤ x.size →
    increasing x.toList = true → j ≤ x.size → x.getD 0 0 ≤ p → p ≤ x.getD (x.size - 1) 0 →
      ∃ v, (Spline.fit {} x (stepValues x.size j c d)).2.eval p = .ok v ∧
        min c.val d.val ≤ v.val ∧ v.val ≤ max c.val d.val := by
  intro hall
  obtain ⟨v, hv, hlow, -⟩ := hall #[0, 1, 2, 3] 0 1 ⟨1 / 2⟩ 2 (by decide) (by decide +kernel)
    (by decide) (by decide +kernel) (by decide +kernel)
  obtain ⟨w, hw, hneg⟩ : ∃ w, (Spline.fit {} (#[0, 1, 2, 3] : Array (Exact ℚ))
      (stepValues 4 2 0 1)).2.eval ⟨1 / 2⟩ = .ok w ∧ w.val = -7 / 64 :=
    ⟨_, eval_fit {} (by decide +kernel) (by decide +kernel) (by decide +kernel), by decide +kernel⟩
  cases hv.symm.trans hw
  rw [hneg] at hlow
  exact absurd hlow (by decide +kernel)

end Exact
end Seismic
