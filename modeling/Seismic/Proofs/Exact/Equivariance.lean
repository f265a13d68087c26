import Seismic.Proofs.Exact.Spline
import Seismic.Proofs.Slopes

/-!
# Amplitudes and reversal

Each stage of a spline answers a change of its nodes in a fixed way.  If the values are scaled and
shifted, slopes and derivatives are scaled, and the cubics are scaled and shifted as the values
are.  If the nodes are read from the other end, slopes and derivatives change signs and order, and
each cubic is the one on the mirrored interval.  A node between two intervals is approached from
its other side then, so it matters that both cubics have its value.
-/

namespace Seismic
namespace Exact

open Spline

variable {K : Type} [Field K] [LinearOrder K] [FloorRing K]
variable {x y : Array (Exact K)} {a b p : Exact K} {i j k : ℕ}

/-- The mirrored positions, in their order. -/
def mirrored (x : Array (Exact K)) : Array (Exact K) := x.reverse.map fun u => -u

theorem size_mirrored : (mirrored x).size = x.size := by
  rw [mirrored, Array.size_map, Array.size_reverse]

/-- A node counted from one end is at the mirrored position of that counted from the other. -/
theorem getD_mirrored (h : i + j + 1 = x.size) : (mirrored x).getD i 0 = -x.getD j 0 := by
  rw [mirrored, getD_map _ (by rw [Array.size_reverse]; omega), getD_reverse h]

theorem accepts_scale (h : Accepts (x, y)) (a b : Exact K) :
    Accepts (x, y.map fun u => a * u + b) :=
  ⟨h.1.trans Array.size_map.symm, h.2⟩

/-! ## Slopes -/

theorem secant_scale (hsize : x.size = y.size) (hk : k + 1 < x.size) :
    secant x (y.map fun u => a * u + b) k = a * secant x y k := by
  ext
  rw [secant, secant, getD_map _ (by omega), getD_map _ (by omega)]
  simp only [div_val, sub_val, add_val, mul_val]
  ring

theorem slope_scale (h : Accepts (x, y)) (hj : j ≤ x.size + 2) :
    slope x (y.map fun u => a * u + b) j = a * slope x y j := by
  have hcontinued := continued_slope (y := y) h.two_le
  have hmap : Continued x.size fun j => a * slope x y j := hcontinued.map fun u v => by
    ext
    simp only [extend_val, mul_val]
    ring
  refine (continued_slope h.two_le).ext hmap h.two_le (fun i hi hin => ?_) hj
  rw [slope_inner_sub hi hin, slope_inner_sub hi hin, secant_scale h.size_eq (by omega)]

theorem secant_mirror (hsize : x.size = y.size) (h : j + k + 2 = x.size) :
    secant (mirrored x) y.reverse j = -secant x y k := by
  ext
  rw [secant, secant, getD_mirrored (i := j) (j := k + 1) (by omega),
    getD_mirrored (i := j + 1) (j := k) (by omega), getD_reverse (i := j) (j := k + 1) (by omega),
    getD_reverse (i := j + 1) (j := k) (by omega)]
  simp only [div_val, sub_val, neg_val]
  ring

theorem slope_mirror (h : Accepts (x, y)) (hij : i + j = x.size + 2) :
    slope (mirrored x) y.reverse i = -slope x y j := by
  have h2 := h.two_le
  have hmap : Continued x.size fun j => -slope x y (x.size + 2 - j) :=
    ((continued_slope h2).mirror h2).map fun u v => by
      ext
      simp only [extend_val, neg_val]
      ring
  have hmirror := continued_slope (x := mirrored x) (y := y.reverse) (by rwa [size_mirrored])
  rw [size_mirrored] at hmirror
  obtain rfl : j = x.size + 2 - i := by omega
  refine hmirror.ext hmap h2 (fun i hi hin => ?_) (by omega)
  rw [slope_inner_sub hi (by rwa [size_mirrored]), slope_inner_sub (by omega) (by omega),
    secant_mirror (k := x.size + 2 - i - 2) h.size_eq (by omega)]

variable [IsStrictOrderedRing K]

/-! ## Derivatives and cubics -/

theorem derivative_scale (h : Accepts (x, y)) (hi : i < x.size) :
    derivative x (y.map fun u => a * u + b) i = a * derivative x y i := by
  ext
  rw [derivative_val, slope_scale h (by omega), slope_scale h (by omega),
    slope_scale h (by omega), slope_scale h (by omega), mul_val, mul_val, mul_val, mul_val,
    blendOf_mul, mul_val, derivative_val]

theorem piece_scale (h : Accepts (x, y)) (hk : k + 1 < x.size) :
    piece x (y.map fun u => a * u + b) k p = a * piece x y k p + b := by
  have hsize := h.size_eq
  ext
  rw [piece, piece, getD_map _ (by omega), getD_map _ (by omega), derivative_scale h hk,
    derivative_scale h (Nat.lt_of_succ_lt hk)]
  simp only [cubic_val, add_val, mul_val]
  ring

theorem derivative_mirror (h : Accepts (x, y)) (hij : i + j + 1 = x.size) :
    derivative (mirrored x) y.reverse i = -derivative x y j := by
  ext
  rw [derivative_val, slope_mirror (j := j + 3) h (by omega),
    slope_mirror (j := j + 2) h (by omega), slope_mirror (j := j + 1) h (by omega),
    slope_mirror (j := j) h (by omega), blendOf_swap]
  simp only [neg_val, blendOf_neg, derivative_val]

/-- The fraction of the mirrored interval is what is left of the interval. -/
theorem piece_mirror (h : Accepts (x, y)) (hjk : j + k + 2 = x.size) :
    piece (mirrored x) y.reverse j (-p) = piece x y k p := by
  have hsize := h.size_eq
  have hlt := getD_lt h.in_order (Nat.lt_succ_self k) (by omega)
  have hrest : (-p.val - -(x.getD (k + 1) 0).val) / (-(x.getD k 0).val - -(x.getD (k + 1) 0).val) =
      1 - (p.val - (x.getD k 0).val) / ((x.getD (k + 1) 0).val - (x.getD k 0).val) := by
    rw [neg_sub_neg, neg_sub_neg, eq_sub_iff_add_eq, ← add_div, sub_add_sub_cancel,
      div_self (sub_ne_zero.mpr hlt.ne')]
  ext
  rw [piece, piece, getD_mirrored (i := j) (j := k + 1) (by omega),
    getD_mirrored (i := j + 1) (j := k) (by omega), getD_reverse (i := j) (j := k + 1) (by omega),
    getD_reverse (i := j + 1) (j := k) (by omega),
    derivative_mirror (i := j) (j := k + 1) h (by omega),
    derivative_mirror (i := j + 1) (j := k) h (by omega), cubic_val, cubic_val]
  simp only [div_val, sub_val, neg_val, hrest]
  ring

/-! ## Values -/

theorem accepts_mirror (h : Accepts (x, y)) : Accepts (mirrored x, y.reverse) := by
  refine ⟨by rw [size_mirrored, Array.size_reverse, h.size_eq], by
    rw [size_mirrored]
    exact h.two_le, increasing_of_lt_succ fun k hk => ?_⟩
  rw [size_mirrored] at hk
  obtain ⟨j, hj⟩ := Nat.exists_eq_add_of_lt hk
  rw [getD_mirrored (i := k) (j := j + 1) (by omega),
    getD_mirrored (i := k + 1) (j := j) (by omega)]
  exact neg_lt_neg (getD_lt h.in_order (Nat.lt_succ_self j) (by omega))

/-- The spline through scaled and shifted values has the scaled and shifted value at every position
from the first node to the last one, and the spline through the nodes in reverse has the same
value at the mirrored position. -/
theorem eval_equivariant (s : Spline (Exact K)) {x y : Array (Exact K)} (hsize : x.size = y.size)
    (h2 : 2 ≤ x.size) (hinc : increasing x.toList = true) {p : Exact K} (h₁ : x.getD 0 0 ≤ p)
    (h₂ : p ≤ x.getD (x.size - 1) 0) (a b : Exact K) :
    ∃ v, ((s.fit x y).1 = .ok () ∧ (s.fit x y).2.eval p = .ok v) ∧
      ((s.fit x (y.map fun u => a * u + b)).1 = .ok () ∧
        (s.fit x (y.map fun u => a * u + b)).2.eval p = .ok (a * v + b)) ∧
      (s.fit (x.reverse.map fun u => -u) y.reverse).1 = .ok () ∧
        (s.fit (x.reverse.map fun u => -u) y.reverse).2.eval (-p) = .ok v := by
  have h : Accepts (x, y) := ⟨hsize, h2, hinc⟩
  obtain ⟨hlow, hhigh⟩ := interval_mem h2 hinc h₁ h₂
  obtain ⟨j, hj⟩ := Nat.exists_eq_add_of_lt (interval_add_one_lt p h2)
  generalize interval x p = k at hlow hhigh hj
  refine ⟨piece x y k p, ⟨fit_ok_iff.mpr h, eval_of_mem s h (by omega) hlow hhigh⟩,
    ⟨fit_ok_iff.mpr (accepts_scale h a b), ?_⟩, fit_ok_iff.mpr (accepts_mirror h), ?_⟩
  · rw [eval_of_mem s (accepts_scale h a b) (by omega) hlow hhigh, piece_scale h (by omega)]
  · have hj' : j + 1 < (mirrored x).size := by
      rw [size_mirrored]
      omega
    have hlow' : (mirrored x).getD j 0 ≤ -p := by
      rw [getD_mirrored (i := j) (j := k + 1) (by omega)]
      exact neg_le_neg hhigh
    have hhigh' : -p ≤ (mirrored x).getD (j + 1) 0 := by
      rw [getD_mirrored (i := j + 1) (j := k) (by omega)]
      exact neg_le_neg hlow
    rw [← piece_mirror (j := j) h (by omega)]
    exact eval_of_mem s (accepts_mirror h) hj' hlow' hhigh'

/-- Four nodes at uneven distances, and a position between two of them of the same value. -/
theorem eval_equivariant_of_four : ∃ v : Exact ℚ,
    (fit {} #[0, 1, 3, 4] #[2, 0, 0, 5]).2.eval 2 = .ok v ∧
      (fit {} #[0, 1, 3, 4] (#[2, 0, 0, 5].map fun u => ⟨-1 / 2⟩ * u + 7)).2.eval 2 =
        .ok (⟨-1 / 2⟩ * v + 7) ∧
      (fit {} (#[0, 1, 3, 4].reverse.map fun u => -u) #[2, 0, 0, 5].reverse).2.eval (-2) =
        .ok v := by
  obtain ⟨v, hv, hscale, hmirror⟩ := eval_equivariant {} (x := (#[0, 1, 3, 4] : Array (Exact ℚ)))
    (y := #[2, 0, 0, 5]) (p := 2) (by decide) (by decide) (by decide +kernel) (by decide +kernel)
    (by decide +kernel) ⟨-1 / 2⟩ 7
  exact ⟨v, hv.2, hscale.2, hmirror.2⟩

end Exact
end Seismic
