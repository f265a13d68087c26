import Seismic.Proofs.Binary.Rounding
import Seismic.Proofs.Nodes

/-!
# Splines in exact arithmetic

The interval that is found for a position between the nodes is one that holds the position.
The derivative at a node is a mean of the slopes beside it, which is zero where both weights
are.  If these slopes are multiples of one, so is the mean.  A cubic whose derivatives are
not steeper than three times its secant, and not of the other sign, stays between its ends.
-/

namespace Seismic
namespace Exact

open Spline

/-! ## Means of slopes -/

section Means

variable {K : Type} [Field K] [LinearOrder K]

/-- The weight of a slope, from the two slopes on the other side. -/
def weightOf (far near : K) : K := |far - near| + |far + near| / 2

/-- The mean of the slopes `b` and `c` beside a node, with `a` before and `d` after them. -/
def blendOf (a b c d : K) : K :=
  (weightOf d c * b + weightOf b a * c) / (weightOf d c + weightOf b a)

theorem blendOf_swap (a b c d : K) : blendOf a b c d = blendOf d c b a := by
  have hsymm : ∀ u v : K, weightOf u v = weightOf v u := fun u v => by
    rw [weightOf, weightOf, abs_sub_comm, add_comm u v]
  unfold blendOf
  rw [hsymm d c, hsymm b a, add_comm (weightOf c d * b), add_comm (weightOf c d)]

variable [IsStrictOrderedRing K] {a b c d m : K}

theorem weightOf_mul (r a b : K) : weightOf (r * a) (r * b) = |r| * weightOf a b := by
  rw [weightOf, ← mul_sub, ← mul_add, abs_mul, abs_mul, mul_div_assoc, ← mul_add, weightOf]

/-- Slopes that are scaled together have the scaled mean, also where they are scaled to zero. -/
theorem blendOf_mul (r a b c d : K) :
    blendOf (r * a) (r * b) (r * c) (r * d) = r * blendOf a b c d := by
  rcases eq_or_ne r 0 with rfl | hr
  · simp [blendOf]
  calc blendOf (r * a) (r * b) (r * c) (r * d)
      = |r| * (r * (weightOf d c * b + weightOf b a * c)) /
          (|r| * (weightOf d c + weightOf b a)) := by
        rw [blendOf, weightOf_mul, weightOf_mul]
        ring
    _ = r * blendOf a b c d := by
        rw [mul_div_mul_left _ _ (abs_ne_zero.mpr hr), mul_div_assoc, blendOf]

theorem blendOf_neg (a b c d : K) : blendOf (-a) (-b) (-c) (-d) = -blendOf a b c d := by
  simpa only [neg_one_mul] using blendOf_mul (-1) a b c d

theorem weightOf_nonneg (a b : K) : 0 ≤ weightOf a b := by
  unfold weightOf
  positivity

/-- The mean of multiples of one slope is a multiple of it as well, within the same bounds. -/
theorem blendOf_multiple {u v low high : K} (hb : b = u * m) (hc : c = v * m)
    (hlow : low ≤ 0) (hhigh : 0 ≤ high) (hu : low ≤ u ∧ u ≤ high) (hv : low ≤ v ∧ v ≤ high) :
    ∃ r, low ≤ r ∧ r ≤ high ∧ blendOf a b c d = r * m := by
  have h₁ := weightOf_nonneg d c
  have h₂ := weightOf_nonneg b a
  refine ⟨(weightOf d c * u + weightOf b a * v) / (weightOf d c + weightOf b a), ?_, ?_, ?_⟩
  · rcases (add_nonneg h₁ h₂).eq_or_lt with h0 | hpos
    · rwa [← h0, div_zero]
    · rw [le_div_iff₀ hpos]
      have := mul_le_mul_of_nonneg_left hu.1 h₁
      have := mul_le_mul_of_nonneg_left hv.1 h₂
      linarith
  · refine div_le_of_le_mul₀ (add_nonneg h₁ h₂) hhigh ?_
    have := mul_le_mul_of_nonneg_left hu.2 h₁
    have := mul_le_mul_of_nonneg_left hv.2 h₂
    linarith
  · rw [blendOf, div_mul_eq_mul_div, add_mul, mul_assoc, mul_assoc, ← hb, ← hc]

/-- On a flat interval between slopes of different signs, the derivatives differ: that next to
the slope `m` is a positive multiple of it, and the other one is not. -/
theorem exists_blendOf_sub (hm : m ≠ 0) (a d : K) :
    ∃ r, 0 < r ∧ blendOf (-m) 0 m d - blendOf a (-m) 0 m = r * m := by
  have h₁ := weightOf_nonneg d m
  have h₂ : 0 < weightOf 0 (-m) := by
    have := abs_pos.mpr hm
    rw [weightOf, sub_neg_eq_add, zero_add, zero_add, abs_neg]
    linarith
  have hnext : blendOf (-m) 0 m d = weightOf 0 (-m) / (weightOf d m + weightOf 0 (-m)) * m := by
    rw [blendOf, mul_zero, zero_add, div_mul_eq_mul_div]
  obtain ⟨u, -, hu, hother⟩ : ∃ u, -1 ≤ u ∧ u ≤ 0 ∧ blendOf a (-m) 0 m = u * m :=
    blendOf_multiple (neg_one_mul m).symm (zero_mul m).symm (by norm_num) le_rfl (by norm_num)
      (by norm_num)
  have hpos := div_pos h₂ (add_pos_of_nonneg_of_pos h₁ h₂)
  refine ⟨weightOf 0 (-m) / (weightOf d m + weightOf 0 (-m)) - u, by linarith, ?_⟩
  rw [hnext, hother, sub_mul]

/-- The mean is flat if both slopes are, or if one of them is flat with a flat one beyond. -/
theorem blendOf_eq_zero (h : b = 0 ∧ c = 0 ∨ a = 0 ∧ b = 0 ∨ c = 0 ∧ d = 0) :
    blendOf a b c d = 0 := by
  unfold blendOf weightOf
  rcases h with ⟨rfl, rfl⟩ | ⟨rfl, rfl⟩ | ⟨rfl, rfl⟩ <;> simp

end Means

variable {K : Type} [Field K] [LinearOrder K] [FloorRing K]
variable {x y : Array (Exact K)} {i j k : ℕ} {p : Exact K}

/-! ## Nodes in order -/

theorem getD_lt (h : increasing x.toList = true) (hij : i < j) (hj : j < x.size) :
    (x.getD i 0).val < (x.getD j 0).val :=
  node_lt h hij hj

/-- A position between the first and the last node lies in the interval that is found. -/
theorem interval_mem (h2 : 2 ≤ x.size) (h : increasing x.toList = true)
    (h₁ : (x.getD 0 0).val ≤ p.val) (h₂ : p.val ≤ (x.getD (x.size - 1) 0).val) :
    (x.getD (interval x p) 0).val ≤ p.val ∧ p.val ≤ (x.getD (interval x p + 1) 0).val := by
  obtain ⟨hlow, hhigh⟩ := interval_spec h2 (fun i j hij hj => node_le h hij hj) h₁
  refine ⟨hlow, ?_⟩
  rcases hhigh with hlast | hhigh
  · rwa [show x.size - 1 = interval x p + 1 by omega] at h₂
  · exact (not_le.mp hhigh).le

/-! ## Derivatives -/

theorem extend_val (x y : Exact K) : (extend x y).val = 2 * x.val - y.val := by
  rw [extend, sub_val, mul_val, numeral_val]

theorem weight_val (x y : Exact K) : (weight x y).val = weightOf x.val y.val := by
  rw [weight, add_val, div_val, abs_val, abs_val, sub_val, add_val, numeral_val, weightOf]

theorem blend_val (a b c d : Exact K) :
    (blend a b c d).val = blendOf a.val b.val c.val d.val := by
  unfold blend
  dsimp only
  rw [isUndefined_eq_false, if_neg Bool.false_ne_true, div_val, add_val, add_val, mul_val, mul_val,
    weight_val, weight_val, blendOf]

theorem derivative_val (x y : Array (Exact K)) (i : ℕ) : (derivative x y i).val =
    blendOf (slope x y i).val (slope x y (i + 1)).val (slope x y (i + 2)).val
      (slope x y (i + 3)).val :=
  blend_val _ _ _ _

/-! ## Cubics -/

theorem cubic_val (h t y y' d d' : Exact K) : (cubic h t y y' d d').val =
    y.val + (y'.val - y.val) * (3 * t.val ^ 2 - 2 * t.val ^ 3) +
      h.val * (d.val * (t.val * (1 - t.val) ^ 2) - d'.val * (t.val ^ 2 * (1 - t.val))) := by
  have htwo : (2 : Exact K).val = 2 := numeral_val 2
  have hthree : (3 : Exact K).val = 3 := numeral_val 3
  unfold cubic
  simp only [add_val, sub_val, mul_val, neg_val, one_val, htwo, hthree]
  ring

/-- The cubic on an interval goes through the node at its start. -/
theorem piece_first (x y : Array (Exact K)) (k : ℕ) : piece x y k (x.getD k 0) = y.getD k 0 := by
  ext
  rw [piece, cubic_val, div_val, sub_val, sub_self, zero_div]
  ring

/-- It goes through the node at its end as well. -/
theorem piece_last (h : increasing x.toList = true) (hk : k + 1 < x.size) :
    piece x y k (x.getD (k + 1) 0) = y.getD (k + 1) 0 := by
  have hlt := getD_lt h (Nat.lt_succ_self k) hk
  ext
  rw [piece, cubic_val, div_val, sub_val, div_self (sub_ne_zero.mpr hlt.ne')]
  ring

/-- The value at a position is that of the cubic on any interval with the position in it, also
where the position is a node between two intervals. -/
theorem eval_of_mem (s : Spline (Exact K)) (h : Accepts (x, y)) (hk : k + 1 < x.size)
    (h₁ : x.getD k 0 ≤ p) (h₂ : p ≤ x.getD (k + 1) 0) :
    (s.fit x y).2.eval p = .ok (piece x y k p) := by
  have hinc := h.in_order
  rw [eval_fit s h (node_le hinc (Nat.zero_le k) (Nat.lt_of_succ_lt hk) h₁)
    (le_node hinc (show k + 1 ≤ x.size - 1 by omega) (by omega) h₂)]
  rcases lt_or_eq_of_le (le_iff.mp h₂) with hlt | heq
  · rw [interval_eq_of_mem hinc hk h₁ (Or.inr hlt)]
  obtain rfl : p = x.getD (k + 1) 0 := Exact.ext heq
  rcases Nat.lt_or_ge (k + 2) x.size with hlt | hge
  · rw [interval_eq_of_mem hinc hlt (le_refl _) (Or.inr (getD_lt hinc (Nat.lt_succ_self _) hlt)),
      piece_first, piece_last hinc hk]
  · rw [interval_eq_of_mem hinc hk h₁ (Or.inl (by omega))]

variable [IsStrictOrderedRing K]

/-- A cubic with derivatives between zero and three times its secant is between its ends. -/
theorem cubic_mem {h t y y' d d' : Exact K} {u v : K} (ht : 0 ≤ t.val ∧ t.val ≤ 1)
    (hd : h.val * d.val = u * (y'.val - y.val)) (hd' : h.val * d'.val = v * (y'.val - y.val))
    (hu : 0 ≤ u ∧ u ≤ 3) (hv : 0 ≤ v ∧ v ≤ 3) :
    ∃ r, 0 ≤ r ∧ r ≤ 1 ∧ (cubic h t y y' d d').val = y.val + (y'.val - y.val) * r := by
  obtain ⟨ht₀, ht₁⟩ := ht
  have ht₁' : 0 ≤ 1 - t.val := sub_nonneg.mpr ht₁
  have hleft : 0 ≤ t.val * (1 - t.val) ^ 2 := by positivity
  have hright : 0 ≤ t.val ^ 2 * (1 - t.val) := by positivity
  refine ⟨3 * t.val ^ 2 - 2 * t.val ^ 3 + u * (t.val * (1 - t.val) ^ 2) -
    v * (t.val ^ 2 * (1 - t.val)), ?_, ?_, ?_⟩
  · have h₁ := mul_nonneg hu.1 hleft
    have h₂ := mul_le_mul_of_nonneg_right hv.2 hright
    have h₃ : 0 ≤ t.val ^ 3 := by positivity
    calc 0 ≤ t.val ^ 3 := h₃
      _ = 3 * t.val ^ 2 - 2 * t.val ^ 3 - 3 * (t.val ^ 2 * (1 - t.val)) := by ring
      _ ≤ _ := by linarith
  · have h₁ := mul_le_mul_of_nonneg_right hu.2 hleft
    have h₂ := mul_nonneg hv.1 hright
    have h₃ : 0 ≤ (1 - t.val) ^ 3 := by positivity
    calc _ ≤ 3 * t.val ^ 2 - 2 * t.val ^ 3 + 3 * (t.val * (1 - t.val) ^ 2) := by linarith
      _ = 1 - (1 - t.val) ^ 3 := by ring
      _ ≤ 1 := by linarith
  · rw [cubic_val, mul_sub h.val, ← mul_assoc h.val, ← mul_assoc h.val, hd, hd']
    ring

end Exact
end Seismic
