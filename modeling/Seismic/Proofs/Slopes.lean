import Seismic.Proofs.Nodes

/-!
# The sequence of slopes

The slopes of the intervals are continued by two on each side, linearly from the last two, or from
the only one.  The rule mentions both ends alike, and it leaves no choice: the slopes around an
interval are determined by those of them that belong to an interval.
-/

namespace Seismic
namespace Spline

variable {α : Type} [Scalar α] {x y : Array α} {m m' : ℕ → α} {j k n : ℕ}

/-- A sequence of slopes, of which `2` to `n` belong to intervals and two more on each side
continue them. -/
structure Continued (n : ℕ) (m : ℕ → α) : Prop where
  before : m 1 = extend (m 2) (m (min 3 n))
  first : m 0 = extend (m 1) (m 2)
  after : m (n + 1) = extend (m n) (m (max 2 (n - 1)))
  last : m (n + 2) = extend (m (n + 1)) (m n)

theorem slope_inner (hk : k + 1 < x.size) : slope x y (k + 2) = secant x y k := by
  unfold slope
  dsimp only
  rw [if_neg (by omega), if_neg (by omega), if_pos (by omega), Nat.add_sub_cancel]

theorem slope_inner_sub (hj : 2 ≤ j) (hjn : j ≤ x.size) : slope x y j = secant x y (j - 2) := by
  rw [← slope_inner (by omega), Nat.sub_add_cancel hj]

theorem slope_one : slope x y 1 =
    extend (secant x y 0) (if 2 < x.size then secant x y 1 else secant x y 0) := by
  unfold slope
  dsimp only
  rw [if_neg Nat.one_ne_zero, if_pos rfl]

theorem slope_size_add_one (h2 : 2 ≤ x.size) : slope x y (x.size + 1) =
    extend (secant x y (x.size - 2))
      (if 2 < x.size then secant x y (x.size - 3) else secant x y (x.size - 2)) := by
  unfold slope
  dsimp only
  rw [if_neg (by omega), if_neg (by omega), if_neg (by omega), if_pos rfl]

theorem continued_slope (h2 : 2 ≤ x.size) : Continued x.size (slope x y) where
  before := by
    rw [slope_one, slope_inner_sub le_rfl h2,
      slope_inner_sub (by omega) (Nat.min_le_right 3 x.size)]
    split_ifs with h3
    · rw [Nat.min_eq_left h3]
    · rw [show min 3 x.size = 2 by omega]
  first := by
    rw [slope_one, slope_inner_sub le_rfl h2]
    rfl
  after := by
    rw [slope_size_add_one h2, slope_inner_sub h2 le_rfl,
      slope_inner_sub (Nat.le_max_left 2 (x.size - 1)) (by omega)]
    split_ifs with h3
    · rw [show max 2 (x.size - 1) - 2 = x.size - 3 by omega]
    · rw [show max 2 (x.size - 1) - 2 = x.size - 2 by omega]
  last := by
    rw [slope_size_add_one h2, slope_inner_sub h2 le_rfl]
    unfold slope
    dsimp only
    rw [if_neg (by omega), if_neg (by omega), if_neg (by omega), if_neg (by omega)]

namespace Continued

/-- Two such sequences agree around the interval `k`, on its own slope and two on each side, if
they do so on the slopes of intervals among these. -/
theorem agree (h : Continued n m) (h' : Continued n m') (hk : k + 2 ≤ n)
    (hin : ∀ j, k ≤ j → j ≤ k + 4 → 2 ≤ j → j ≤ n → m j = m' j) (hj : k ≤ j) (hj' : j ≤ k + 4)
    (hn : j ≤ n + 2) : m j = m' j := by
  have hbefore : k ≤ 1 → m 1 = m' 1 := fun hk1 => by
    rw [h.before, h'.before, hin 2 (by omega) (by omega) le_rfl (by omega),
      hin (min 3 n) (by omega) (by omega) (by omega) (by omega)]
  have hafter : n ≤ k + 3 → m (n + 1) = m' (n + 1) := fun hkn => by
    rw [h.after, h'.after, hin n (by omega) (by omega) (by omega) le_rfl,
      hin (max 2 (n - 1)) (by omega) (by omega) (by omega) (by omega)]
  rcases Nat.lt_or_ge j 2 with hlt | hge
  · obtain rfl | rfl : j = 0 ∨ j = 1 := by omega
    · rw [h.first, h'.first, hbefore (by omega), hin 2 (by omega) (by omega) le_rfl (by omega)]
    · exact hbefore hj
  rcases Nat.lt_or_ge n j with hgt | hle
  · obtain rfl | rfl : j = n + 1 ∨ j = n + 2 := by omega
    · exact hafter (by omega)
    · rw [h.last, h'.last, hafter (by omega), hin n (by omega) (by omega) (by omega) le_rfl]
  · exact hin j hj hj' hge hle

theorem ext (h : Continued n m) (h' : Continued n m') (h2 : 2 ≤ n)
    (hin : ∀ j, 2 ≤ j → j ≤ n → m j = m' j) (hn : j ≤ n + 2) : m j = m' j :=
  h.agree h' (k := min j (n - 2)) (by omega) (fun i _ _ => hin i) (by omega) (by omega) hn

/-- Read from the other end, a continued sequence is one as well. -/
theorem mirror (h : Continued n m) (h2 : 2 ≤ n) : Continued n fun j => m (n + 2 - j) := by
  constructor
  · show m (n + 1) = extend (m n) (m (n + 2 - min 3 n))
    rw [show n + 2 - min 3 n = max 2 (n - 1) by omega]
    exact h.after
  · exact h.last
  · show m (n + 2 - (n + 1)) = extend (m (n + 2 - n)) (m (n + 2 - max 2 (n - 1)))
    rw [show n + 2 - (n + 1) = 1 by omega, show n + 2 - n = 2 by omega,
      show n + 2 - max 2 (n - 1) = min 3 n by omega]
    exact h.before
  · show m (n + 2 - (n + 2)) = extend (m (n + 2 - (n + 1))) (m (n + 2 - n))
    rw [Nat.sub_self, show n + 2 - (n + 1) = 1 by omega, show n + 2 - n = 2 by omega]
    exact h.first

/-- A function that takes continued slopes to continued slopes can be applied throughout. -/
theorem map {β : Type} [Scalar β] {f : α → β} (h : Continued n m)
    (hf : ∀ u v, f (extend u v) = extend (f u) (f v)) : Continued n fun j => f (m j) := by
  constructor
  · rw [h.before, hf]
  · rw [h.first, hf]
  · rw [h.after, hf]
  · rw [h.last, hf]

end Continued
end Spline
end Seismic
