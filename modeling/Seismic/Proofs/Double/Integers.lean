import Seismic.Proofs.Double.Moderate

/-!
# Integer arithmetic

A double holds every integer up to `2 ^ 53`.  Sums, differences and products of integers are exact
as long as they stay in that range, and so is a quotient without remainder.  Whatever is finite is
kept by a factor of one and by a summand of zero, and it vanishes with a factor of zero.
-/

namespace Seismic
namespace Double

/-- The number is an integer. -/
structure IsInteger (x : Float) (n : ℤ) : Prop where
  finite : IsFinite x
  eq : toReal x = n

theorem rounded_integer {n : ℤ} (h : |n| ≤ 2 ^ 53) : rounded n = n := by
  rcases h.lt_or_eq with hlt | heq
  · exact rounded_intCast hlt
  · have hpow : rounded ((2 ^ 53 : ℤ) : ℝ) = (2 ^ 53 : ℤ) := by
      rw [Int.cast_pow, Int.cast_ofNat]
      exact rounded_two_zpow (e := 53) (by norm_num)
    rcases (abs_eq (by norm_num)).mp heq with rfl | rfl
    · exact hpow
    · rw [Int.cast_neg, rounded_neg, hpow]

theorem abs_integer_le {n : ℤ} (h : |n| ≤ 2 ^ 53) : |(n : ℝ)| ≤ greatest :=
  le_greatest 53 (by norm_num) (by exact_mod_cast h)

/-- An operation is exact if its exact result is an integer that a double can hold. -/
theorem isInteger_of_rounded {x : Float} {r : ℝ} {n : ℤ} (hr : r = n) (h : |n| ≤ 2 ^ 53)
    (hx : |r| ≤ greatest → IsFinite x ∧ toReal x = rounded r) : IsInteger x n := by
  obtain ⟨hf, hv⟩ := hx (hr ▸ abs_integer_le h)
  exact ⟨hf, by rw [hv, hr, rounded_integer h]⟩

theorem isInteger_ofInt {n : ℤ} (h : |n| ≤ 2 ^ 53) : IsInteger (Float.ofInt n) n := by
  obtain ⟨hf, hv⟩ := ofInt_rounded (abs_integer_le h)
  exact ⟨hf, hv.trans (rounded_integer h)⟩

theorem isInteger_ofNat {n : Nat} (h : n ≤ 2 ^ 53) : IsInteger (Scalar.ofNat n) n :=
  isInteger_ofInt (n := (n : ℤ)) (by rw [Nat.abs_cast]; exact_mod_cast h)

theorem isInteger_zero : IsInteger (0 : Float) 0 := isInteger_ofInt (n := 0) (by norm_num)

theorem isInteger_two : IsInteger (2 : Float) 2 := isInteger_ofInt (n := 2) (by norm_num)

namespace IsInteger

variable {x y : Float} {m n : ℤ}

theorem neg (hx : IsInteger x n) : IsInteger (-x) (-n) := by
  obtain ⟨hf, hv⟩ := neg_finite hx.finite
  exact ⟨hf, by rw [hv, hx.eq, Int.cast_neg]⟩

theorem add (hx : IsInteger x m) (hy : IsInteger y n) (h : |m + n| ≤ 2 ^ 53) :
    IsInteger (x + y) (m + n) :=
  isInteger_of_rounded (by rw [hx.eq, hy.eq, Int.cast_add]) h (add_finite hx.finite hy.finite)

theorem sub (hx : IsInteger x m) (hy : IsInteger y n) (h : |m - n| ≤ 2 ^ 53) :
    IsInteger (x - y) (m - n) :=
  isInteger_of_rounded (by rw [hx.eq, hy.eq, Int.cast_sub]) h (sub_finite hx.finite hy.finite)

theorem mul (hx : IsInteger x m) (hy : IsInteger y n) (h : |m * n| ≤ 2 ^ 53) :
    IsInteger (x * y) (m * n) :=
  isInteger_of_rounded (by rw [hx.eq, hy.eq, Int.cast_mul]) h (mul_finite hx.finite hy.finite)

theorem div (hx : IsInteger x (m * n)) (hy : IsInteger y n) (h0 : n ≠ 0) (h : |m| ≤ 2 ^ 53) :
    IsInteger (x / y) m := by
  have hn : (n : ℝ) ≠ 0 := Int.cast_ne_zero.mpr h0
  refine isInteger_of_rounded ?_ h (div_finite hx.finite hy.finite (by rw [hy.eq]; exact hn))
  rw [hx.eq, hy.eq, Int.cast_mul, mul_div_cancel_right₀ _ hn]

end IsInteger

/-! ## Zero and one -/

section

variable {u v w z : Float}

theorem isInteger_sub_self (hu : IsFinite u) : IsInteger (u - u) 0 :=
  isInteger_of_rounded (by rw [sub_self, Int.cast_zero]) (by norm_num) (sub_finite hu hu)

theorem isInteger_div_self (hu : IsFinite u) (h0 : toReal u ≠ 0) : IsInteger (u / u) 1 :=
  isInteger_of_rounded (by rw [div_self h0, Int.cast_one]) (by norm_num) (div_finite hu hu h0)

namespace IsInteger

theorem zero_div (hz : IsInteger z 0) (hu : IsFinite u) (h0 : toReal u ≠ 0) :
    IsInteger (z / u) 0 :=
  isInteger_of_rounded (by simp [hz.eq]) (by norm_num) (div_finite hz.finite hu h0)

theorem zero_mul (hz : IsInteger z 0) (hu : IsFinite u) : IsInteger (z * u) 0 :=
  isInteger_of_rounded (by simp [hz.eq]) (by norm_num) (mul_finite hz.finite hu)

end IsInteger

/-- The finite number is equal to another one, of whichever sign if it is zero. -/
structure Same (v u : Float) : Prop where
  finite : IsFinite v
  eq : toReal v = toReal u

namespace Same

theorem beq (h : Same v u) (hu : IsFinite u) : (v == u) = true := by
  rw [beq_iff, value_of_isFinite h.finite, value_of_isFinite hu, h.eq]
  exact ⟨h.finite.isNumber, hu.isNumber, rfl⟩

theorem trans (h : Same w v) (h' : Same v u) : Same w u := ⟨h.finite, h.eq.trans h'.eq⟩

/-- An operation is exact if its exact result is a finite number. -/
theorem of_rounded {r : ℝ} (hr : r = toReal v) (hv : IsFinite v)
    (hw : |r| ≤ greatest → IsFinite w ∧ toReal w = rounded r) : Same w v := by
  obtain ⟨hf, he⟩ := hw (hr ▸ abs_toReal_le v)
  exact ⟨hf, by rw [he, hr, rounded_toReal hv]⟩

theorem one_mul (hv : IsInteger v 1) (hu : IsFinite u) : Same (v * u) u :=
  of_rounded (by simp [hv.eq]) hu (mul_finite hv.finite hu)

theorem add_zero (h : Same v u) (hz : IsInteger z 0) : Same (v + z) u :=
  (of_rounded (by simp [hz.eq]) h.finite (add_finite h.finite hz.finite)).trans h

theorem zero_add (hz : IsInteger z 0) (h : Same v u) : Same (z + v) u :=
  (of_rounded (by simp [hz.eq]) h.finite (add_finite hz.finite h.finite)).trans h

end Same

end

end Double
end Seismic
