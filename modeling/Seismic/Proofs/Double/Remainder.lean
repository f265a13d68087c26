import Seismic.Proofs.Double.Integral

/-!
# The remainder

The remainder of two finite numbers is exact: at the smaller of their exponents it has no
more digits than the operand with that exponent.  It has the sign of the dividend, and
adding the divisor to a negative one brings it between zero and the divisor.
-/

namespace Seismic
namespace Double

open Float.Model
open Float.Model.UnpackedFloat (Sign)

theorem ofParts_spec (s : Sign) (m : Nat) (e : ℤ) :
    IsNumber (ofParts s m e) ∧
      value (ofParts s m e) = round (Binary.signum s * (m * (2 : ℝ) ^ e) : ℝ) := by
  unfold ofParts
  split_ifs with hm
  · obtain ⟨hf, hv⟩ := zero_finite s
    refine ⟨hf.isNumber, ?_⟩
    rw [value_of_isFinite hf, hv, hm, Nat.cast_zero, zero_mul, mul_zero,
      round_coe (le_greatest 0 (by norm_num) (by rw [abs_zero]; positivity)), rounded_zero]
  · have h := Binary.round_yields one_lt_exponentBits s hm e
    exact ⟨h.isNumber, h.value_eq⟩

theorem ofParts_exact (s : Sign) {m : Nat} {e : ℤ} (hm : m < 2 ^ 53) (he : -1074 ≤ e)
    (hl : (m : ℝ) * (2 : ℝ) ^ e < 2 ^ 1024) :
    IsFinite (ofParts s m e) ∧
      toReal (ofParts s m e) = Binary.signum s * (m * (2 : ℝ) ^ e) := by
  obtain ⟨hn, hv⟩ := ofParts_spec s m e
  have hp : 0 ≤ (m : ℝ) * (2 : ℝ) ^ e := by positivity
  have hr : rounded (m * (2 : ℝ) ^ e) = m * (2 : ℝ) ^ e :=
    rounded_digits (n := m) (by rw [Nat.abs_cast]; exact_mod_cast hm) he
  rw [round, Binary.nearest_coe, Binary.rounded_signum] at hv
  rw [rounded] at hr
  rw [hr, Binary.overflowed_of_lt] at hv
  · exact isFinite_of_value_eq hn hv
  · rwa [Binary.abs_signum_mul s hp, limit_eq]

/-- Shifted to a common exponent, the remainder of two mantissas fits in one of them. -/
theorem mod_lt_digits {m m' : Nat} {e e' : ℤ} (hm : m < 2 ^ 53) (hm' : m' < 2 ^ 53)
    (hp' : 0 < m') :
    (m <<< (e - min e e').toNat) % (m' <<< (e' - min e e').toNat) < 2 ^ 53 := by
  rcases le_total e e' with h | h
  · rw [min_eq_left h, Int.sub_self, Int.toNat_zero, Nat.shiftLeft_zero]
    exact lt_of_le_of_lt (Nat.mod_le _ _) hm
  · rw [min_eq_right h, Int.sub_self, Int.toNat_zero, Nat.shiftLeft_zero]
    exact lt_trans (Nat.mod_lt _ hp') hm'

theorem shiftLeft_at {m : Nat} {e low : ℤ} (h : low ≤ e) :
    ((m <<< (e - low).toNat : Nat) : ℝ) * (2 : ℝ) ^ low = m * (2 : ℝ) ^ e := by
  obtain ⟨k, hk⟩ := Int.eq_ofNat_of_zero_le (sub_nonneg.mpr h)
  rw [hk, Int.toNat_natCast, show low = e - k by omega, Binary.shiftLeft_mul_zpow]

/-- A remainder, with the multiple of the divisor that was taken off. -/
structure IsRemainder (x y r : ℝ) : Prop where
  eq_mul_add : ∃ k : ℤ, x = k * y + r
  lt : |r| < |y|
  le : |r| ≤ |x|
  sign : 0 ≤ x * r

/-- A remainder of a dividend that is not negative is not negative either. -/
theorem IsRemainder.nonneg {x y r : ℝ} (h : IsRemainder x y r) (hx : 0 ≤ x) : 0 ≤ r := by
  rcases eq_or_lt_of_le hx with h0 | hpos
  · have hle := h.le
    rw [← h0, abs_zero] at hle
    exact (abs_nonpos_iff.mp hle).ge
  · exact nonneg_of_mul_nonneg_right h.sign hpos

/-- The remainder of whole multiples of a unit, with the sign of the dividend. -/
theorem isRemainder_mod (s t : Sign) {n d : Nat} {p : ℝ} (hd : 0 < d) (hp : 0 < p) :
    IsRemainder (Binary.signum s * (n * p)) (Binary.signum t * (d * p))
      (Binary.signum s * ((n % d : Nat) * p)) := by
  have hdiv : (n : ℝ) = d * (n / d : Nat) + (n % d : Nat) := by
    exact_mod_cast (Nat.div_add_mod n d).symm
  have hlt : ((n % d : Nat) : ℝ) < d := by exact_mod_cast Nat.mod_lt n hd
  have hle : ((n % d : Nat) : ℝ) ≤ n := by exact_mod_cast Nat.mod_le n d
  refine ⟨?_, ?_, ?_, ?_⟩
  · obtain ⟨a, ha⟩ := Binary.exists_signum s
    obtain ⟨b, hb⟩ := Binary.exists_signum t
    refine ⟨a * b * (n / d : Nat), ?_⟩
    rw [Int.cast_mul, Int.cast_mul, ← ha, ← hb, Int.cast_natCast]
    calc Binary.signum s * (n * p)
        = Binary.signum s * ((d * (n / d : Nat) + (n % d : Nat)) * p) := by rw [← hdiv]
      _ = Binary.signum s * (Binary.signum t * Binary.signum t) * (n / d : Nat) * (d * p) +
            Binary.signum s * ((n % d : Nat) * p) := by
          rw [Binary.signum_mul_self t]
          ring
      _ = _ := by ring
  · rw [Binary.abs_signum_mul s (by positivity), Binary.abs_signum_mul t (by positivity)]
    exact mul_lt_mul_of_pos_right hlt hp
  · rw [Binary.abs_signum_mul s (by positivity), Binary.abs_signum_mul s (by positivity)]
    exact mul_le_mul_of_nonneg_right hle hp.le
  · calc (0 : ℝ) ≤ n * p * ((n % d : Nat) * p) := by positivity
      _ = Binary.signum s * Binary.signum s * (n * p * ((n % d : Nat) * p)) := by
          rw [Binary.signum_mul_self, one_mul]
      _ = _ := by ring

theorem isRemainder_finite (s t : Sign) {m m' : Nat} {e e' : ℤ} (h' : 0 < m') :
    IsRemainder (Binary.signum s * (m * (2 : ℝ) ^ e)) (Binary.signum t * (m' * (2 : ℝ) ^ e'))
      (Binary.signum s * (((m <<< (e - min e e').toNat) % (m' <<< (e' - min e e').toNat) : Nat) *
        (2 : ℝ) ^ min e e')) := by
  rw [← shiftLeft_at (m := m) (min_le_left e e'), ← shiftLeft_at (m := m') (min_le_right e e')]
  exact isRemainder_mod s t (Nat.shiftLeft_pos_iff.mpr h') (zpow_pos (by norm_num) _)

theorem ofParts_remainder {s t : Sign} {m m' : Nat} {e e' : ℤ} {h : 0 < m} {h' : 0 < m'}
    (hc : Binary.IsCanonical Format.binary64 m e) (hc' : Binary.IsCanonical Format.binary64 m' e')
    (hl : |Binary.real (.finite s m e h)| < 2 ^ 1024) {r : Float}
    (hr : r = ofParts s ((m <<< (e - min e e').toNat) % (m' <<< (e' - min e e').toNat))
      (min e e')) :
    IsFinite r ∧ IsRemainder (Binary.real (.finite s m e h)) (Binary.real (.finite t m' e' h'))
      (toReal r) := by
  have hrem := @isRemainder_finite s t m m' e e' h'
  have hmin : -1074 ≤ min e e' := by
    have h₁ := hc.least
    have h₂ := hc'.least
    rw [minExponent_eq] at h₁ h₂
    exact le_min h₁ h₂
  have hlt : ((m <<< (e - min e e').toNat) % (m' <<< (e' - min e e').toNat) : Nat) *
      (2 : ℝ) ^ min e e' < 2 ^ 1024 := by
    have hle := hrem.le
    rw [← Binary.real_finite s m e h, Binary.abs_signum_mul s (by positivity)] at hle
    exact lt_of_le_of_lt hle hl
  obtain ⟨hf, he⟩ := ofParts_exact s (mod_lt_digits hc.lt hc'.lt h') hmin hlt
  rw [hr, he, Binary.real_finite, Binary.real_finite]
  exact ⟨hf, hrem⟩

theorem remainder_finite {x y : Float} (hx : IsFinite x) (hy : IsFinite y) (h0 : toReal y ≠ 0) :
    IsFinite (remainder x y) ∧ IsRemainder (toReal x) (toReal y) (toReal (remainder x y)) := by
  have hxl := lt_of_le_of_lt (abs_toReal_le x) greatest_lt
  rcases hy.unpack_eq with ⟨t, -, hyv⟩ | ⟨t, m', e', h', hv, hc', hyv⟩
  · exact absurd hyv h0
  rcases hx.unpack_eq with ⟨s, hu, hxv⟩ | ⟨s, m, e, h, hu, hc, hxv⟩
  · have hself : remainder x y = x := by
      unfold remainder
      rw [hu, hv]
    rw [hself, hxv]
    refine ⟨hx, ⟨0, by rw [Int.cast_zero, zero_mul, zero_add]⟩, ?_, le_rfl, by rw [zero_mul]⟩
    rw [abs_zero]
    exact abs_pos.mpr h0
  · have hparts : remainder x y =
        ofParts s ((m <<< (e - min e e').toNat) % (m' <<< (e' - min e e').toNat)) (min e e') := by
      unfold remainder
      rw [hu, hv]
    rw [hxv] at hxl
    rw [hxv, hyv]
    exact ofParts_remainder hc hc' hxl hparts

/-! ## The remainder from below -/

theorem remainderUp_eq (x y : Float) : Scalar.remainderUp x y =
    if remainder x y < Float.ofInt 0 then remainder x y + y.abs else remainder x y := rfl

theorem ofInt_zero : IsFinite (Float.ofInt 0) ∧ toReal (Float.ofInt 0) = 0 := by
  have h := ofInt_finite (n := 0) (by norm_num)
  rwa [Int.cast_zero] at h

/-- Brought up, the remainder lies between zero and the divisor.  It is exact for a dividend
that is not negative, and otherwise off by the rounding of one sum. -/
theorem remainderUp_finite {x y : Float} (hx : IsFinite x) (hy : IsFinite y)
    (hp : 0 < toReal y) :
    IsFinite (Scalar.remainderUp x y) ∧ 0 ≤ toReal (Scalar.remainderUp x y) ∧
      toReal (Scalar.remainderUp x y) ≤ toReal y ∧
      ∃ k : ℤ, |toReal x - k * toReal y - toReal (Scalar.remainderUp x y)| ≤
          toReal y * ulp ∧
        (0 ≤ toReal x → toReal x = k * toReal y + toReal (Scalar.remainderUp x y)) := by
  have hu : 0 ≤ toReal y * ulp := mul_nonneg hp.le (by unfold ulp; positivity)
  obtain ⟨hr, hrem⟩ := remainder_finite hx hy hp.ne'
  obtain ⟨k, hk⟩ := hrem.eq_mul_add
  have hlt := hrem.lt
  obtain ⟨ha, hav⟩ := abs_finite hy
  rw [abs_of_pos hp] at hlt hav
  obtain ⟨hlow, hhigh⟩ := abs_lt.mp hlt
  rw [remainderUp_eq]
  split_ifs with hneg
  · rw [lt_iff_toReal hr ofInt_zero.1, ofInt_zero.2] at hneg
    have hpos : 0 < toReal (remainder x y) + toReal y := by linarith
    have hsum : toReal (remainder x y) + toReal y ≤ toReal y := by linarith
    have hmax : |toReal (remainder x y) + toReal y.abs| ≤ greatest := by
      rw [hav, abs_of_pos hpos]
      exact hsum.trans ((le_abs_self _).trans (abs_toReal_le y))
    obtain ⟨hf, hv⟩ := add_finite hr ha hmax
    have herr := abs_add_error (remainder x y) y.abs
    rw [hav, abs_of_pos hpos, ← hav, ← hv, hav] at herr
    rw [hav] at hv
    refine ⟨hf, ?_, ?_, k - 1, ?_, ?_⟩
    · have := rounded_mono hpos.le
      rwa [rounded_zero, ← hv] at this
    · have := rounded_mono hsum
      rwa [rounded_toReal hy, ← hv] at this
    · have he : toReal x - (k - 1 : ℤ) * toReal y - toReal (remainder x y + y.abs) =
          -(toReal (remainder x y + y.abs) - (toReal (remainder x y) + toReal y)) := by
        rw [hk]
        push_cast
        ring
      rw [he, abs_neg]
      refine herr.trans (mul_le_mul_of_nonneg_right hsum ?_)
      unfold ulp
      positivity
    · intro h0
      exact absurd (hrem.nonneg h0) (not_le.mpr hneg)
  · rw [lt_iff_toReal hr ofInt_zero.1, ofInt_zero.2, not_lt] at hneg
    refine ⟨hr, hneg, hhigh.le, k, ?_, fun _ => hk⟩
    rw [hk, add_sub_cancel_left, sub_self, abs_zero]
    exact hu

end Double
end Seismic
