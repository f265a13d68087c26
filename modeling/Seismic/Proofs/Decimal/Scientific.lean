import Seismic.Decimal.Text
import Seismic.Proofs.Double.Moderate
import Seismic.Proofs.Double.Order

/-!
# Decimals as 64-bit numbers

A decimal is read as the number nearest to it.  Few digits and small exponents take a short
way, one operation with a power of ten that the format holds; all others are rounded once from
an exact product or quotient.
-/

namespace Seismic
namespace Double

open Float.Model

/-! ## Powers of ten -/

/-- A power of ten has as many binary digits as that power of five. -/
theorem rounded_ten_pow {k : Nat} (hk : k ≤ 22) : rounded ((10 : ℝ) ^ k) = 10 ^ k := by
  have hten : (10 : ℝ) ^ k = ((5 ^ k : ℤ) : ℝ) * (2 : ℝ) ^ (k : ℤ) := by
    rw [zpow_natCast]
    push_cast
    rw [← mul_pow]
    norm_num
  have hlt : |(5 : ℤ) ^ k| < 2 ^ 53 := by
    rw [abs_of_pos (by positivity)]
    calc (5 : ℤ) ^ k ≤ 5 ^ 22 := pow_le_pow_right₀ (by norm_num) hk
      _ < 2 ^ 53 := by norm_num
  rw [hten]
  exact rounded_digits hlt (by omega)

theorem powerOfTen_eq : ∀ k : Fin 23,
    getElem Float.exactlyRepresentablePowersOfTen k.val k.isLt = Float.ofNat (10 ^ k.val) := by
  decide +kernel

theorem powerOfTen_finite {k : Nat} (hk : k ≤ 22)
    (h : k < Float.exactlyRepresentablePowersOfTen.size) :
    IsFinite Float.exactlyRepresentablePowersOfTen[k] ∧
      toReal Float.exactlyRepresentablePowersOfTen[k] = 10 ^ k := by
  have hpower : Float.exactlyRepresentablePowersOfTen[k] = Float.ofNat (10 ^ k) :=
    powerOfTen_eq ⟨k, by omega⟩
  rw [hpower]
  obtain ⟨hn, hv⟩ := ofNat_spec (10 ^ k)
  have hle : |((10 ^ k : ℕ) : ℝ)| ≤ greatest := by
    rw [Nat.abs_cast]
    refine le_greatest 88 (by norm_num) ?_
    push_cast
    calc (10 : ℝ) ^ k ≤ 10 ^ 22 := pow_le_pow_right₀ (by norm_num) hk
      _ ≤ 2 ^ 88 := by norm_num
  rw [round_coe hle] at hv
  rw [Nat.cast_pow, Nat.cast_ofNat, rounded_ten_pow hk] at hv
  exact isFinite_of_value_eq hn hv

/-! ## Nearest numbers -/

theorem ofScientific_zero (e : ℤ) :
    UnpackedFloat.ofScientific Format.binary64 0 e = .zero .positive := by
  unfold UnpackedFloat.ofScientific
  exact dif_pos rfl

/-- A fraction over a power of ten is rounded from the quotient. -/
theorem ofScientific_quotient {m k : Nat} (hm : m ≠ 0) (h0 : 0 < k) (hk : k ≤ 2048) :
    Binary.Yields Format.binary64 (UnpackedFloat.ofScientific Format.binary64 m (Int.negOfNat k))
      ((m : ℝ) / 10 ^ k : ℝ) := by
  have hneg : Int.negOfNat k = -(k : ℤ) := Int.negOfNat_eq
  have hten : 0 < 10 ^ k := Nat.pow_pos (by norm_num)
  have heq : UnpackedFloat.ofScientific Format.binary64 m (Int.negOfNat k) =
      UnpackedFloat.div Format.binary64 (.finite .positive m 0 (Nat.pos_of_ne_zero hm))
        (.finite .positive (10 ^ k) 0 hten) := by
    unfold UnpackedFloat.ofScientific
    rw [dif_neg hm, if_neg ?_, if_neg ?_, if_neg (by omega)]
    · simp only [hneg, neg_neg, Int.toNat_natCast]
    · show ¬ Int.negOfNat k < -(2 ^ 11 + m.log2)
      omega
    · show ¬ Int.negOfNat k > 2 ^ 11
      omega
  have hr : Binary.Yields Format.binary64 (UnpackedFloat.div Format.binary64
      (.finite .positive m 0 (Nat.pos_of_ne_zero hm)) (.finite .positive (10 ^ k) 0 hten)) _ :=
    Binary.div_finite_yields one_lt_exponentBits (Nat.pos_of_ne_zero hm) hten
  rw [Binary.real_finite, Binary.real_finite, Binary.signum, one_mul, one_mul, zpow_zero, mul_one,
    mul_one] at hr
  push_cast at hr
  rw [heq]
  exact hr

theorem ofScientific_up_spec (m : Nat) {k : Nat} (hk : k ≤ 2048) :
    IsNumber (Float.ofScientific m false k) ∧
      value (Float.ofScientific m false k) = round ((m : ℝ) * 10 ^ k : ℝ) := by
  by_cases hshort : m < 2 ^ 53 ∧ k ≤ 22
  · obtain ⟨hf, hv⟩ := toFloat_finite hshort.1
    have hsize : k < Float.exactlyRepresentablePowersOfTen.size := Nat.lt_succ_of_le hshort.2
    obtain ⟨hpf, hpv⟩ := powerOfTen_finite hshort.2 hsize
    obtain ⟨hn, hm⟩ := mul_spec hf hpf
    rw [hv, hpv] at hm
    unfold Float.ofScientific
    rw [dif_pos hshort]
    exact ⟨hn, hm⟩
  · rw [ofScientific_eq_of_not_short false hshort]
    by_cases hm : m = 0
    · rw [hm, ofScientific_zero, Nat.cast_zero, zero_mul]
      have h : Binary.Yields Format.binary64 (.zero .positive) (0 : ℝ) := Binary.yields_zero _
      exact ⟨h.isNumber, h.value_eq⟩
    · have h := ofScientific_product hm hk
      exact ⟨h.isNumber, h.value_eq⟩

theorem ofScientific_down_spec (m : Nat) {k : Nat} (h0 : 0 < k) (hk : k ≤ 2048) :
    IsNumber (Float.ofScientific m true k) ∧
      value (Float.ofScientific m true k) = round ((m : ℝ) / 10 ^ k : ℝ) := by
  by_cases hshort : m < 2 ^ 53 ∧ k ≤ 22
  · obtain ⟨hf, hv⟩ := toFloat_finite hshort.1
    have hsize : k < Float.exactlyRepresentablePowersOfTen.size := Nat.lt_succ_of_le hshort.2
    obtain ⟨hpf, hpv⟩ := powerOfTen_finite hshort.2 hsize
    obtain ⟨hn, hm⟩ := div_spec hf.isNumber hpf (by rw [hpv]; positivity)
    rw [value_of_isFinite hf, value_of_isFinite hpf, hv, hpv, ← EReal.coe_div] at hm
    unfold Float.ofScientific
    rw [dif_pos hshort]
    exact ⟨hn, hm⟩
  · rw [ofScientific_eq_of_not_short true hshort]
    by_cases hm : m = 0
    · rw [hm, ofScientific_zero, Nat.cast_zero, zero_div]
      have h : Binary.Yields Format.binary64 (.zero .positive) (0 : ℝ) := Binary.yields_zero _
      exact ⟨h.isNumber, h.value_eq⟩
    · have h := ofScientific_quotient hm h0 hk
      exact ⟨h.isNumber, h.value_eq⟩

/-- Beyond the range of exponents there is nothing but zero and infinity. -/
theorem ofScientific_far {m k : Nat} (hk : 2048 < k) :
    ¬(IsFinite (Float.ofScientific m false k) ∧ toReal (Float.ofScientific m false k) ≠ 0) := by
  rw [ofScientific_eq_of_not_short false (by omega)]
  by_cases hm : m = 0
  · rw [hm, ofScientific_zero]
    rintro ⟨-, h0⟩
    have hu : UnpackedFloat.unpack Format.binary64
        (UnpackedFloat.pack Format.binary64 (.zero .positive)) = .zero .positive :=
      Binary.unpack_pack_zero _
    exact h0 (congrArg Binary.real hu)
  · have heq : UnpackedFloat.ofScientific Format.binary64 m (Int.ofNat k) = .infinity .positive := by
      unfold UnpackedFloat.ofScientific
      rw [dif_neg hm]
      refine if_pos ?_
      show (k : ℤ) > 2 ^ 11
      omega
    rintro ⟨hf, -⟩
    have hu : UnpackedFloat.unpack Format.binary64
        (UnpackedFloat.pack Format.binary64 (.infinity .positive)) = .infinity .positive :=
      Binary.unpack_pack_infinity _
    have hf' : (UnpackedFloat.unpack Format.binary64 (UnpackedFloat.pack Format.binary64
      (UnpackedFloat.ofScientific Format.binary64 m (Int.ofNat k)))).isFinite = true := hf
    rw [heq, hu] at hf'
    cases hf'

end Double
end Seismic
