import Seismic.Proofs.Double.Arithmetic

/-!
# Results of moderate size

An exact result up to the greatest finite number is rounded to a finite number, and rounding
moves it by at most one part in `2 ^ 53` of its size, or half of the least positive number.
The second part does not matter for sums, which are multiples of the least number.  Integers
of at most 53 digits are kept.
-/

namespace Seismic
namespace Double

open Float.Model

/-! ## Rounded real numbers -/

theorem rounded_mono {x y : ℝ} (h : x ≤ y) : rounded x ≤ rounded y :=
  Binary.rounded_mono Format.binary64 h

theorem rounded_zero : rounded 0 = 0 := Binary.rounded_zero Format.binary64

theorem rounded_nonneg {x : ℝ} (h : 0 ≤ x) : 0 ≤ rounded x :=
  Binary.rounded_nonneg Format.binary64 h

theorem rounded_neg (x : ℝ) : rounded (-x) = -rounded x := Binary.rounded_neg Format.binary64 x

theorem minExponent_eq : Format.binary64.minExponent = -1074 := by decide

theorem rounded_digits {n e : ℤ} (hn : |n| < 2 ^ 53) (he : -1074 ≤ e) :
    rounded (n * (2 : ℝ) ^ e) = n * (2 : ℝ) ^ e :=
  Binary.rounded_digits Format.binary64 hn (by rwa [minExponent_eq])

theorem rounded_intCast {n : ℤ} (hn : |n| < 2 ^ 53) : rounded n = n := by
  have h := rounded_digits (e := 0) hn (by norm_num)
  rwa [zpow_zero, mul_one] at h

theorem rounded_two_zpow {e : ℤ} (he : -1074 ≤ e) : rounded ((2 : ℝ) ^ e) = (2 : ℝ) ^ e := by
  have h := rounded_digits (n := 1) (e := e) (by norm_num) he
  rwa [Int.cast_one, one_mul] at h

/-- The part of its size by which rounding moves a number at most. -/
noncomputable def ulp : ℝ := 1 / 2 ^ 53

/-- Half of the least positive number. -/
noncomputable def tiny : ℝ := (2 : ℝ) ^ (-1075 : ℤ)

theorem tiny_le : tiny ≤ 1 / 2 ^ 100 := by
  rw [tiny, one_div, ← zpow_natCast, ← zpow_neg]
  exact zpow_le_zpow_right₀ (by norm_num) (by norm_num)

theorem abs_rounded_sub_le (x : ℝ) : |rounded x - x| ≤ |x| * ulp + tiny := by
  have h := Binary.abs_rounded_sub_le_rel Format.binary64 x
  have ht : tiny = (2 : ℝ) ^ (-1074 : ℤ) / 2 := by
    rw [tiny, show (-1075 : ℤ) = -1074 - 1 by norm_num, zpow_sub_one₀ (by norm_num)]
    ring
  rw [minExponent_eq] at h
  rw [ht, ulp, mul_one_div]
  exact h

theorem abs_rounded_sub_le_of_grid {x : ℝ} {n : ℤ} (h : x = n * (2 : ℝ) ^ (-1074 : ℤ)) :
    |rounded x - x| ≤ |x| * ulp := by
  rw [ulp, mul_one_div]
  exact Binary.abs_rounded_sub_le_of_grid Format.binary64 (by rwa [minExponent_eq])

theorem limit_eq : Binary.limit Format.binary64 = 2 ^ 1024 := rfl

/-- The greatest finite number. -/
noncomputable def greatest : ℝ := (2 ^ 53 - 1) * (2 : ℝ) ^ (971 : ℤ)

theorem greatest_lt : greatest < 2 ^ 1024 := by
  have hp : (0 : ℝ) < (2 : ℝ) ^ (971 : ℤ) := zpow_pos (by norm_num) _
  calc greatest < 2 ^ 53 * (2 : ℝ) ^ (971 : ℤ) := mul_lt_mul_of_pos_right (by norm_num) hp
    _ = 2 ^ 1024 := by rw [← zpow_natCast, ← zpow_natCast, ← zpow_add₀ (by norm_num)]; rfl

theorem le_greatest {x : ℝ} (k : ℕ) (hk : k ≤ 1023) (h : x ≤ 2 ^ k) : x ≤ greatest := by
  have hp : (0 : ℝ) < (2 : ℝ) ^ (971 : ℤ) := zpow_pos (by norm_num) _
  calc x ≤ 2 ^ k := h
    _ ≤ 2 ^ 1023 := pow_le_pow_right₀ (by norm_num) hk
    _ = 2 ^ 52 * (2 : ℝ) ^ (971 : ℤ) := by
        rw [← zpow_natCast, ← zpow_natCast, ← zpow_add₀ (by norm_num)]; rfl
    _ ≤ greatest := mul_le_mul_of_nonneg_right (by norm_num) hp.le

theorem rounded_greatest : rounded greatest = greatest := by
  have h := rounded_digits (n := 2 ^ 53 - 1) (e := 971) (by norm_num) (by norm_num)
  rwa [Int.cast_sub, Int.cast_pow, Int.cast_ofNat, Int.cast_one] at h

theorem toReal_digits (x : Float) : ∃ n e : ℤ, |n| < 2 ^ 53 ∧ -1074 ≤ e ∧ e ≤ 971 ∧
    toReal x = n * (2 : ℝ) ^ e := by
  have hform := inFormat x
  have hreal : toReal x = Binary.real x.toModel.unpack := rfl
  cases hu : x.toModel.unpack with
  | finite s m e h =>
    rw [hu] at hreal hform
    obtain ⟨hc, hf⟩ := hform
    have hm : m < 2 ^ 53 := hc.lt
    have he : -1074 ≤ e := by
      have := hc.least
      rwa [minExponent_eq] at this
    have hf' : e + (53 : ℕ) ≤ (1024 : ℕ) := hf
    refine ⟨s.apply m, e, ?_, he, by omega, hreal⟩
    cases s
    · show |-(m : ℤ)| < 2 ^ 53
      rw [abs_neg, Nat.abs_cast]
      exact_mod_cast hm
    · show |(m : ℤ)| < 2 ^ 53
      rw [Nat.abs_cast]
      exact_mod_cast hm
  | _ =>
    rw [hu] at hreal
    have h0 : toReal x = 0 := hreal
    exact ⟨0, 0, by norm_num, by norm_num, by norm_num, by rw [h0, Int.cast_zero, zero_mul]⟩

theorem abs_toReal_le (x : Float) : |toReal x| ≤ greatest := by
  obtain ⟨n, e, hn, -, he, hx⟩ := toReal_digits x
  have hn' : |(n : ℝ)| ≤ 2 ^ 53 - 1 := by
    have : |n| ≤ 2 ^ 53 - 1 := by omega
    exact_mod_cast this
  rw [hx, abs_mul, abs_of_pos (zpow_pos (by norm_num : (0 : ℝ) < 2) e)]
  exact mul_le_mul hn' (zpow_le_zpow_right₀ (by norm_num) he) (zpow_pos (by norm_num) e).le
    (by norm_num)

/-- Every finite number is a multiple of the least positive one. -/
theorem toReal_grid (x : Float) : ∃ n : ℤ, toReal x = n * (2 : ℝ) ^ (-1074 : ℤ) := by
  obtain ⟨n, e, -, he, -, hx⟩ := toReal_digits x
  obtain ⟨k, hk⟩ := Int.eq_ofNat_of_zero_le (show 0 ≤ e - -1074 by omega)
  refine ⟨n * 2 ^ k, ?_⟩
  rw [hx, show e = k + -1074 by omega, zpow_add₀ (by norm_num), zpow_natCast]
  push_cast
  ring

/-- A number that is not below a power of two has no digit 53 places below it. -/
theorem toReal_digits_of_le {x : Float} {k : ℤ} (h : (2 : ℝ) ^ k ≤ |toReal x|) :
    ∃ n e : ℤ, |n| < 2 ^ 53 ∧ k - 52 ≤ e ∧ toReal x = n * (2 : ℝ) ^ e := by
  obtain ⟨n, e, hn, -, -, hx⟩ := toReal_digits x
  refine ⟨n, e, hn, ?_, hx⟩
  by_contra hlt
  have hp : (2 : ℝ) ^ e ≤ (2 : ℝ) ^ (k - 53) := zpow_le_zpow_right₀ (by norm_num) (by omega)
  have hn' : |(n : ℝ)| < 2 ^ 53 := by exact_mod_cast hn
  have : |toReal x| < (2 : ℝ) ^ k := by
    rw [hx, abs_mul, abs_of_pos (zpow_pos (by norm_num : (0 : ℝ) < 2) e)]
    calc |(n : ℝ)| * (2 : ℝ) ^ e ≤ |(n : ℝ)| * (2 : ℝ) ^ (k - 53) :=
          mul_le_mul_of_nonneg_left hp (abs_nonneg _)
      _ < 2 ^ 53 * (2 : ℝ) ^ (k - 53) := mul_lt_mul_of_pos_right hn' (zpow_pos (by norm_num) _)
      _ = (2 : ℝ) ^ k := by
          rw [← zpow_natCast, ← zpow_add₀ (by norm_num)]
          congr 1
          push_cast
          ring
  linarith

theorem toReal_grid_of_le {x : Float} {k : ℤ} (h : (2 : ℝ) ^ k ≤ |toReal x|) :
    ∃ n : ℤ, toReal x = n * (2 : ℝ) ^ (k - 52) := by
  obtain ⟨n, e, -, he, hx⟩ := toReal_digits_of_le h
  obtain ⟨j, hj⟩ := Int.eq_ofNat_of_zero_le (show 0 ≤ e - (k - 52) by omega)
  refine ⟨n * 2 ^ j, ?_⟩
  rw [hx, show e = j + (k - 52) by omega, zpow_add₀ (by norm_num), zpow_natCast]
  push_cast
  ring

theorem abs_rounded_le {x : ℝ} (h : |x| ≤ greatest) : |rounded x| ≤ greatest := by
  obtain ⟨h₁, h₂⟩ := abs_le.mp h
  have h₁' := rounded_mono h₁
  have h₂' := rounded_mono h₂
  rw [rounded_neg, rounded_greatest] at h₁'
  rw [rounded_greatest] at h₂'
  exact abs_le.mpr ⟨h₁', h₂'⟩

theorem round_coe {x : ℝ} (h : |x| ≤ greatest) : round x = (rounded x : ℝ) := by
  rw [round, Binary.nearest_coe]
  refine Binary.overflowed_of_lt (lt_of_le_of_lt (abs_rounded_le h) ?_)
  rw [limit_eq]
  exact greatest_lt

theorem rounded_toReal {x : Float} (h : IsFinite x) : rounded (toReal x) = toReal x := by
  have hv := round_value x
  rw [value_of_isFinite h, round_coe (abs_toReal_le x), EReal.coe_eq_coe_iff] at hv
  exact hv

/-! ## Finite results -/

theorem add_finite {x y : Float} (hx : IsFinite x) (hy : IsFinite y)
    (h : |toReal x + toReal y| ≤ greatest) :
    IsFinite (x + y) ∧ toReal (x + y) = rounded (toReal x + toReal y) := by
  obtain ⟨hn, hv⟩ := add_spec hx.isNumber hy
  rw [value_of_isFinite hx, value_of_isFinite hy, ← EReal.coe_add, round_coe h] at hv
  exact isFinite_of_value_eq hn hv

theorem sub_finite {x y : Float} (hx : IsFinite x) (hy : IsFinite y)
    (h : |toReal x - toReal y| ≤ greatest) :
    IsFinite (x - y) ∧ toReal (x - y) = rounded (toReal x - toReal y) := by
  obtain ⟨hn, hv⟩ := sub_spec hx.isNumber hy
  rw [value_of_isFinite hx, value_of_isFinite hy, ← EReal.coe_sub, round_coe h] at hv
  exact isFinite_of_value_eq hn hv

/-- Sums are multiples of the least positive number, and so are differences. -/
theorem abs_add_error (x y : Float) :
    |rounded (toReal x + toReal y) - (toReal x + toReal y)| ≤ |toReal x + toReal y| * ulp := by
  obtain ⟨n, hn⟩ := toReal_grid x
  obtain ⟨k, hk⟩ := toReal_grid y
  refine abs_rounded_sub_le_of_grid (n := n + k) ?_
  rw [hn, hk]
  push_cast
  ring

theorem abs_sub_error (x y : Float) :
    |rounded (toReal x - toReal y) - (toReal x - toReal y)| ≤ |toReal x - toReal y| * ulp := by
  obtain ⟨n, hn⟩ := toReal_grid x
  obtain ⟨k, hk⟩ := toReal_grid y
  refine abs_rounded_sub_le_of_grid (n := n - k) ?_
  rw [hn, hk]
  push_cast
  ring

theorem mul_finite {x y : Float} (hx : IsFinite x) (hy : IsFinite y)
    (h : |toReal x * toReal y| ≤ greatest) :
    IsFinite (x * y) ∧ toReal (x * y) = rounded (toReal x * toReal y) := by
  obtain ⟨hn, hv⟩ := mul_spec hx hy
  rw [round_coe h] at hv
  exact isFinite_of_value_eq hn hv

theorem div_finite {x y : Float} (hx : IsFinite x) (hy : IsFinite y) (h0 : toReal y ≠ 0)
    (h : |toReal x / toReal y| ≤ greatest) :
    IsFinite (x / y) ∧ toReal (x / y) = rounded (toReal x / toReal y) := by
  obtain ⟨hn, hv⟩ := div_spec hx.isNumber hy h0
  rw [value_of_isFinite hx, value_of_isFinite hy, ← EReal.coe_div, round_coe h] at hv
  exact isFinite_of_value_eq hn hv

/-- The result of an operation is the rounded exact result if it is finite. -/
theorem toReal_of_round {x : Float} {r : ℝ} (hx : IsFinite x) (hv : value x = round r) :
    toReal x = rounded r := by
  rw [value_of_isFinite hx, round, Binary.nearest_coe, Binary.overflowed] at hv
  by_cases h₁ : Binary.limit Format.binary64 ≤ Binary.rounded Format.binary64 r
  · rw [if_pos h₁] at hv
    exact absurd hv (EReal.coe_ne_top _)
  · rw [if_neg h₁] at hv
    by_cases h₂ : Binary.rounded Format.binary64 r ≤ -Binary.limit Format.binary64
    · rw [if_pos h₂] at hv
      exact absurd hv (EReal.coe_ne_bot _)
    · rw [if_neg h₂, EReal.coe_eq_coe_iff] at hv
      exact hv

theorem toReal_sub {x y : Float} (h : IsFinite (x - y)) :
    toReal (x - y) = rounded (toReal x - toReal y) := by
  refine toReal_of_round h ?_
  rw [(sub_spec h.of_sub.1.isNumber h.of_sub.2).2, value_of_isFinite h.of_sub.1,
    value_of_isFinite h.of_sub.2, EReal.coe_sub]

theorem toReal_sub_pos {x y : Float} (h : y < x) (hf : IsFinite (x - y)) : 0 < toReal (x - y) := by
  have hlt := (lt_iff_toReal hf.of_sub.2 hf.of_sub.1).mp h
  have herr := (abs_le.mp (abs_sub_error x y)).1
  rw [← toReal_sub hf, abs_of_pos (sub_pos.mpr hlt), ulp] at herr
  linarith

theorem toReal_div {x y : Float} (h : IsFinite (x / y)) (hy : IsFinite y) (h0 : toReal y ≠ 0) :
    toReal (x / y) = rounded (toReal x / toReal y) := by
  refine toReal_of_round h ?_
  rw [(div_spec h.of_div.isNumber hy h0).2, value_of_isFinite h.of_div, value_of_isFinite hy,
    EReal.coe_div]

theorem neg_finite {x : Float} (hx : IsFinite x) : IsFinite (-x) ∧ toReal (-x) = -toReal x := by
  obtain ⟨hn, hv⟩ := neg_spec hx.isNumber
  rw [value_of_isFinite hx, ← EReal.coe_neg] at hv
  exact isFinite_of_value_eq hn hv

theorem abs_finite {x : Float} (hx : IsFinite x) :
    IsFinite x.abs ∧ toReal x.abs = |toReal x| := by
  have hu : x.abs.toModel.unpack = x.toModel.unpack.abs :=
    Binary.unpack_pack (Binary.inFormat_abs (inFormat x))
  have habs : toReal x.abs = Binary.real x.toModel.unpack.abs := congrArg Binary.real hu
  show x.abs.toModel.unpack.isFinite = true ∧ _
  rw [hu, habs]
  rcases hx.unpack_eq with ⟨s, hc, h0⟩ | ⟨s, m, e, h, hc, -, hv⟩
  · rw [hc, h0, abs_zero]
    exact ⟨rfl, rfl⟩
  · rw [hc, hv]
    refine ⟨rfl, ?_⟩
    rw [UnpackedFloat.abs, Binary.real_finite, Binary.real_finite, Binary.signum, one_mul,
      Binary.abs_signum_mul s (Binary.magnitude_pos e h).le]

theorem abs_spec {x : Float} (hx : IsNumber x) :
    IsNumber x.abs ∧ value x.abs = max (value x) (-value x) := by
  have hu : x.abs.toModel.unpack = x.toModel.unpack.abs :=
    Binary.unpack_pack (Binary.inFormat_abs (inFormat x))
  rcases Binary.isFinite_or_infinity hx with hf | hi | hi
  · obtain ⟨ha, hav⟩ := abs_finite hf
    refine ⟨ha.isNumber, ?_⟩
    rw [value_of_isFinite ha, value_of_isFinite hf, hav, ← EReal.coe_neg]
    exact EReal.coe_strictMono.monotone.map_max
  · rw [hi] at hu
    refine ⟨by rw [IsNumber, hu]; exact UnpackedFloat.noConfusion, ?_⟩
    rw [value, value, hu, hi]
    exact (max_eq_left le_top).symm
  · rw [hi] at hu
    refine ⟨by rw [IsNumber, hu]; exact UnpackedFloat.noConfusion, ?_⟩
    rw [value, value, hu, hi]
    exact (max_eq_right bot_le).symm

/-! ## Integers -/

theorem ofUInt64_spec (n : UInt64) :
    IsNumber n.toFloat ∧ value n.toFloat = round (n.toNat : ℝ) := by
  have h := Binary.normalize_yields one_lt_exponentBits (n.toNat : ℤ) 0 .positive
  rw [zpow_zero, mul_one, Int.cast_natCast] at h
  exact ⟨h.isNumber, h.value_eq⟩

theorem unpack_one : (Float.ofBits 0x3FF0000000000000).toModel.unpack =
    .finite .positive (2 ^ 52) (-52) (by decide) := rfl

theorem one_finite : IsFinite (Float.ofBits 0x3FF0000000000000) ∧
    toReal (Float.ofBits 0x3FF0000000000000) = 1 := by
  refine ⟨rfl, ?_⟩
  rw [toReal, unpack_one, Binary.real_finite, Binary.signum]
  norm_num

theorem toFloat_finite {m : Nat} (h : m < 2 ^ 53) :
    IsFinite m.toUInt64.toFloat ∧ toReal m.toUInt64.toFloat = m := by
  have hm : m.toUInt64.toNat = m := by
    rw [Nat.toUInt64, UInt64.toNat_ofNat', Nat.mod_eq_of_lt (lt_trans h (by norm_num))]
  have hr : rounded (m : ℝ) = m := by
    have := rounded_intCast (n := m) (by rw [Nat.abs_cast]; exact_mod_cast h)
    rwa [Int.cast_natCast] at this
  have hle : |(m : ℝ)| ≤ greatest := by
    rw [Nat.abs_cast]
    exact le_greatest 53 (by norm_num) (by exact_mod_cast h.le)
  obtain ⟨hn, hv⟩ := ofUInt64_spec m.toUInt64
  rw [hm, round_coe hle, hr] at hv
  exact isFinite_of_value_eq hn hv

theorem ofNat_of_lt {n : Nat} (h : n < 2 ^ 53) :
    IsNumber (Float.ofNat n) ∧ value (Float.ofNat n) = round (n : ℝ) := by
  obtain ⟨hf, hv⟩ := toFloat_finite h
  have heq : Float.ofNat n = n.toUInt64.toFloat * Float.ofBits 0x3FF0000000000000 := by
    show Float.ofScientific n false 0 = _
    unfold Float.ofScientific
    rw [dif_pos ⟨h, by decide⟩]
    rfl
  obtain ⟨hm, hmv⟩ := mul_spec hf one_finite.1
  rw [hv, one_finite.2, mul_one] at hmv
  rw [heq]
  exact ⟨hm, hmv⟩

theorem ofScientific_eq_of_not_short {m k : Nat} (s : Bool) (h : ¬(m < 2 ^ 53 ∧ k ≤ 22)) :
    Float.ofScientific m s k = .ofModel (.pack (UnpackedFloat.ofScientific Format.binary64 m
      (if s then Int.negOfNat k else Int.ofNat k))) := by
  unfold Float.ofScientific
  rw [dif_neg h]
  rfl

/-- A multiple of a power of ten is rounded from a mantissa with zeros behind it. -/
theorem ofScientific_product {m k : Nat} (hm : m ≠ 0) (hk : k ≤ 2048) :
    Binary.Yields Format.binary64 (UnpackedFloat.ofScientific Format.binary64 m (Int.ofNat k))
      ((m : ℝ) * 10 ^ k : ℝ) := by
  have heq : UnpackedFloat.ofScientific Format.binary64 m (Int.ofNat k) =
      UnpackedFloat.roundWithAccuracy Format.binary64 .positive (m <<< 53 * 10 ^ k) (-53 + 0)
        .exact := by
    unfold UnpackedFloat.ofScientific
    rw [dif_neg hm, if_neg ?_, if_neg ?_, if_pos (show 0 ≤ Int.ofNat k from Int.natCast_nonneg k)]
    · rfl
    · show ¬ (k : ℤ) < -(2 ^ 11 + m.log2)
      omega
    · show ¬ (k : ℤ) > 2 ^ 11
      omega
  have hpos : 0 < m <<< 53 * 10 ^ k :=
    Nat.mul_pos (Nat.shiftLeft_pos_iff.mpr (Nat.pos_of_ne_zero hm)) (Nat.pow_pos (by norm_num))
  have hx : ((m <<< 53 * 10 ^ k : ℕ) : ℝ) * (2 : ℝ) ^ (-53 + 0 : ℤ) = m * 10 ^ k := by
    have hs := Binary.shiftLeft_mul_zpow m 53 0
    rw [zpow_zero, mul_one] at hs
    rw [Nat.cast_mul, Nat.cast_pow, Nat.cast_ofNat, mul_right_comm,
      show (-53 + 0 : ℤ) = 0 - (53 : ℕ) by norm_num, hs]
  have hone : (1 : ℝ) ≤ m * 10 ^ k := by
    exact_mod_cast Nat.mul_pos (Nat.pos_of_ne_zero hm) (Nat.pow_pos (by norm_num))
  have hlog : 0 ≤ Int.log 2 ((m : ℝ) * 10 ^ k) := by
    rw [← Int.zpow_le_iff_le_log (by norm_num) (by linarith)]
    simpa using hone
  have hp : Format.binary64.mantissaBits = 53 := rfl
  have hg : (-53 + 0 : ℤ) ≤ Binary.grain Format.binary64
      (((m <<< 53 * 10 ^ k : ℕ) : ℝ) * (2 : ℝ) ^ (-53 + 0 : ℤ)) := by
    rw [hx, Binary.grain_eq, abs_of_pos (by linarith)]
    omega
  have hr := (Binary.roundWithAccuracy_isRounded .positive
    (Binary.Locates.exact (m <<< 53 * 10 ^ k)) (by exact_mod_cast hpos) hg).yields
    one_lt_exponentBits
  rw [hx, Binary.signum, one_mul] at hr
  rw [heq]
  exact hr

theorem ofNat_of_le {n : Nat} (h : 2 ^ 53 ≤ n) :
    IsNumber (Float.ofNat n) ∧ value (Float.ofNat n) = round (n : ℝ) := by
  have heq : Float.ofNat n =
      .ofModel (.pack (UnpackedFloat.ofScientific Format.binary64 n (Int.ofNat 0))) :=
    ofScientific_eq_of_not_short false (by omega)
  have hr := ofScientific_product (m := n) (k := 0) (by omega) (by norm_num)
  rw [pow_zero, mul_one] at hr
  rw [heq]
  exact ⟨hr.isNumber, hr.value_eq⟩

theorem ofNat_spec (n : Nat) :
    IsNumber (Float.ofNat n) ∧ value (Float.ofNat n) = round (n : ℝ) := by
  rcases Nat.lt_or_ge n (2 ^ 53) with h | h
  · exact ofNat_of_lt h
  · exact ofNat_of_le h

theorem ofInt_spec (n : ℤ) : IsNumber (Float.ofInt n) ∧ value (Float.ofInt n) = round (n : ℝ) := by
  cases n with
  | ofNat n => exact ofNat_spec n
  | negSucc n =>
    obtain ⟨hn, hv⟩ := ofNat_spec (n + 1)
    obtain ⟨hn', hv'⟩ := neg_spec hn
    refine ⟨hn', hv'.trans ?_⟩
    rw [hv, Int.cast_negSucc, EReal.coe_neg, round, round, Binary.nearest_neg]

theorem ofInt_rounded {n : ℤ} (h : |(n : ℝ)| ≤ greatest) :
    IsFinite (Float.ofInt n) ∧ toReal (Float.ofInt n) = rounded n := by
  obtain ⟨hn, hv⟩ := ofInt_spec n
  rw [round_coe h] at hv
  exact isFinite_of_value_eq hn hv

theorem ofInt_finite {n : ℤ} (h : |n| < 2 ^ 53) :
    IsFinite (Float.ofInt n) ∧ toReal (Float.ofInt n) = n := by
  have hle : |(n : ℝ)| ≤ greatest := le_greatest 53 (by norm_num) (by exact_mod_cast h.le)
  obtain ⟨hf, hv⟩ := ofInt_rounded hle
  rw [rounded_intCast h] at hv
  exact ⟨hf, hv⟩

end Double
end Seismic
