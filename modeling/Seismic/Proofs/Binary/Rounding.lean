import Mathlib

/-!
# Rounding to a binary format

A format keeps so many binary digits of a number, and no digit below a least exponent.
Rounding takes a real number to the nearest one with such digits, the one with an even last
digit of two equally near.  It keeps the order of numbers and the numbers that have the
digits already, and it moves a number by at most half a unit of the last digit.  A result
beyond the range of exponents becomes an infinity.
-/

namespace Seismic
namespace Binary

open Float.Model (Format)

/-- The numeral two of the real numbers rests on this fact.  It has a name, so that the
numeral is the same term wherever a definition uses it. -/
instance atLeastTwo : Nat.AtLeastTwo 2 := ⟨le_rfl⟩

/-! ## Rounding to an integer -/

/-- The integer nearest to a number, the even one of two that are equally near. -/
noncomputable def roundEven (x : ℝ) : ℤ :=
  if Int.fract x < 1 / 2 then ⌊x⌋
  else if 1 / 2 < Int.fract x then ⌊x⌋ + 1
  else ⌊x⌋ + ⌊x⌋ % 2

theorem roundEven_intCast (n : ℤ) : roundEven n = n := by
  rw [roundEven, Int.fract_intCast, Int.floor_intCast, if_pos (by norm_num)]

theorem floor_le_roundEven (x : ℝ) : ⌊x⌋ ≤ roundEven x := by
  unfold roundEven
  split_ifs <;> omega

theorem roundEven_le_floor_add_one (x : ℝ) : roundEven x ≤ ⌊x⌋ + 1 := by
  unfold roundEven
  split_ifs <;> omega

theorem roundEven_mono {x y : ℝ} (h : x ≤ y) : roundEven x ≤ roundEven y := by
  rcases lt_or_eq_of_le (Int.floor_le_floor h) with hlt | heq
  · calc roundEven x ≤ ⌊x⌋ + 1 := roundEven_le_floor_add_one x
      _ ≤ ⌊y⌋ := hlt
      _ ≤ roundEven y := floor_le_roundEven y
  · have hf : Int.fract x ≤ Int.fract y := by
      rw [Int.fract, Int.fract, heq]
      linarith
    unfold roundEven
    rw [heq]
    split_ifs <;> first | omega | linarith

theorem abs_roundEven_sub_le (x : ℝ) : |(roundEven x : ℝ) - x| ≤ 1 / 2 := by
  have hx : (⌊x⌋ : ℝ) + Int.fract x = x := Int.floor_add_fract x
  unfold roundEven
  split_ifs with h₁ h₂
  · rw [abs_le]
    constructor <;> linarith [Int.fract_nonneg x]
  · push_cast
    rw [abs_le]
    constructor <;> linarith [Int.fract_lt_one x]
  · have hm : ⌊x⌋ % 2 = 0 ∨ ⌊x⌋ % 2 = 1 := by omega
    rcases hm with hm | hm <;> rw [hm] <;> push_cast <;> rw [abs_le] <;>
      constructor <;> linarith

/-- Numbers on the two sides of zero round alike.  A tie stays a tie, and of the two nearest
integers the even one keeps its place. -/
theorem roundEven_neg (x : ℝ) : roundEven (-x) = -roundEven x := by
  by_cases hx : Int.fract x = 0
  · have hxi : x = (⌊x⌋ : ℤ) := by
      have h := Int.floor_add_fract x
      rw [hx, add_zero] at h
      exact h.symm
    rw [hxi, ← Int.cast_neg, roundEven_intCast, roundEven_intCast]
  · have hfr : Int.fract (-x) = 1 - Int.fract x := Int.fract_neg hx
    have hfl : ⌊-x⌋ = -⌊x⌋ - 1 := by
      have h := Int.self_sub_floor x
      have h' := Int.self_sub_floor (-x)
      rw [hfr] at h'
      have h'' : ((⌊-x⌋ : ℤ) : ℝ) = ((-⌊x⌋ - 1 : ℤ) : ℝ) := by
        push_cast
        linarith
      exact_mod_cast h''
    unfold roundEven
    rw [hfr, hfl]
    split_ifs <;> first | omega | (exfalso; linarith)

/-! ## The last digit -/

variable (spec : Format)

/-- The exponent of the last digit that is kept of a number. -/
noncomputable def grain (x : ℝ) : ℤ := spec.targetExponent (Int.log 2 |x| + 1)

theorem grain_eq (x : ℝ) :
    grain spec x = max (Int.log 2 |x| + 1 - spec.mantissaBits) spec.minExponent := rfl

theorem minExponent_le_grain (x : ℝ) : spec.minExponent ≤ grain spec x := le_max_right _ _

theorem grain_neg (x : ℝ) : grain spec (-x) = grain spec x := by
  rw [grain, grain, abs_neg]

theorem grain_mono {x y : ℝ} (hx : 0 < x) (h : x ≤ y) : grain spec x ≤ grain spec y := by
  have hl : Int.log 2 |x| ≤ Int.log 2 |y| := by
    rw [abs_of_pos hx, abs_of_pos (lt_of_lt_of_le hx h)]
    exact Int.log_mono_right hx h
  rw [grain_eq, grain_eq]
  omega

theorem abs_lt_digits (x : ℝ) :
    |x| < (2 : ℝ) ^ (spec.mantissaBits : ℤ) * (2 : ℝ) ^ grain spec x := by
  have h : |x| < ((2 : ℕ) : ℝ) ^ (Int.log 2 |x| + 1) :=
    Int.lt_zpow_succ_log_self (by norm_num) _
  rw [← zpow_add₀ (by norm_num)]
  refine lt_of_lt_of_le h (zpow_le_zpow_right₀ (by norm_num) ?_)
  rw [grain_eq]
  omega

theorem mantissaBits_eq : spec.mantissaBits = spec.mantissaBitsWithoutImplicit + 1 :=
  Nat.add_comm 1 _

/-- A number whose last digit is above the least exponent has all digits of the format. -/
theorem digits_le_abs {x : ℝ} (hx : x ≠ 0) (h : spec.minExponent < grain spec x) :
    (2 : ℝ) ^ (spec.mantissaBitsWithoutImplicit : ℤ) * (2 : ℝ) ^ grain spec x ≤ |x| := by
  have hl : ((2 : ℕ) : ℝ) ^ Int.log 2 |x| ≤ |x| :=
    Int.zpow_log_le_self (by norm_num) (abs_pos.mpr hx)
  rw [← zpow_add₀ (by norm_num)]
  refine le_trans (le_of_eq ?_) hl
  rw [grain_eq, mantissaBits_eq] at h ⊢
  push_cast at h ⊢
  congr 1
  omega

/-! ## Rounding -/

/-- The number of the format nearest to a number, without regard to the largest exponent. -/
noncomputable def rounded (x : ℝ) : ℝ :=
  roundEven (x / (2 : ℝ) ^ grain spec x) * (2 : ℝ) ^ grain spec x

theorem rounded_zero : rounded spec 0 = 0 := by
  have h := roundEven_intCast 0
  rw [Int.cast_zero] at h
  rw [rounded, zero_div, h, Int.cast_zero, zero_mul]

theorem rounded_neg (x : ℝ) : rounded spec (-x) = -rounded spec x := by
  rw [rounded, rounded, grain_neg, neg_div, roundEven_neg]
  push_cast
  ring

theorem rounded_nonneg {x : ℝ} (h : 0 ≤ x) : 0 ≤ rounded spec x := by
  have hq : ((0 : ℤ) : ℝ) ≤ x / (2 : ℝ) ^ grain spec x := by
    rw [Int.cast_zero]
    positivity
  have hz := roundEven_mono hq
  rw [roundEven_intCast] at hz
  exact mul_nonneg (by exact_mod_cast hz) (by positivity)

theorem rounded_nonpos {x : ℝ} (h : x ≤ 0) : rounded spec x ≤ 0 := by
  have hn := rounded_nonneg spec (neg_nonneg.mpr h)
  rw [rounded_neg] at hn
  linarith

/-- The mantissa of a rounded number may have been carried to one digit more. -/
theorem roundEven_le_digits {x : ℝ} (hx : 0 ≤ x) :
    roundEven (x / (2 : ℝ) ^ grain spec x) ≤ 2 ^ spec.mantissaBits := by
  have h : x / (2 : ℝ) ^ grain spec x ≤ ((2 ^ spec.mantissaBits : ℤ) : ℝ) := by
    rw [div_le_iff₀ (zpow_pos (by norm_num) _)]
    have := abs_lt_digits spec x
    rw [abs_of_nonneg hx, zpow_natCast] at this
    push_cast
    exact this.le
  have := roundEven_mono h
  rwa [roundEven_intCast] at this

theorem digits_le_roundEven {x : ℝ} (hx : 0 < x) (h : spec.minExponent < grain spec x) :
    2 ^ spec.mantissaBitsWithoutImplicit ≤ roundEven (x / (2 : ℝ) ^ grain spec x) := by
  have h : ((2 ^ spec.mantissaBitsWithoutImplicit : ℤ) : ℝ) ≤ x / (2 : ℝ) ^ grain spec x := by
    rw [le_div_iff₀ (zpow_pos (by norm_num) _)]
    have := digits_le_abs spec hx.ne' h
    rw [abs_of_pos hx, zpow_natCast] at this
    push_cast
    exact this
  have := roundEven_mono h
  rwa [roundEven_intCast] at this

/-- The last digit of a larger number stands higher, and then the smaller one has rounded to
at most the least number with all digits before it. -/
theorem rounded_mono_pos {x y : ℝ} (hx : 0 < x) (h : x ≤ y) :
    rounded spec x ≤ rounded spec y := by
  have hp : ∀ n : ℤ, (0 : ℝ) < (2 : ℝ) ^ n := fun n => zpow_pos (by norm_num) n
  rcases lt_or_eq_of_le (grain_mono spec hx h) with hlt | heq
  · have hxr := roundEven_le_digits spec hx.le
    have hyr := digits_le_roundEven spec (lt_of_lt_of_le hx h)
      (lt_of_le_of_lt (minExponent_le_grain spec x) hlt)
    have hstep : (2 : ℝ) ^ grain spec x * 2 ≤ (2 : ℝ) ^ grain spec y := by
      rw [← zpow_add_one₀ (by norm_num)]
      exact zpow_le_zpow_right₀ (by norm_num) (by omega)
    calc rounded spec x
        ≤ ((2 ^ spec.mantissaBits : ℤ) : ℝ) * (2 : ℝ) ^ grain spec x :=
          mul_le_mul_of_nonneg_right (by exact_mod_cast hxr) (hp _).le
      _ = ((2 ^ spec.mantissaBitsWithoutImplicit : ℤ) : ℝ) * ((2 : ℝ) ^ grain spec x * 2) := by
          rw [mantissaBits_eq]
          push_cast
          ring
      _ ≤ ((2 ^ spec.mantissaBitsWithoutImplicit : ℤ) : ℝ) * (2 : ℝ) ^ grain spec y :=
          mul_le_mul_of_nonneg_left hstep (by positivity)
      _ ≤ rounded spec y :=
          mul_le_mul_of_nonneg_right (by exact_mod_cast hyr) (hp _).le
  · unfold rounded
    rw [heq]
    refine mul_le_mul_of_nonneg_right ?_ (hp _).le
    exact_mod_cast roundEven_mono (div_le_div_of_nonneg_right h (hp _).le)

theorem rounded_mono {x y : ℝ} (h : x ≤ y) : rounded spec x ≤ rounded spec y := by
  rcases lt_or_ge 0 x with hx | hx
  · exact rounded_mono_pos spec hx h
  · rcases lt_or_ge y 0 with hy | hy
    · have := rounded_mono_pos spec (neg_pos.mpr hy) (neg_le_neg h)
      rw [rounded_neg, rounded_neg] at this
      linarith
    · exact le_trans (rounded_nonpos spec hx) (rounded_nonneg spec hy)

theorem rounded_digits {n e : ℤ} (hn : |n| < 2 ^ spec.mantissaBits) (he : spec.minExponent ≤ e) :
    rounded spec (n * (2 : ℝ) ^ e) = n * (2 : ℝ) ^ e := by
  by_cases hz : n = 0
  · rw [hz, Int.cast_zero, zero_mul, rounded_zero]
  have hg : grain spec (n * (2 : ℝ) ^ e) ≤ e := by
    have hlt : |(n : ℝ) * (2 : ℝ) ^ e| < ((2 : ℕ) : ℝ) ^ ((spec.mantissaBits : ℤ) + e) := by
      rw [abs_mul, abs_of_pos (zpow_pos (by norm_num : (0 : ℝ) < 2) e), Nat.cast_ofNat,
        zpow_add₀ (by norm_num), zpow_natCast]
      refine mul_lt_mul_of_pos_right ?_ (zpow_pos (by norm_num) e)
      exact_mod_cast hn
    have hl := (Int.lt_zpow_iff_log_lt (by norm_num) (abs_pos.mpr
      (mul_ne_zero (Int.cast_ne_zero.mpr hz) (zpow_ne_zero e (by norm_num))))).mp hlt
    rw [grain_eq]
    omega
  obtain ⟨k, hk⟩ := Int.eq_ofNat_of_zero_le (sub_nonneg.mpr hg)
  have hq : (n : ℝ) * (2 : ℝ) ^ e / (2 : ℝ) ^ grain spec (n * (2 : ℝ) ^ e) =
      ((n * 2 ^ k : ℤ) : ℝ) := by
    rw [mul_div_assoc, ← zpow_sub₀ (by norm_num), hk]
    push_cast
    rw [zpow_natCast]
  rw [rounded, hq, roundEven_intCast, ← hq]
  exact div_mul_cancel₀ _ (zpow_ne_zero _ (by norm_num))

theorem abs_rounded_sub_le (x : ℝ) : |rounded spec x - x| ≤ (2 : ℝ) ^ grain spec x / 2 := by
  have hp : (0 : ℝ) < (2 : ℝ) ^ grain spec x := zpow_pos (by norm_num) _
  have hx : rounded spec x - x = (roundEven (x / (2 : ℝ) ^ grain spec x) -
      x / (2 : ℝ) ^ grain spec x) * (2 : ℝ) ^ grain spec x := by
    rw [sub_mul, div_mul_cancel₀ _ hp.ne', rounded]
  rw [hx, abs_mul, abs_of_pos hp]
  calc _ ≤ 1 / 2 * (2 : ℝ) ^ grain spec x :=
        mul_le_mul_of_nonneg_right (abs_roundEven_sub_le _) hp.le
    _ = (2 : ℝ) ^ grain spec x / 2 := by ring

/-- Relative to the size of a number rounding moves it by at most half a unit of the last of
all digits, and near zero by at most half of the least positive number. -/
theorem abs_rounded_sub_le_rel (x : ℝ) :
    |rounded spec x - x| ≤
      |x| / (2 : ℝ) ^ spec.mantissaBits + (2 : ℝ) ^ spec.minExponent / 2 := by
  have hp : (0 : ℝ) < (2 : ℝ) ^ spec.minExponent := zpow_pos (by norm_num) _
  by_cases hx : x = 0
  · rw [hx, rounded_zero, sub_zero, abs_zero, zero_div, zero_add]
    positivity
  refine le_trans (abs_rounded_sub_le spec x) ?_
  rcases lt_or_eq_of_le (minExponent_le_grain spec x) with h | h
  · have hd := digits_le_abs spec hx h
    rw [zpow_natCast] at hd
    have hb : (2 : ℝ) ^ grain spec x / 2 ≤ |x| / (2 : ℝ) ^ spec.mantissaBits := by
      rw [mantissaBits_eq, le_div_iff₀ (by positivity), pow_succ]
      linarith
    linarith
  · rw [← h]
    have : 0 ≤ |x| / (2 : ℝ) ^ spec.mantissaBits := by positivity
    linarith

/-- A multiple of the least positive number has no digits to lose near zero. -/
theorem abs_rounded_sub_le_of_grid {x : ℝ} {n : ℤ} (h : x = n * (2 : ℝ) ^ spec.minExponent) :
    |rounded spec x - x| ≤ |x| / (2 : ℝ) ^ spec.mantissaBits := by
  have hp : (0 : ℝ) < (2 : ℝ) ^ spec.minExponent := zpow_pos (by norm_num) _
  by_cases hx : x = 0
  · rw [hx, rounded_zero, sub_zero, abs_zero, zero_div]
  rcases lt_or_eq_of_le (minExponent_le_grain spec x) with hg | hg
  · have hd := digits_le_abs spec hx hg
    refine (abs_rounded_sub_le spec x).trans ?_
    rw [zpow_natCast] at hd
    rw [mantissaBits_eq, le_div_iff₀ (by positivity), pow_succ]
    linarith
  · have hq : x / (2 : ℝ) ^ grain spec x = n := by
      rw [← hg, h, mul_div_cancel_right₀ _ hp.ne']
    rw [rounded, hq, roundEven_intCast, ← hg, ← h, sub_self, abs_zero]
    positivity

/-! ## Overflow -/

/-- The least power of two that the format does not reach. -/
noncomputable def limit : ℝ := (2 : ℝ) ^ (2 ^ (spec.exponentBits - 1))

theorem limit_pos : 0 < limit spec := by
  unfold limit
  positivity

/-- The rounded number, or an infinity where it is beyond the range of the format. -/
noncomputable def overflowed (x : ℝ) : EReal :=
  if limit spec ≤ x then ⊤ else if x ≤ -limit spec then ⊥ else (x : EReal)

theorem overflowed_mono {x y : ℝ} (h : x ≤ y) : overflowed spec x ≤ overflowed spec y := by
  have := limit_pos spec
  unfold overflowed
  split_ifs <;> first | exact le_top | exact bot_le | (exfalso; linarith) | exact_mod_cast h

/-- The result of an operation whose exact result is given. -/
noncomputable def nearest (x : EReal) : EReal :=
  if x = ⊤ then ⊤ else if x = ⊥ then ⊥ else overflowed spec (rounded spec x.toReal)

theorem nearest_coe (x : ℝ) : nearest spec x = overflowed spec (rounded spec x) := by
  rw [nearest, if_neg (EReal.coe_ne_top x), if_neg (EReal.coe_ne_bot x), EReal.toReal_coe]

theorem nearest_top : nearest spec ⊤ = ⊤ := if_pos rfl

theorem nearest_bot : nearest spec ⊥ = ⊥ := by
  rw [nearest, if_neg (by decide), if_pos rfl]

theorem nearest_mono {x y : EReal} (h : x ≤ y) : nearest spec x ≤ nearest spec y := by
  induction x with
  | bot =>
    rw [nearest_bot]
    exact bot_le
  | top =>
    rw [top_le_iff.mp h]
  | coe x =>
    induction y with
    | bot => exact absurd (le_bot_iff.mp h) (EReal.coe_ne_bot x)
    | top =>
      rw [nearest_top]
      exact le_top
    | coe y =>
      rw [nearest_coe, nearest_coe]
      exact overflowed_mono spec (rounded_mono spec (EReal.coe_le_coe_iff.mp h))

end Binary
end Seismic
