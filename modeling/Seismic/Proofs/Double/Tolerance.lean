import Seismic.Proofs.Double.Order
import Seismic.Proofs.Double.Remainder
import Seismic.Tolerance

/-!
# Tolerant rounding of 64-bit numbers

The tolerance at a number is a rounded sum of the fixed width and of the noise, which is
exact.  Tolerant floor and ceiling are then rules on real numbers, one the mirror image of
the other.  They stay between the floor and the ceiling, and on the numbers of the format
they keep the order: a number that is closer to its floor than one that is admitted is
admitted itself, although its tolerance may be smaller.
-/

namespace Seismic
namespace Double

open Float.Model

/-! ## The tolerance -/

noncomputable def tolerance (x : ℝ) : ℝ :=
  rounded (rounded (1 / 1000) + max |x| 1 * (2 : ℝ) ^ (-49 : ℤ))

theorem ofNat_finite {n : Nat} (h : n < 2 ^ 53) :
    IsFinite (Scalar.ofNat n : Float) ∧ toReal (Scalar.ofNat n : Float) = n := by
  have hf := ofInt_finite (n := (n : ℤ)) (by rw [Nat.abs_cast]; exact_mod_cast h)
  rwa [Int.cast_natCast] at hf

theorem one_div_finite {n : Nat} (h0 : 0 < n) (h : n < 2 ^ 53) :
    IsFinite (Float.ofInt 1 / Float.ofInt n) ∧
      toReal (Float.ofInt 1 / Float.ofInt n) = rounded (1 / n) := by
  obtain ⟨h₁, e₁⟩ := ofInt_finite (n := 1) (by norm_num)
  obtain ⟨h₂, e₂⟩ := ofNat_finite h
  have e₂' : toReal (Float.ofInt n) = n := e₂
  have hn : (1 : ℝ) ≤ n := by exact_mod_cast h0
  have hle : |(1 : ℝ) / n| ≤ greatest := by
    refine le_greatest 0 (by norm_num) ?_
    rw [abs_of_nonneg (by positivity), div_le_iff₀ (by linarith), pow_zero, one_mul]
    exact hn
  have hd := div_finite h₁ h₂ (by rw [e₂]; positivity)
  rw [e₁, e₂, Int.cast_one] at hd
  exact hd hle

theorem width_finite : IsFinite (Tolerance.width : Float) ∧
    toReal (Tolerance.width : Float) = rounded (1 / 1000) :=
  one_div_finite (n := 1000) (by norm_num) (by norm_num)

theorem epsilon_finite : IsFinite (Tolerance.epsilon : Float) ∧
    toReal (Tolerance.epsilon : Float) = (2 : ℝ) ^ (-52 : ℤ) := by
  obtain ⟨hf, hv⟩ := one_div_finite (n := 0x10000000000000) (by norm_num) (by norm_num)
  refine ⟨hf, hv.trans ?_⟩
  rw [← rounded_two_zpow (e := -52) (by norm_num)]
  norm_num

theorem max_finite {x y : Float} (hx : IsFinite x) (hy : IsFinite y) :
    IsFinite (Scalar.max x y) ∧ toReal (Scalar.max x y) = max (toReal x) (toReal y) := by
  rw [max_of_numbers hx.isNumber hy.isNumber]
  split_ifs with h
  · rw [lt_iff_toReal hx hy] at h
    exact ⟨hy, (max_eq_right h.le).symm⟩
  · rw [lt_iff_toReal hx hy, not_lt] at h
    exact ⟨hx, (max_eq_left h).symm⟩

/-- A number that is not below one keeps its digits when it is scaled by a power of two. -/
theorem rounded_scaled (x : Float) (h : 1 ≤ |toReal x|) {k : ℤ} (hk : -1022 ≤ k) :
    rounded (toReal x * (2 : ℝ) ^ k) = toReal x * (2 : ℝ) ^ k := by
  rw [← zpow_zero (2 : ℝ)] at h
  obtain ⟨n, e, hn, he, hx⟩ := toReal_digits_of_le h
  rw [hx, mul_assoc, ← zpow_add₀ (by norm_num)]
  exact rounded_digits hn (by omega)

theorem noise_finite {x : Float} (hx : IsFinite x) : IsFinite (Tolerance.noise x) ∧
    toReal (Tolerance.noise x) = max |toReal x| 1 * (2 : ℝ) ^ (-49 : ℤ) := by
  obtain ⟨ha, hav⟩ := abs_finite hx
  obtain ⟨h₁, e₁⟩ := ofInt_finite (n := 1) (by norm_num)
  obtain ⟨h₈, e₈⟩ := ofInt_finite (n := 8) (by norm_num)
  obtain ⟨he, hev⟩ := epsilon_finite
  obtain ⟨hm, hmv⟩ := max_finite ha h₁
  rw [hav, e₁, Int.cast_one] at hmv
  have hle := abs_toReal_le (Scalar.max x.abs (Float.ofInt 1))
  have hone : 1 ≤ |toReal (Scalar.max x.abs (Float.ofInt 1))| := by
    rw [hmv]
    exact (le_max_right _ _).trans (le_abs_self _)
  have hs : ∀ k : ℤ, k ≤ 0 → |toReal (Scalar.max x.abs (Float.ofInt 1)) * (2 : ℝ) ^ k| ≤ greatest := by
    intro k hk
    have hp : (2 : ℝ) ^ k ≤ 1 := zpow_le_one_of_nonpos₀ (by norm_num) hk
    rw [abs_mul, abs_of_pos (zpow_pos (by norm_num : (0 : ℝ) < 2) k)]
    exact (mul_le_of_le_one_right (abs_nonneg _) hp).trans hle
  obtain ⟨hp, hpv⟩ := mul_finite hm he (by rw [hev]; exact hs _ (by norm_num))
  rw [hev, rounded_scaled _ hone (by norm_num)] at hpv
  have h49 : toReal (Scalar.max x.abs (Float.ofInt 1)) * (2 : ℝ) ^ (-52 : ℤ) * (8 : ℤ) =
      toReal (Scalar.max x.abs (Float.ofInt 1)) * (2 : ℝ) ^ (-49 : ℤ) := by
    rw [mul_assoc]
    norm_num
  obtain ⟨hq, hqv⟩ := mul_finite hp h₈ (by
    rw [hpv, e₈, h49]
    exact hs _ (by norm_num))
  rw [hpv, e₈, h49, rounded_scaled _ hone (by norm_num), hmv] at hqv
  exact ⟨hq, hqv⟩

theorem rounded_width_mem :
    999 / 1000000 ≤ rounded (1 / 1000) ∧ rounded (1 / 1000) ≤ 1001 / 1000000 := by
  have h := abs_le.mp (abs_rounded_sub_le (1 / 1000))
  have ht := tiny_le
  have hu : |(1 / 1000 : ℝ)| * ulp ≤ 1 / 10000000 := by
    unfold ulp
    norm_num
  constructor <;> linarith

theorem tolerance_finite {x : Float} (hx : IsFinite x) :
    IsFinite (Tolerance.width + Tolerance.noise x : Float) ∧
      toReal (Tolerance.width + Tolerance.noise x : Float) = tolerance (toReal x) := by
  obtain ⟨hw, hwv⟩ := width_finite
  obtain ⟨hn, hnv⟩ := noise_finite hx
  obtain ⟨hw₁, hw₂⟩ := rounded_width_mem
  have hle : |toReal (Tolerance.width : Float) + toReal (Tolerance.noise x)| ≤ greatest := by
    have hx1 : max |toReal x| 1 ≤ 2 ^ 1024 :=
      max_le ((abs_toReal_le x).trans greatest_lt.le) (one_le_pow₀ (by norm_num))
    have hn0 : 0 ≤ max |toReal x| 1 * (2 : ℝ) ^ (-49 : ℤ) := by positivity
    have hn1 : max |toReal x| 1 * (2 : ℝ) ^ (-49 : ℤ) ≤ 2 ^ 975 := by
      calc max |toReal x| 1 * (2 : ℝ) ^ (-49 : ℤ) ≤ 2 ^ 1024 * (2 : ℝ) ^ (-49 : ℤ) :=
            mul_le_mul_of_nonneg_right hx1 (by positivity)
        _ = 2 ^ 975 := by
            rw [← zpow_natCast, ← zpow_natCast, ← zpow_add₀ (by norm_num)]
            rfl
    have hw0 : (0 : ℝ) ≤ rounded (1 / 1000) := le_trans (by norm_num) hw₁
    have hw1 : rounded (1 / 1000) ≤ (2 : ℝ) ^ 975 :=
      hw₂.trans (le_trans (by norm_num) (one_le_pow₀ (by norm_num)))
    rw [hwv, hnv, abs_of_nonneg (add_nonneg hw0 hn0)]
    refine le_greatest 976 (by norm_num) ?_
    calc rounded (1 / 1000) + max |toReal x| 1 * (2 : ℝ) ^ (-49 : ℤ)
        ≤ 2 ^ 975 + 2 ^ 975 := add_le_add hw1 hn1
      _ = 2 ^ 976 := by rw [← two_mul, ← pow_succ']
  obtain ⟨hf, hv⟩ := add_finite hw hn hle
  rw [hwv, hnv] at hv
  exact ⟨hf, hv⟩

theorem admits_iff {d x : Float} (hd : IsFinite d) (hx : IsFinite x) :
    Tolerance.admits d x = true ↔ toReal d ≤ tolerance (toReal x) := by
  obtain ⟨hf, hv⟩ := tolerance_finite hx
  rw [← hv, ← le_iff_toReal hd hf]
  exact decide_eq_true_iff

/-! ## Tolerant floor and ceiling -/

noncomputable def ceilTol (x : ℝ) : ℤ :=
  if |rounded (x - ⌊x⌋)| ≤ tolerance x then ⌊x⌋ else ⌈x⌉

noncomputable def floorTol (x : ℝ) : ℤ :=
  if |rounded (x - ⌈x⌉)| ≤ tolerance x then ⌈x⌉ else ⌊x⌋

theorem floor_le_ceilTol (x : ℝ) : ⌊x⌋ ≤ ceilTol x := by
  unfold ceilTol
  split_ifs
  · exact le_rfl
  · exact Int.floor_le_ceil x

theorem ceilTol_le_ceil (x : ℝ) : ceilTol x ≤ ⌈x⌉ := by
  unfold ceilTol
  split_ifs
  · exact Int.floor_le_ceil x
  · exact le_rfl

theorem floor_le_floorTol (x : ℝ) : ⌊x⌋ ≤ floorTol x := by
  unfold floorTol
  split_ifs
  · exact Int.floor_le_ceil x
  · exact le_rfl

theorem floorTol_le_ceil (x : ℝ) : floorTol x ≤ ⌈x⌉ := by
  unfold floorTol
  split_ifs
  · exact le_rfl
  · exact Int.floor_le_ceil x

theorem ceilTol_le_floorTol_add_one {x y : ℝ} (h : x ≤ y) : ceilTol x ≤ floorTol y + 1 := by
  have h₁ := ceilTol_le_ceil x
  have h₂ := Int.ceil_le_floor_add_one x
  have h₃ := Int.floor_le_floor h
  have h₄ := floor_le_floorTol y
  omega

theorem tolerance_neg (x : ℝ) : tolerance (-x) = tolerance x := by
  rw [tolerance, tolerance, abs_neg]

theorem floorTol_neg (x : ℝ) : floorTol (-x) = -ceilTol x := by
  have hd : |rounded (-x - ⌈-x⌉)| = |rounded (x - ⌊x⌋)| := by
    rw [Int.ceil_neg, Int.cast_neg, show -x - -(⌊x⌋ : ℝ) = -(x - ⌊x⌋) by ring, rounded_neg,
      abs_neg]
  rw [floorTol, ceilTol, hd, tolerance_neg, Int.ceil_neg, Int.floor_neg]
  split_ifs <;> rfl

theorem mul_two_zpow (x : ℝ) : x * (2 : ℝ) ^ (-49 : ℤ) = x / 2 ^ 49 := by
  rw [zpow_neg, div_eq_mul_inv]
  norm_cast

theorem tolerance_nonneg (x : ℝ) : 0 ≤ tolerance x := by
  have hw := rounded_width_mem.1
  have hn : 0 ≤ max |x| 1 * (2 : ℝ) ^ (-49 : ℤ) := by positivity
  exact Binary.rounded_nonneg _ (add_nonneg (le_trans (by norm_num) hw) hn)

theorem tolerance_mono {x y : ℝ} (h : max |x| 1 ≤ max |y| 1) : tolerance x ≤ tolerance y :=
  rounded_mono (by
    have := mul_le_mul_of_nonneg_right h (by positivity : 0 ≤ (2 : ℝ) ^ (-49 : ℤ))
    linarith)

/-- The tolerance is what it is in exact arithmetic, up to the rounding of the width and of the
sum. -/
theorem tolerance_bounds (x : ℝ) :
    (1 / 1000 + max |x| 1 / 2 ^ 49) * (1 - 1 / 2 ^ 51) ≤ tolerance x ∧
      tolerance x ≤ (1 / 1000 + max |x| 1 / 2 ^ 49) * (1 + 1 / 2 ^ 51) := by
  have ht := tiny_le
  obtain ⟨hw₁, hw₂⟩ := abs_le.mp (abs_rounded_sub_le (1 / 1000))
  have hn : 0 ≤ max |x| 1 / 2 ^ 49 := by positivity
  have hsum : 0 ≤ rounded (1 / 1000) + max |x| 1 / 2 ^ 49 :=
    add_nonneg (rounded_nonneg (by norm_num)) hn
  obtain ⟨hr₁, hr₂⟩ := abs_le.mp (abs_rounded_sub_le (rounded (1 / 1000) + max |x| 1 / 2 ^ 49))
  rw [abs_of_nonneg hsum] at hr₁ hr₂
  rw [abs_of_pos (by norm_num)] at hw₁ hw₂
  rw [tolerance, mul_two_zpow]
  unfold ulp at *
  constructor <;> linarith

theorem toReal_grid_of_one_le {x : Float} (h : 1 ≤ |toReal x|) :
    ∃ n : ℤ, toReal x = n * (2 : ℝ) ^ (-52 : ℤ) := by
  rw [← zpow_zero (2 : ℝ)] at h
  obtain ⟨n, hn⟩ := toReal_grid_of_le h
  exact ⟨n, by rw [hn, zero_sub]⟩

/-- Above one the distance to the floor is exact. -/
theorem rounded_fract {x : Float} (h : 1 ≤ toReal x) :
    rounded (toReal x - ⌊toReal x⌋) = toReal x - ⌊toReal x⌋ := by
  obtain ⟨n, hn⟩ := toReal_grid_of_one_le (h.trans (le_abs_self _))
  have h₀ := Int.floor_le (toReal x)
  have h₁ := Int.lt_floor_add_one (toReal x)
  have hp : (0 : ℝ) < (2 : ℝ) ^ (-52 : ℤ) := by positivity
  have hone : ((2 ^ 52 : ℤ) : ℝ) * (2 : ℝ) ^ (-52 : ℤ) = 1 := by norm_num
  have hd : toReal x - ⌊toReal x⌋ =
      ((n - ⌊toReal x⌋ * 2 ^ 52 : ℤ) : ℝ) * (2 : ℝ) ^ (-52 : ℤ) := by
    rw [Int.cast_sub, Int.cast_mul, sub_mul, mul_assoc, hone, mul_one, ← hn]
  have hlt : ((n - ⌊toReal x⌋ * 2 ^ 52 : ℤ) : ℝ) < ((2 ^ 52 : ℤ) : ℝ) := by
    refine lt_of_mul_lt_mul_right ?_ hp.le
    rw [← hd, hone]
    linarith
  have hge : ((0 : ℤ) : ℝ) ≤ ((n - ⌊toReal x⌋ * 2 ^ 52 : ℤ) : ℝ) := by
    refine le_of_mul_le_mul_right ?_ hp
    rw [← hd, Int.cast_zero, zero_mul]
    linarith
  rw [hd]
  refine rounded_digits ?_ (by norm_num)
  rw [abs_of_nonneg (Int.cast_le.mp hge)]
  exact lt_trans (Int.cast_lt.mp hlt) (by norm_num)

/-- A step down in the distance to the floor is larger than what the tolerance loses with
it, also after rounding. -/
theorem admitted_of_le {x y : Float} (h₁ : 1 ≤ toReal x) (h : toReal x ≤ toReal y)
    (hn : ⌊toReal x⌋ = ⌊toReal y⌋)
    (hy : |rounded (toReal y - ⌊toReal y⌋)| ≤ tolerance (toReal y)) :
    |rounded (toReal x - ⌊toReal x⌋)| ≤ tolerance (toReal x) := by
  rcases eq_or_lt_of_le h with heq | hlt
  · rwa [heq]
  have h₁' := h₁.trans h
  have hx0 := Int.floor_le (toReal x)
  have hy0 := Int.floor_le (toReal y)
  have hy1 := Int.lt_floor_add_one (toReal y)
  have hax : max |toReal x| 1 = toReal x := by
    rw [abs_of_nonneg (by linarith), max_eq_left h₁]
  have hay : max |toReal y| 1 = toReal y := by
    rw [abs_of_nonneg (by linarith), max_eq_left h₁']
  rw [rounded_fract h₁', abs_of_nonneg (by linarith), tolerance, hay] at hy
  rw [rounded_fract h₁, abs_of_nonneg (by linarith), ← rounded_fract h₁, tolerance, hax]
  refine rounded_mono ?_
  by_contra hc
  obtain ⟨a, ha⟩ := toReal_grid_of_one_le (h₁.trans (le_abs_self _))
  obtain ⟨b, hb⟩ := toReal_grid_of_one_le (h₁'.trans (le_abs_self _))
  have hstep : toReal x + (2 : ℝ) ^ (-52 : ℤ) ≤ toReal y := by
    have hab : a < b := by
      rw [ha, hb] at hlt
      exact_mod_cast lt_of_mul_lt_mul_right hlt (by positivity)
    have hab' : (a : ℝ) + 1 ≤ b := by exact_mod_cast hab
    rw [ha, hb, ← add_one_mul]
    exact mul_le_mul_of_nonneg_right hab' (by positivity)
  -- the tolerance at `y` before it is rounded
  obtain ⟨z, hz⟩ : ∃ z, z = rounded (1 / 1000) + toReal y * (2 : ℝ) ^ (-49 : ℤ) := ⟨_, rfl⟩
  have herr := (abs_le.mp (abs_rounded_sub_le z)).2
  have hw := rounded_width_mem.1
  have hz0 : 0 ≤ z := by
    have : 0 ≤ toReal y * (2 : ℝ) ^ (-49 : ℤ) := mul_nonneg (by linarith) (by positivity)
    linarith
  have ht := tiny_le
  have e49 : (2 : ℝ) ^ (-49 : ℤ) = 1 / 2 ^ 49 := by norm_num
  have e52 : (2 : ℝ) ^ (-52 : ℤ) = 1 / 2 ^ 52 := by norm_num
  rw [← hz] at hy
  rw [e52] at hstep
  rw [e49] at hz hc
  rw [abs_of_nonneg hz0, ulp] at herr
  rw [hn, not_le] at hc
  linarith

/-- Of two numbers below one with the same floor the smaller one is not closer to zero, or
else both are within one of it. -/
theorem abs_le_max_one {x y : ℝ} (h : x ≤ y) (hn : ⌊x⌋ = ⌊y⌋) (hx : x < 1) : |y| ≤ max |x| 1 := by
  have hf : ⌊x⌋ < 1 := Int.floor_lt.mpr (by exact_mod_cast hx)
  have hy : y < 1 := by
    have := Int.floor_lt.mp (hn ▸ hf)
    exact_mod_cast this
  rcases le_total 0 y with h0 | h0
  · rw [abs_of_nonneg h0]
    exact hy.le.trans (le_max_right _ _)
  · rw [abs_of_nonpos h0, abs_of_nonpos (h.trans h0)]
    exact le_max_of_le_left (neg_le_neg h)

/-- The tolerant ceiling keeps the order of the numbers of the format. -/
theorem ceilTol_mono {x y : Float} (h : toReal x ≤ toReal y) :
    ceilTol (toReal x) ≤ ceilTol (toReal y) := by
  rcases lt_or_eq_of_le (Int.floor_le_floor h) with hlt | heq
  · have h₁ := ceilTol_le_ceil (toReal x)
    have h₂ := Int.ceil_le_floor_add_one (toReal x)
    have h₃ := floor_le_ceilTol (toReal y)
    omega
  · by_cases hy : |rounded (toReal y - ⌊toReal y⌋)| ≤ tolerance (toReal y)
    · have hx : |rounded (toReal x - ⌊toReal x⌋)| ≤ tolerance (toReal x) := by
        by_cases hm : max |toReal y| 1 ≤ max |toReal x| 1
        · refine le_trans ?_ (hy.trans (tolerance_mono hm))
          have hd : toReal x - ⌊toReal x⌋ ≤ toReal y - ⌊toReal y⌋ := by
            rw [heq]
            linarith
          have h0 : 0 ≤ toReal x - ⌊toReal x⌋ := by linarith [Int.floor_le (toReal x)]
          rw [abs_of_nonneg (rounded_nonneg h0), abs_of_nonneg (rounded_nonneg (h0.trans hd))]
          exact rounded_mono hd
        · refine admitted_of_le ?_ h heq hy
          by_contra h1
          exact hm (max_le (abs_le_max_one h heq (not_le.mp h1)) (le_max_right _ _))
      rw [ceilTol, ceilTol, if_pos hx, if_pos hy, heq]
    · rw [ceilTol, ceilTol, if_neg hy]
      split_ifs
      · rw [heq]
        exact Int.floor_le_ceil _
      · exact Int.ceil_le_ceil h

/-- The tolerant floor keeps it as well, being the mirror image of the ceiling. -/
theorem floorTol_mono {x y : Float} (hx : IsFinite x) (hy : IsFinite y)
    (h : toReal x ≤ toReal y) : floorTol (toReal x) ≤ floorTol (toReal y) := by
  obtain ⟨-, hxv⟩ := neg_finite hx
  obtain ⟨-, hyv⟩ := neg_finite hy
  have hm := ceilTol_mono (x := -y) (y := -x) (by rw [hxv, hyv]; exact neg_le_neg h)
  have h₁ := floorTol_neg (toReal (-x))
  have h₂ := floorTol_neg (toReal (-y))
  rw [hxv, neg_neg] at h₁
  rw [hyv, neg_neg] at h₂
  rw [hxv, hyv] at hm
  omega

/-! ## The functions -/

theorem ceil_eq (x : Float) : Tolerance.ceil x =
    if Tolerance.admits (x - floor x).abs x then floor x else ceil x := rfl

theorem floor_eq (x : Float) : Tolerance.floor x =
    if Tolerance.admits (x - ceil x).abs x then ceil x else floor x := rfl

theorem distance_finite {x y : Float} (hx : IsFinite x) (hy : IsFinite y)
    (h : |toReal x - toReal y| ≤ greatest) : IsFinite (x - y).abs ∧
      toReal (x - y).abs = |rounded (toReal x - toReal y)| := by
  obtain ⟨hd, hdv⟩ := sub_finite hx hy h
  obtain ⟨ha, hav⟩ := abs_finite hd
  rw [hdv] at hav
  exact ⟨ha, hav⟩

/-- The choice between two integers next to a number, the first of them if it is within
tolerance. -/
theorem choice_finite {x y z : Float} {m n : ℤ} (hx : IsFinite x) (hy : IsFinite y)
    (hyv : toReal y = m) (hz : IsFinite z) (hzv : toReal z = n) (hm : |(m : ℝ) - toReal x| ≤ 1) :
    IsFinite (if Tolerance.admits (x - y).abs x then y else z) ∧
      toReal (if Tolerance.admits (x - y).abs x then y else z) =
        (if |rounded (toReal x - m)| ≤ tolerance (toReal x) then m else n : ℤ) := by
  obtain ⟨hd, hdv⟩ := distance_finite hx hy
    (le_greatest 0 (by norm_num) (by rwa [hyv, abs_sub_comm, pow_zero]))
  rw [← hyv, ← hdv]
  by_cases h : Tolerance.admits (x - y).abs x = true
  · rw [if_pos h, if_pos ((admits_iff hd hx).mp h)]
    exact ⟨hy, hyv⟩
  · rw [if_neg h, if_neg (mt (admits_iff hd hx).mpr h)]
    exact ⟨hz, hzv⟩

theorem tolerantCeil_finite {x : Float} (hx : IsFinite x) :
    IsFinite (Tolerance.ceil x) ∧ toReal (Tolerance.ceil x) = ceilTol (toReal x) := by
  obtain ⟨hf, hfv⟩ := floor_finite hx
  obtain ⟨hc, hcv⟩ := ceil_finite hx
  exact choice_finite hx hf hfv hc hcv (isRule_floor.near _)

theorem tolerantFloor_finite {x : Float} (hx : IsFinite x) :
    IsFinite (Tolerance.floor x) ∧ toReal (Tolerance.floor x) = floorTol (toReal x) := by
  obtain ⟨hf, hfv⟩ := floor_finite hx
  obtain ⟨hc, hcv⟩ := ceil_finite hx
  exact choice_finite hx hc hcv hf hfv (isRule_ceil.near _)

/-- What both floor and ceiling keep is kept by tolerant rounding. -/
theorem tolerantCeil_of_fixed {x : Float} (hf : floor x = x) (hc : ceil x = x) :
    Tolerance.ceil x = x := by
  rw [ceil_eq, hf, hc, ite_self]

theorem tolerantFloor_of_fixed {x : Float} (hf : floor x = x) (hc : ceil x = x) :
    Tolerance.floor x = x := by
  rw [floor_eq, hf, hc, ite_self]

theorem tolerantCeil_of_not_isFinite {x : Float} (hx : ¬ IsFinite x) : Tolerance.ceil x = x :=
  tolerantCeil_of_fixed (roundBy_of_not_isFinite hx) (roundBy_of_not_isFinite hx)

theorem tolerantFloor_of_not_isFinite {x : Float} (hx : ¬ IsFinite x) :
    Tolerance.floor x = x :=
  tolerantFloor_of_fixed (roundBy_of_not_isFinite hx) (roundBy_of_not_isFinite hx)

theorem clampedInt_tolerantCeil {x : Float} (hn : IsNumber x) (low high : ℤ) :
    clampedInt low high (Tolerance.ceil x) = clampedBy ceilTol low high (value x) :=
  clampedInt_of_rule tolerantCeil_finite tolerantCeil_of_not_isFinite hn low high

theorem clampedInt_tolerantFloor {x : Float} (hn : IsNumber x) (low high : ℤ) :
    clampedInt low high (Tolerance.floor x) = clampedBy floorTol low high (value x) :=
  clampedInt_of_rule tolerantFloor_finite tolerantFloor_of_not_isFinite hn low high

end Double
end Seismic
