import Seismic.Axis
import Seismic.Proofs.Double.Tolerance
import Seismic.Proofs.Result

/-!
# Lines nearest to positions

An index is on an axis from half a step before the first sample up to half a step after the
last.  The nearest sample is the floor of the index shifted by half a step, and the shift is
rounded.  It is rounded up to the number of samples for one index only, the last number below
one half on an axis with a single sample.
-/

namespace Seismic

open Double

/-- A finite number below a limit, both of them multiples of `u`, is below it by `u`. -/
theorem le_sub_of_lt_of_grid {x l u : ℝ} (hu : 0 < u) {n m : ℤ} (hx : x = n * u) (hl : l = m * u)
    (h : x < l) : x ≤ l - u := by
  rw [hx, hl] at h ⊢
  have hnm : n < m := by exact_mod_cast lt_of_mul_lt_mul_right h hu.le
  have hle : (n : ℝ) ≤ (m : ℝ) - 1 := by
    have : (n : ℝ) + 1 ≤ m := by exact_mod_cast hnm
    linarith
  calc (n : ℝ) * u ≤ ((m : ℝ) - 1) * u := mul_le_mul_of_nonneg_right hle hu.le
    _ = m * u - u := by ring

/-- A number below `2 ^ k` stays below the next integer when it is shifted by one half. -/
theorem rounded_shift_le {x : ℝ} {k : Nat} (hk : k < 52) (hx : x < 2 ^ k) :
    rounded (x + 1 / 2) ≤ 2 ^ k + 1 / 2 := by
  have hhalf : rounded ((2 ^ (k + 1) + 1 : ℤ) * (2 : ℝ) ^ (-1 : ℤ)) =
      (2 ^ (k + 1) + 1 : ℤ) * (2 : ℝ) ^ (-1 : ℤ) := by
    refine rounded_digits ?_ (by norm_num)
    have h52 : (2 : ℤ) ^ (k + 1) ≤ 2 ^ 52 := pow_le_pow_right₀ (by norm_num) (by omega)
    rw [abs_of_pos (by positivity)]
    omega
  have he : ((2 ^ (k + 1) + 1 : ℤ) : ℝ) * (2 : ℝ) ^ (-1 : ℤ) = 2 ^ k + 1 / 2 := by
    push_cast
    rw [pow_succ, zpow_neg_one]
    ring
  have hle := rounded_mono (show x + 1 / 2 ≤ 2 ^ k + 1 / 2 by linarith)
  rwa [← he, hhalf, he] at hle

/-- One half is a multiple of the last digit of the numbers between `2 ^ k` and twice that. -/
theorem half_eq_digits {j k : Nat} (hj : j + k = 51) :
    (1 / 2 : ℝ) = 2 ^ j * (2 : ℝ) ^ ((k : ℤ) - 52) := by
  rw [show ((k : ℤ) - 52) = -(j : ℤ) + -1 by omega, zpow_add₀ (by norm_num), zpow_neg,
    zpow_natCast, zpow_neg_one]
  field_simp

/-- A count up to `2 ^ (k + 1)` less the last digit of the numbers below it is a number. -/
theorem rounded_count_sub_digit {n j k : Nat} (hj : j + k = 51) (hn0 : 0 < n)
    (hn : n ≤ 2 ^ (k + 1)) :
    rounded (n - (2 : ℝ) ^ ((k : ℤ) - 52)) = n - (2 : ℝ) ^ ((k : ℤ) - 52) := by
  have hdigits : (n : ℝ) - (2 : ℝ) ^ ((k : ℤ) - 52) =
      ((2 * n) * 2 ^ j - 1 : ℤ) * (2 : ℝ) ^ ((k : ℤ) - 52) := by
    push_cast
    rw [sub_mul, mul_assoc, ← half_eq_digits hj]
    ring
  have hp : (0 : ℤ) < 2 ^ j := by positivity
  have hpos : (0 : ℤ) < (2 * n) * 2 ^ j := by positivity
  have h53 : (2 * n : ℤ) * 2 ^ j ≤ 2 ^ 53 := by
    have hn' : (n : ℤ) ≤ 2 ^ (k + 1) := by exact_mod_cast hn
    calc (2 * n : ℤ) * 2 ^ j ≤ 2 * 2 ^ (k + 1) * 2 ^ j :=
          mul_le_mul_of_nonneg_right (by linarith) hp.le
      _ = 2 ^ 53 := by
          rw [mul_assoc, ← pow_add, show k + 1 + j = 52 by omega]
          norm_num
  rw [hdigits]
  refine rounded_digits ?_ (by omega)
  rw [abs_lt]
  constructor <;> omega

/-- From `2 ^ k` on both the number and the limit are multiples of the last digit, and so is
one half. -/
theorem rounded_shift_lt_of_ge {x : Float} {n k : Nat} (hk : k < 52) (hn0 : 0 < n)
    (hn : n ≤ 2 ^ (k + 1)) (hge : 2 ^ k ≤ toReal x) (hx : toReal x < n - 1 / 2) :
    rounded (toReal x + 1 / 2) < n := by
  obtain ⟨j, hj⟩ : ∃ j : Nat, j + k = 51 := ⟨51 - k, by omega⟩
  have hu0 : (0 : ℝ) < 2 ^ ((k : ℤ) - 52) := zpow_pos (by norm_num) _
  have hge' : (2 : ℝ) ^ (k : ℤ) ≤ |toReal x| := by
    rw [zpow_natCast]
    exact hge.trans (le_abs_self _)
  obtain ⟨m, hm⟩ := toReal_grid_of_le hge'
  have hlimit : (n : ℝ) - 1 / 2 = ((2 * n - 1) * 2 ^ j : ℤ) * (2 : ℝ) ^ ((k : ℤ) - 52) := by
    push_cast
    rw [mul_assoc, ← half_eq_digits hj]
    ring
  have hle := le_sub_of_lt_of_grid hu0 hm hlimit hx
  have hfin := rounded_mono
    (show toReal x + 1 / 2 ≤ n - (2 : ℝ) ^ ((k : ℤ) - 52) by linarith)
  rw [rounded_count_sub_digit hj hn0 hn] at hfin
  linarith

/-- Below a half on a line of several samples, a shift by one half stays below the next
integer. -/
theorem rounded_shift_lt {x : Float} {n : Nat} (h2 : 2 ≤ n) (hn : n < 2 ^ 52)
    (hx : toReal x < n - 1 / 2) : rounded (toReal x + 1 / 2) < n := by
  obtain ⟨k, hk⟩ : ∃ k, k = (n - 1).log2 := ⟨_, rfl⟩
  have hne : n - 1 ≠ 0 := by omega
  have hk₁ : 2 ^ k ≤ n - 1 := hk ▸ Nat.log2_self_le hne
  have hk₂ : n - 1 < 2 ^ (k + 1) := hk ▸ Nat.lt_log2_self
  have hk52 : k < 52 := by
    by_contra hge
    have := Nat.pow_le_pow_right (n := 2) (by norm_num) (Nat.not_lt.mp hge)
    omega
  rcases lt_or_ge (toReal x) (2 ^ k) with hlt | hge
  · have hn' : (2 : ℝ) ^ k + 1 ≤ n := by exact_mod_cast (by omega : 2 ^ k + 1 ≤ n)
    have hle := rounded_shift_le hk52 hlt
    linarith
  · exact rounded_shift_lt_of_ge hk52 (by omega) (by omega) hge hx

noncomputable def belowHalf : ℝ := 1 / 2 - 1 / 2 ^ 54

/-- On a line of one sample that holds for all numbers but one. -/
theorem rounded_shift_lt_one {x : Float} (hx : toReal x < 1 / 2) (hne : toReal x ≠ belowHalf) :
    rounded (toReal x + 1 / 2) < 1 := by
  have hkeep : rounded ((2 ^ 53 - 1 : ℤ) * (2 : ℝ) ^ (-53 : ℤ)) =
      (2 ^ 53 - 1 : ℤ) * (2 : ℝ) ^ (-53 : ℤ) := rounded_digits (by norm_num) (by norm_num)
  have hlast : ((2 ^ 53 - 1 : ℤ) : ℝ) * (2 : ℝ) ^ (-53 : ℤ) = 1 - 1 / 2 ^ 53 := by
    push_cast
    rw [zpow_neg]
    norm_num
  have hle : toReal x ≤ 1 / 2 - 1 / 2 ^ 53 := by
    rcases lt_or_ge (toReal x) (1 / 4) with hlt | hge
    · linarith
    · have hge' : (2 : ℝ) ^ (-2 : ℤ) ≤ |toReal x| := by
        rw [show (2 : ℝ) ^ (-2 : ℤ) = 1 / 4 by norm_num]
        exact hge.trans (le_abs_self _)
      obtain ⟨n, hn⟩ := toReal_grid_of_le hge'
      have hu : (2 : ℝ) ^ ((-2 : ℤ) - 52) = 1 / 2 ^ 54 := by
        rw [show (-2 : ℤ) - 52 = -(54 : ℕ) by norm_num, zpow_neg, zpow_natCast, one_div]
      rw [hu] at hn
      have hhalf : (1 / 2 : ℝ) = (2 ^ 53 : ℤ) * (1 / 2 ^ 54) := by norm_num
      have hb : toReal x ≤ belowHalf := le_sub_of_lt_of_grid (by positivity) hn hhalf hx
      have hbelow : belowHalf = (2 ^ 53 - 1 : ℤ) * (1 / 2 ^ 54) := by
        unfold belowHalf
        norm_num
      have := le_sub_of_lt_of_grid (by positivity) hn hbelow (lt_of_le_of_ne hb hne)
      unfold belowHalf at this
      linarith
  have hround := rounded_mono (show toReal x + 1 / 2 ≤ 1 - 1 / 2 ^ 53 by linarith)
  rw [← hlast, hkeep, hlast] at hround
  linarith

namespace Axis

variable {a : Axis Float} {x : Float}

theorem half_finite : IsFinite (Float.ofInt 1 / Float.ofInt 2) ∧
    toReal (Float.ofInt 1 / Float.ofInt 2) = 1 / 2 := by
  obtain ⟨hf, hv⟩ := one_div_finite (n := 2) (by norm_num) (by norm_num)
  have he : rounded (1 / 2) = 1 / 2 := by
    have := rounded_digits (n := 1) (e := -1) (by norm_num) (by norm_num)
    rwa [Int.cast_one, one_mul, zpow_neg_one, ← one_div] at this
  exact ⟨hf, hv.trans he⟩

theorem holdsIndex_eq (a : Axis Float) (x : Float) : a.holdsIndex x =
    (decide (-(Float.ofInt 1 / Float.ofInt 2) ≤ x) &&
      decide (x < Float.ofInt a.nsamples - Float.ofInt 1 / Float.ofInt 2)) := rfl

theorem holdsIndex_iff (hn : a.nsamples < 2 ^ 52) : a.holdsIndex x = true ↔
    IsFinite x ∧ -(1 / 2) ≤ toReal x ∧ toReal x < a.nsamples - 1 / 2 := by
  obtain ⟨hhf, hhv⟩ := half_finite
  obtain ⟨hnf, hnv⟩ := neg_finite hhf
  obtain ⟨hcf, hcv⟩ := ofInt_finite (n := (a.nsamples : ℤ)) (by
    rw [Nat.abs_cast]
    exact_mod_cast hn.trans (by norm_num))
  have hn' : (a.nsamples : ℝ) < 2 ^ 52 := by exact_mod_cast hn
  have hle : |(a.nsamples : ℝ) - 1 / 2| ≤ 2 ^ 52 := abs_le.mpr
    ⟨by linarith [(Nat.cast_nonneg a.nsamples : (0 : ℝ) ≤ a.nsamples)], by linarith⟩
  obtain ⟨hdf, hdv⟩ := sub_finite hcf hhf (by
    rw [hcv, hhv, Int.cast_natCast]
    exact le_greatest 52 (by norm_num) hle)
  have hexact : rounded ((a.nsamples : ℝ) - 1 / 2) = a.nsamples - 1 / 2 := by
    have := rounded_digits (n := 2 * a.nsamples - 1) (e := -1)
      (abs_lt.mpr ⟨by omega, by omega⟩) (by norm_num)
    rw [zpow_neg_one] at this
    push_cast at this
    rwa [show ((2 * a.nsamples - 1 : ℝ) * 2⁻¹) = a.nsamples - 1 / 2 by ring] at this
  rw [hcv, hhv, Int.cast_natCast, hexact] at hdv
  rw [holdsIndex_eq, Bool.and_eq_true, decide_eq_true_iff, decide_eq_true_iff]
  constructor
  · rintro ⟨h₁, h₂⟩
    have hx : IsFinite x := isFinite_of_between hnf hdf h₁ (le_iff.mpr
      ⟨(lt_iff.mp h₂).1, (lt_iff.mp h₂).2.1, (lt_iff.mp h₂).2.2.le⟩)
    rw [le_iff_toReal hnf hx, hnv, hhv] at h₁
    rw [lt_iff_toReal hx hdf, hdv] at h₂
    exact ⟨hx, h₁, h₂⟩
  · rintro ⟨hx, h₁, h₂⟩
    rw [le_iff_toReal hnf hx, hnv, hhv, lt_iff_toReal hx hdf, hdv]
    exact ⟨h₁, h₂⟩

/-- The index is not the one that leaves an axis with a single sample. -/
def Clear (a : Axis Float) (x : Float) : Prop := a.nsamples = 1 → toReal x ≠ belowHalf

/-- The nearest sample is the floor of the index shifted by half a step, after rounding. -/
theorem nearestSample_eq_ok (hn : a.nsamples < 2 ^ 52) (hx : a.holdsIndex x = true) :
    0 ≤ ⌊rounded (toReal x + 1 / 2)⌋ ∧
      a.nearestSample x = .ok ⌊rounded (toReal x + 1 / 2)⌋.toNat := by
  obtain ⟨hf, h₁, h₂⟩ := (holdsIndex_iff hn).mp hx
  obtain ⟨hhf, hhv⟩ := half_finite
  have hn' : (a.nsamples : ℝ) < 2 ^ 52 := by exact_mod_cast hn
  have hge : (0 : ℝ) ≤ toReal x + 1 / 2 := by linarith
  obtain ⟨hsf, hsv⟩ := add_finite hf hhf (by
    rw [hhv, abs_of_nonneg hge]
    exact le_greatest 52 (by norm_num) (by linarith))
  rw [hhv] at hsv
  have hfloor : 0 ≤ ⌊rounded (toReal x + 1 / 2)⌋ := Int.floor_nonneg.mpr (rounded_nonneg hge)
  have hbelow : ⌊rounded (toReal x + 1 / 2)⌋ ≤ 2 ^ 52 := by
    have hle := rounded_mono (show toReal x + 1 / 2 ≤ ((2 ^ 52 : ℤ) : ℝ) by push_cast; linarith)
    rw [rounded_intCast (by norm_num)] at hle
    exact_mod_cast (Int.floor_le _).trans hle
  obtain ⟨hff, hfv⟩ := floor_finite hsf
  obtain ⟨hmf, hmv⟩ := max_finite hff ofInt_zero.1
  have hmax : toReal (Scalar.max (floor (x + Float.ofInt 1 / Float.ofInt 2)) (Float.ofInt 0)) =
      ⌊rounded (toReal x + 1 / 2)⌋ := by
    rw [hmv, hfv, hsv, ofInt_zero.2]
    exact max_eq_left (by exact_mod_cast hfloor)
  have hcount := clampedInt_of_integer hmf hmax 0 (countBound - 1)
  have hrange : max 0 (min ((countBound : ℤ) - 1) ⌊rounded (toReal x + 1 / 2)⌋) =
      ⌊rounded (toReal x + 1 / 2)⌋ := by
    have hbound : (2 : ℤ) ^ 52 ≤ countBound - 1 := by decide
    omega
  rw [hrange] at hcount
  exact ⟨hfloor, (if_pos hx).trans (congrArg (fun n : ℤ => Except.ok n.toNat) hcount)⟩

theorem nearestSample_of_holdsIndex (hn : a.nsamples < 2 ^ 52) (hx : a.holdsIndex x = true)
    (hc : a.Clear x) : ∃ k < a.nsamples, a.nearestSample x = .ok k := by
  obtain ⟨-, h₁, h₂⟩ := (holdsIndex_iff hn).mp hx
  obtain ⟨hfloor, hk⟩ := nearestSample_eq_ok hn hx
  have hlt : rounded (toReal x + 1 / 2) < a.nsamples := by
    rcases Nat.lt_or_ge 1 a.nsamples with h | h
    · exact rounded_shift_lt h hn h₂
    · have hone : a.nsamples = 1 := by
        by_contra hne
        have h0 : (a.nsamples : ℝ) = 0 := by exact_mod_cast (by omega : a.nsamples = 0)
        linarith
      rw [hone, Nat.cast_one] at h₂ ⊢
      exact rounded_shift_lt_one (by linarith) (hc hone)
  have hbelow : ⌊rounded (toReal x + 1 / 2)⌋ < a.nsamples := by
    have := (Int.floor_le _).trans_lt hlt
    exact_mod_cast this
  exact ⟨_, by omega, hk⟩

end Axis
end Seismic
