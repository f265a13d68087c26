import Seismic.Proofs.Binary.Rounding

/-!
# Unpacked numbers

An unpacked number is a sign, a mantissa and an exponent, or one of the special values.  It
is in the form of a format if its mantissa has all digits of the format, or fewer at the
least exponent.  Rounding an unpacked number shifts its mantissa to the right and remembers
what was shifted out in two bits.  These tell on which side of a half the rest lies, so the
shifted mantissa rounds as the exact number does, and the result is in the form of the
format.
-/

namespace Seismic
namespace Binary

open Float.Model
open Float.Model.UnpackedFloat

/-- The real number that a finite unpacked number stands for, and zero for the others. -/
noncomputable def real : UnpackedFloat → ℝ
  | .finite s m e _ => (s.apply m : ℤ) * (2 : ℝ) ^ e
  | _ => 0

/-- The place of an unpacked number among the real numbers and the two infinities. -/
noncomputable def value : UnpackedFloat → EReal
  | .infinity .positive => ⊤
  | .infinity .negative => ⊥
  | u => real u

def signum : Sign → ℝ
  | .negative => -1
  | .positive => 1

theorem signum_mul_self (s : Sign) : signum s * signum s = 1 := by
  cases s <;> norm_num [signum]

theorem exists_signum (s : Sign) : ∃ c : ℤ, signum s = c := by
  cases s with
  | negative => exact ⟨-1, by rw [signum, Int.cast_neg, Int.cast_one]⟩
  | positive => exact ⟨1, Int.cast_one.symm⟩

theorem cast_apply (s : Sign) (n : ℤ) : ((s.apply n : ℤ) : ℝ) = signum s * n := by
  cases s with
  | negative =>
    rw [Sign.apply, signum, Int.cast_neg, neg_one_mul]
  | positive => rw [Sign.apply, signum, one_mul]

theorem real_finite (s : Sign) (m : Nat) (e : ℤ) (h : 0 < m) :
    real (.finite s m e h) = signum s * (m * (2 : ℝ) ^ e) := by
  rw [real, cast_apply, Int.cast_natCast, mul_assoc]

variable {spec : Format}

/-- A mantissa and an exponent in the form of a format. -/
structure IsCanonical (spec : Format) (m : Nat) (e : ℤ) : Prop where
  lt : m < 2 ^ spec.mantissaBits
  least : spec.minExponent ≤ e
  full : 2 ^ spec.mantissaBitsWithoutImplicit ≤ m ∨ e = spec.minExponent

/-! ## The bits behind a mantissa -/

/-- A mantissa and the two bits behind it tell where a number lies between the mantissa and
the next one. -/
def Locates (em : ExtendedMantissa) (y : ℝ) : Prop :=
  match em.roundBit, em.stickyBit with
  | false, false => y = em.mantissa
  | false, true => em.mantissa < y ∧ y < em.mantissa + 1 / 2
  | true, false => y = em.mantissa + 1 / 2
  | true, true => em.mantissa + 1 / 2 < y ∧ y < em.mantissa + 1

namespace Locates

theorem bounds {em : ExtendedMantissa} {y : ℝ} (h : Locates em y) :
    em.mantissa ≤ y ∧ y < em.mantissa + 1 := by
  obtain ⟨m, r, s⟩ := em
  cases r <;> cases s <;> simp only [Locates] at h ⊢ <;> constructor <;> linarith

theorem floor_eq {em : ExtendedMantissa} {y : ℝ} (h : Locates em y) :
    ⌊y⌋ = (em.mantissa : ℤ) :=
  Int.floor_eq_iff.mpr ⟨by exact_mod_cast h.bounds.1, by exact_mod_cast h.bounds.2⟩

theorem roundedMantissa_eq {em : ExtendedMantissa} {y : ℝ} (h : Locates em y) :
    (em.roundedMantissa : ℤ) = roundEven y := by
  have hf := h.floor_eq
  have hr : Int.fract y = y - em.mantissa := by
    rw [← Int.self_sub_floor, hf, Int.cast_natCast]
  unfold roundEven
  rw [hf, hr]
  obtain ⟨m, r, s⟩ := em
  cases r <;> cases s <;>
    simp only [Locates, ExtendedMantissa.roundedMantissa, ExtendedMantissa.accuracy,
      Accuracy.roundToNearestEven] at h ⊢ <;>
    split_ifs <;> first | (exfalso; linarith) | push_cast; omega

theorem shiftRightOne {em : ExtendedMantissa} {y : ℝ} (h : Locates em y) :
    Locates em.shiftRightOne (y / 2) := by
  obtain ⟨m, r, s⟩ := em
  have hm : ((m / 2 : ℕ) : ℝ) * 2 + ((m % 2 : ℕ) : ℝ) = m := by
    exact_mod_cast Nat.div_add_mod' m 2
  rcases Nat.mod_two_eq_zero_or_one m with hp | hp <;> rw [hp] at hm <;>
    push_cast at hm <;> cases r <;> cases s <;>
    simp only [Locates, ExtendedMantissa.shiftRightOne, hp, Bool.or_false, Bool.or_true,
      bne_self_eq_false, show (1 != 0) = true from rfl] at h ⊢ <;>
    first | linarith | constructor <;> linarith

theorem shiftRight {em : ExtendedMantissa} {y : ℝ} (h : Locates em y) (n : Nat) :
    Locates (em >>> n) (y / 2 ^ n) := by
  show Locates (n.repeat ExtendedMantissa.shiftRightOne em) (y / 2 ^ n)
  induction n with
  | zero =>
    rw [Nat.repeat, pow_zero, div_one]
    exact h
  | succ n ih =>
    rw [Nat.repeat, pow_succ, ← div_div]
    exact ih.shiftRightOne

theorem exact (m : Nat) : Locates (.ofMantissaAndAccuracy m .exact) m := rfl

theorem fraction {m n d : Nat} (hd : n < d) :
    Locates (.ofMantissaAndAccuracy m (accuracyOfFraction n d)) (m + n / d) := by
  have hd' : (0 : ℝ) < d := by exact_mod_cast Nat.lt_of_le_of_lt (Nat.zero_le n) hd
  unfold accuracyOfFraction
  split_ifs with hn
  · rw [hn, Nat.cast_zero, zero_div, add_zero]
    exact exact m
  · have hn' : (0 : ℝ) < n := by exact_mod_cast Nat.pos_of_ne_zero hn
    have hlt : (n : ℝ) / d < 1 := (div_lt_one hd').mpr (by exact_mod_cast hd)
    have hpos : 0 < (n : ℝ) / d := div_pos hn' hd'
    rcases Nat.lt_trichotomy (2 * n) d with hc | hc | hc
    · have : (n : ℝ) / d < 1 / 2 := by
        rw [div_lt_div_iff₀ hd' (by norm_num)]
        exact_mod_cast (by omega : n * 2 < 1 * d)
      rw [Nat.compare_eq_lt.mpr hc]
      show (m : ℝ) < m + n / d ∧ (m : ℝ) + n / d < m + 1 / 2
      constructor <;> linarith
    · have : (n : ℝ) / d = 1 / 2 := by
        rw [div_eq_div_iff hd'.ne' (by norm_num)]
        exact_mod_cast (by omega : n * 2 = 1 * d)
      rw [Nat.compare_eq_eq.mpr hc, this]
      rfl
    · have : 1 / 2 < (n : ℝ) / d := by
        rw [div_lt_div_iff₀ (by norm_num) hd']
        exact_mod_cast (by omega : 1 * d < n * 2)
      rw [Nat.compare_eq_gt.mpr hc]
      show (m : ℝ) + 1 / 2 < m + n / d ∧ (m : ℝ) + n / d < m + 1
      constructor <;> linarith

end Locates

/-! ## The exponent to shift to -/

theorem log_eq {m : Nat} {y : ℝ} (e : ℤ) (hm : m ≠ 0) (hl : m ≤ y) (hu : y < m + 1) :
    Int.log 2 (y * (2 : ℝ) ^ e) = m.log2 + e := by
  have hp : (0 : ℝ) < (2 : ℝ) ^ e := zpow_pos (by norm_num) e
  have hy : 0 < y * (2 : ℝ) ^ e :=
    mul_pos (lt_of_lt_of_le (by exact_mod_cast Nat.pos_of_ne_zero hm) hl) hp
  have h₁ : (m.log2 : ℤ) + e ≤ Int.log 2 (y * (2 : ℝ) ^ e) := by
    rw [← Int.zpow_le_iff_le_log (by norm_num) hy, Nat.cast_ofNat, zpow_add₀ (by norm_num),
      zpow_natCast]
    refine mul_le_mul_of_nonneg_right (le_trans ?_ hl) hp.le
    exact_mod_cast Nat.log2_self_le hm
  have h₂ : Int.log 2 (y * (2 : ℝ) ^ e) < m.log2 + 1 + e := by
    rw [← Int.lt_zpow_iff_log_lt (by norm_num) hy, Nat.cast_ofNat, zpow_add₀ (by norm_num)]
    refine mul_lt_mul_of_pos_right (lt_of_lt_of_le hu ?_) hp
    exact_mod_cast Nat.lt_log2_self
  omega

/-- The target exponent is taken from the mantissa and the exponent.  It is that of the exact
number. -/
theorem targetExponent_eq {m : Nat} {y : ℝ} (e : ℤ) (hm : m ≠ 0) (hl : m ≤ y)
    (hu : y < m + 1) :
    spec.targetExponent (totalExponent m e) = grain spec (y * (2 : ℝ) ^ e) := by
  have hy : 0 < y := lt_of_lt_of_le (by exact_mod_cast Nat.pos_of_ne_zero hm) hl
  rw [grain, abs_of_pos (mul_pos hy (zpow_pos (by norm_num) e)), log_eq e hm hl hu, totalExponent]
  congr 1
  omega

theorem targetExponent_zero {y : ℝ} {e : ℤ} (hy : 0 < y) (hu : y < 1)
    (he : e ≤ grain spec (y * (2 : ℝ) ^ e)) :
    spec.targetExponent (totalExponent 0 e) = grain spec (y * (2 : ℝ) ^ e) := by
  have hp : (0 : ℝ) < (2 : ℝ) ^ e := zpow_pos (by norm_num) e
  have hx := mul_pos hy hp
  have hl : Int.log 2 (y * (2 : ℝ) ^ e) < e := by
    rw [← Int.lt_zpow_iff_log_lt (by norm_num) hx, Nat.cast_ofNat]
    nlinarith
  have hb := mantissaBits_eq spec
  rw [grain_eq, abs_of_pos hx] at he ⊢
  unfold Format.targetExponent totalExponent
  rw [Nat.log2_zero]
  omega

/-! ## Rounding an unpacked number -/

/-- A number of the format that stands for the rounded magnitude `x` with a sign. -/
def IsRounded (spec : Format) (s : Sign) (x : ℝ) (u : UnpackedFloat) : Prop :=
  (u = .zero s ∧ rounded spec x = 0) ∨
    ∃ m e h, u = .finite s m e h ∧ IsCanonical spec m e ∧ m * (2 : ℝ) ^ e = rounded spec x

theorem shift_of_le {m : Nat} {e : ℤ} (hm : m < 2 ^ spec.mantissaBits)
    (he : spec.minExponent ≤ e) :
    shiftToTargetExponent spec m e .exact = (⟨m, false, false⟩, e) := by
  have hl : m.log2 < spec.mantissaBits := by
    by_cases hz : m = 0
    · rw [hz, Nat.log2_zero, mantissaBits_eq]
      exact Nat.succ_pos _
    · exact (Nat.log2_lt hz).mpr hm
  have ht : (spec.targetExponent (totalExponent m e) - e).toNat = 0 := by
    unfold Format.targetExponent totalExponent
    omega
  rw [shiftToTargetExponent, shiftToExponent, ht, Nat.cast_zero, add_zero]
  rfl

theorem shift_carried {e : ℤ} (he : spec.minExponent ≤ e) :
    shiftToTargetExponent spec (2 ^ spec.mantissaBits) e .exact =
      (⟨2 ^ spec.mantissaBitsWithoutImplicit, false, false⟩, e + 1) := by
  have ht : (spec.targetExponent (totalExponent (2 ^ spec.mantissaBits) e) - e).toNat = 1 := by
    unfold Format.targetExponent totalExponent
    rw [Nat.log2_two_pow]
    omega
  have hd : 2 ^ spec.mantissaBits / 2 = 2 ^ spec.mantissaBitsWithoutImplicit := by
    rw [mantissaBits_eq, pow_succ, Nat.mul_div_cancel _ (by norm_num)]
  have hr : 2 ^ spec.mantissaBits % 2 = 0 := by
    rw [mantissaBits_eq, pow_succ, Nat.mul_mod_left]
  rw [shiftToTargetExponent, shiftToExponent, ht, Nat.cast_one]
  show (ExtendedMantissa.mk (2 ^ spec.mantissaBits / 2) (2 ^ spec.mantissaBits % 2 != 0) false,
    e + 1) = _
  rw [hd, hr]
  rfl

/-- The rounded mantissa, at the exponent it was rounded to, after a carry has been moved
into the exponent. -/
theorem normalized {m : Nat} {e : ℤ} {x : ℝ} (s : Sign) (hx : 0 < x)
    (hm : (m : ℤ) = roundEven (x / (2 : ℝ) ^ grain spec x)) (he : e = grain spec x) :
    let r := shiftToTargetExponent spec m e .exact
    IsRounded spec s x (if h : r.1.mantissa = 0 then .zero s
      else .finite s r.1.mantissa r.2 (Nat.pos_of_ne_zero h)) := by
  have hle : m ≤ 2 ^ spec.mantissaBits := by
    have := roundEven_le_digits spec hx.le
    rw [← hm] at this
    exact_mod_cast this
  have hmin : spec.minExponent ≤ e := he ▸ minExponent_le_grain spec x
  have hval : (m : ℝ) * (2 : ℝ) ^ e = rounded spec x := by
    rw [rounded, ← hm, he, Int.cast_natCast]
  rcases Nat.lt_or_eq_of_le hle with hlt | heq
  · rw [shift_of_le hlt hmin]
    dsimp only
    split_ifs with hz
    · refine Or.inl ⟨rfl, ?_⟩
      rw [← hval, hz, Nat.cast_zero, zero_mul]
    · refine Or.inr ⟨m, e, Nat.pos_of_ne_zero hz, rfl, ⟨hlt, hmin, ?_⟩, hval⟩
      rcases lt_or_eq_of_le hmin with hg | hg
      · left
        have := digits_le_roundEven spec hx (he ▸ hg)
        rw [← hm] at this
        exact_mod_cast this
      · exact Or.inr hg.symm
  · rw [heq, shift_carried hmin]
    dsimp only
    have hz : 2 ^ spec.mantissaBitsWithoutImplicit ≠ 0 := (Nat.two_pow_pos _).ne'
    rw [dif_neg hz]
    refine Or.inr ⟨_, _, Nat.pos_of_ne_zero hz, rfl, ⟨?_, by omega, Or.inl le_rfl⟩, ?_⟩
    · rw [mantissaBits_eq]
      exact Nat.pow_lt_pow_right (by norm_num) (Nat.lt_succ_self _)
    · rw [← hval, heq, mantissaBits_eq, zpow_add_one₀ (by norm_num)]
      push_cast
      ring

/-- Rounding a mantissa with its accuracy is rounding the number it was cut off from, if
enough digits were left. -/
theorem roundWithAccuracy_isRounded {m : Nat} {e : ℤ} {acc : Accuracy} {y : ℝ} (s : Sign)
    (hloc : Locates (.ofMantissaAndAccuracy m acc) y) (hy : 0 < y)
    (he : e ≤ grain spec (y * (2 : ℝ) ^ e)) :
    IsRounded spec s (y * (2 : ℝ) ^ e) (roundWithAccuracy spec s m e acc) := by
  have hx : 0 < y * (2 : ℝ) ^ e := mul_pos hy (zpow_pos (by norm_num) e)
  have hm : (ExtendedMantissa.ofMantissaAndAccuracy m acc).mantissa = m := by
    cases acc with
    | exact => rfl
    | inexact o => cases o <;> rfl
  have hb := hloc.bounds
  rw [hm] at hb
  have ht : spec.targetExponent (totalExponent m e) = grain spec (y * (2 : ℝ) ^ e) := by
    by_cases hz : m = 0
    · rw [hz] at hb ⊢
      exact targetExponent_zero hy (by simpa using hb.2) he
    · exact targetExponent_eq e hz hb.1 hb.2
  obtain ⟨k, hk⟩ := Int.eq_ofNat_of_zero_le (sub_nonneg.mpr he)
  have hs : shiftToTargetExponent spec m e acc =
      (ExtendedMantissa.ofMantissaAndAccuracy m acc >>> k, grain spec (y * (2 : ℝ) ^ e)) := by
    rw [shiftToTargetExponent, shiftToExponent, ht, hk, Int.toNat_natCast]
    congr 1
    omega
  have hq : y / 2 ^ k = y * (2 : ℝ) ^ e / (2 : ℝ) ^ grain spec (y * (2 : ℝ) ^ e) := by
    rw [show grain spec (y * (2 : ℝ) ^ e) = k + e by omega, zpow_add₀ (by norm_num),
      zpow_natCast, mul_div_mul_right _ _ (zpow_ne_zero e (by norm_num))]
  have hr := (hloc.shiftRight k).roundedMantissa_eq
  rw [hq] at hr
  unfold roundWithAccuracy
  rw [hs]
  exact normalized s hx hr rfl

theorem shiftLeft_mul_zpow (m k : Nat) (e : ℤ) :
    ((m <<< k : Nat) : ℝ) * (2 : ℝ) ^ (e - k) = m * (2 : ℝ) ^ e := by
  rw [Nat.shiftLeft_eq, zpow_sub₀ (by norm_num), zpow_natCast]
  push_cast
  rw [mul_assoc, mul_div_cancel₀ _ (pow_ne_zero k (by norm_num))]

/-- A mantissa with too few digits is extended by zeros first. -/
theorem round_isRounded (s : Sign) {m : Nat} (hm : m ≠ 0) (e : ℤ) :
    IsRounded spec s (m * (2 : ℝ) ^ e) (UnpackedFloat.round spec s m e) := by
  have ht : spec.targetExponent (totalExponent m e) = grain spec (m * (2 : ℝ) ^ e) :=
    targetExponent_eq e hm le_rfl (lt_add_one _)
  unfold UnpackedFloat.round decreaseExponent
  rw [ht]
  dsimp only
  generalize hk : (e - grain spec (m * (2 : ℝ) ^ e)).toNat = k
  have hx := shiftLeft_mul_zpow m k e
  have hpos : 0 < ((m <<< k : Nat) : ℝ) := by
    rw [Nat.shiftLeft_eq]
    exact_mod_cast Nat.mul_pos (Nat.pos_of_ne_zero hm) (Nat.two_pow_pos k)
  have hr : IsRounded spec s _ _ := roundWithAccuracy_isRounded (e := e - k) s
    (Locates.exact (m <<< k)) hpos (by rw [hx]; omega)
  rwa [hx] at hr

end Binary
end Seismic
