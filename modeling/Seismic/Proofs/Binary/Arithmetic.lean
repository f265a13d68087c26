import Seismic.Proofs.Binary.Comparison

/-!
# Arithmetic

Sum, difference, product and quotient of two numbers of a format are the numbers nearest to
the exact results.  With infinities among the operands this is so wherever the extended line
has a result: not for infinities that cancel, and not for a product of zero and an infinity.
-/

namespace Seismic
namespace Binary

open Float.Model
open Float.Model.UnpackedFloat

variable {spec : Format}

/-- Packed, the result of an operation is the number nearest to `x`. -/
structure Yields (spec : Format) (u : UnpackedFloat) (x : EReal) : Prop where
  isNumber : UnpackedFloat.unpack spec (UnpackedFloat.pack spec u) ≠ .notANumber
  value_eq : value (UnpackedFloat.unpack spec (UnpackedFloat.pack spec u)) = nearest spec x

theorem IsRounded.yields (hs : 1 < spec.exponentBits) {s : Sign} {x : ℝ} {u : UnpackedFloat}
    (hu : IsRounded spec s x u) : Yields spec u (signum s * x : ℝ) :=
  ⟨unpack_pack_ne_notANumber hu, value_unpack_pack hs hu⟩

theorem InFormat.yields {u : UnpackedFloat} (hu : InFormat spec u) (hn : u ≠ .notANumber) :
    Yields spec u (value u) := by
  refine ⟨?_, ?_⟩
  · rwa [unpack_pack hu]
  · rw [unpack_pack hu, nearest_value hu]

theorem yields_zero (s : Sign) : Yields spec (.zero s) (0 : ℝ) :=
  InFormat.yields (u := .zero s) trivial UnpackedFloat.noConfusion

theorem yields_infinity (s : Sign) : Yields spec (.infinity s) (value (.infinity s)) :=
  InFormat.yields (u := .infinity s) trivial UnpackedFloat.noConfusion

/-! ## Integers at an exponent -/

theorem round_yields (hs : 1 < spec.exponentBits) (s : Sign) {m : Nat} (hm : m ≠ 0) (e : ℤ) :
    Yields spec (UnpackedFloat.round spec s m e) (signum s * (m * (2 : ℝ) ^ e) : ℝ) :=
  (round_isRounded s hm e).yields hs

theorem normalize_yields (hs : 1 < spec.exponentBits) (n e : ℤ) (z : Sign) :
    Yields spec (UnpackedFloat.normalize spec n e z) (n * (2 : ℝ) ^ e : ℝ) := by
  unfold UnpackedFloat.normalize
  rcases lt_trichotomy n 0 with h | h | h
  · rw [compare_lt_iff_lt.mpr h]
    have hm : (-n).toNat ≠ 0 := by omega
    have hr := round_yields hs .negative hm e
    have hc : (((-n).toNat : ℕ) : ℝ) = -(n : ℝ) := by
      rw [← Int.cast_natCast, Int.toNat_of_nonneg (by omega), Int.cast_neg]
    rw [hc] at hr
    refine cast (congrArg _ ?_) hr
    rw [signum]
    congr 1
    ring
  · rw [compare_eq_iff_eq.mpr h, h, Int.cast_zero, zero_mul]
    exact yields_zero z
  · rw [compare_gt_iff_gt.mpr h]
    have hm : n.toNat ≠ 0 := by omega
    have hr := round_yields hs .positive hm e
    have hc : ((n.toNat : ℕ) : ℝ) = (n : ℝ) := by
      rw [← Int.cast_natCast, Int.toNat_of_nonneg h.le]
    rw [hc, signum, one_mul] at hr
    exact hr

theorem real_decreaseExponent (s : Sign) {m : Nat} {e low : ℤ} (h : low ≤ e) :
    (s.apply (decreaseExponent m e low).1 : ℝ) * (2 : ℝ) ^ low =
      signum s * (m * (2 : ℝ) ^ e) := by
  obtain ⟨k, hk⟩ := Int.eq_ofNat_of_zero_le (sub_nonneg.mpr h)
  have hl : low = e - k := by omega
  rw [cast_apply, decreaseExponent, hk, Int.toNat_natCast, hl, Int.cast_natCast, mul_assoc,
    shiftLeft_mul_zpow]

/-! ## Sums and differences -/

theorem add_yields (hs : 1 < spec.exponentBits) {u v : UnpackedFloat} (hu : InFormat spec u)
    (hv : InFormat spec v) (hun : u.isFinite) (hvn : v.isFinite) :
    Yields spec (u.add spec v) (real u + real v : ℝ) := by
  cases u with
  | notANumber => cases hun
  | infinity s => cases hun
  | zero s =>
    rw [real_zero, zero_add]
    cases v with
    | notANumber => cases hvn
    | infinity t => cases hvn
    | zero t =>
      rw [real_zero, UnpackedFloat.add]
      split_ifs
      · exact yields_zero s
      · exact yields_zero .positive
    | finite t m e h => exact hv.yields UnpackedFloat.noConfusion
  | finite s m e h =>
    cases v with
    | notANumber => cases hvn
    | infinity t => cases hvn
    | zero t =>
      rw [real_zero, add_zero]
      exact hu.yields UnpackedFloat.noConfusion
    | finite t m' e' h' =>
      have hy := normalize_yields hs (s.apply (decreaseExponent m e (min e e')).1 +
        t.apply (decreaseExponent m' e' (min e e')).1) (min e e') .positive
      rw [Int.cast_add, add_mul, real_decreaseExponent s (min_le_left e e'),
        real_decreaseExponent t (min_le_right e e')] at hy
      rw [real_finite, real_finite]
      exact hy

theorem infinity_add_yields {v : UnpackedFloat} (s : Sign) (hv : v.isFinite) :
    Yields spec (UnpackedFloat.add spec (.infinity s) v) (value (.infinity s)) := by
  cases v with
  | notANumber => cases hv
  | infinity t => cases hv
  | _ => exact yields_infinity s

theorem value_infinity_add (s : Sign) (x : ℝ) :
    value (.infinity s) + (x : EReal) = value (.infinity s) := by
  cases s with
  | positive => exact EReal.top_add_coe x
  | negative => exact EReal.bot_add _

theorem add_value_yields (hs : 1 < spec.exponentBits) {u v : UnpackedFloat}
    (hu : InFormat spec u) (hv : InFormat spec v) (hun : u ≠ .notANumber) (hvn : v.isFinite) :
    Yields spec (u.add spec v) (value u + value v) := by
  rw [value_of_isFinite hvn]
  cases u with
  | notANumber => exact absurd rfl hun
  | infinity s =>
    rw [value_infinity_add]
    exact infinity_add_yields s hvn
  | _ =>
    rw [value_of_isFinite rfl, ← EReal.coe_add]
    exact add_yields hs hu hv rfl hvn

/-- Addends trade places where only the second one can be infinite. -/
theorem finite_add_value_yields (hs : 1 < spec.exponentBits) {u v : UnpackedFloat}
    (hu : InFormat spec u) (hv : InFormat spec v) (hun : u.isFinite) (hvn : v ≠ .notANumber) :
    Yields spec (u.add spec v) (value u + value v) := by
  rw [value_of_isFinite hun]
  cases v with
  | notANumber => exact absurd rfl hvn
  | infinity s =>
    rw [add_comm, value_infinity_add]
    cases u with
    | notANumber => cases hun
    | infinity t => cases hun
    | _ => exact yields_infinity s
  | _ =>
    rw [value_of_isFinite rfl, ← EReal.coe_add]
    exact add_yields hs hu hv hun rfl

/-! ## Opposite numbers and differences -/

theorem sub_eq_add (u v : UnpackedFloat) : u.sub spec v = u.add spec v.neg := by
  cases u with
  | notANumber => rfl
  | infinity s => cases v <;> rfl
  | zero s => cases v <;> rfl
  | finite s m e h =>
    cases v with
    | finite t m' e' h' =>
      have ha : ∀ n : ℤ, (-t : Sign).apply n = -t.apply n := by
        intro n
        cases t
        · exact (Int.neg_neg n).symm
        · rfl
      unfold UnpackedFloat.sub UnpackedFloat.add UnpackedFloat.neg
      dsimp only
      rw [ha, ← Int.sub_eq_add_neg]
    | _ => rfl

theorem signum_neg (s : Sign) : signum (-s) = -signum s := by
  cases s with
  | negative => exact (neg_neg 1).symm
  | positive => rfl

theorem neg_ne_notANumber {u : UnpackedFloat} (h : u ≠ .notANumber) : u.neg ≠ .notANumber := by
  cases u with
  | notANumber => exact absurd rfl h
  | _ => exact UnpackedFloat.noConfusion

theorem isFinite_neg (u : UnpackedFloat) : u.neg.isFinite = u.isFinite := by
  cases u <;> rfl

theorem inFormat_neg {u : UnpackedFloat} (h : InFormat spec u) : InFormat spec u.neg := by
  cases u <;> exact h

theorem inFormat_abs {u : UnpackedFloat} (h : InFormat spec u) : InFormat spec u.abs := by
  cases u <;> exact h

theorem value_neg (u : UnpackedFloat) : value u.neg = -value u := by
  cases u with
  | infinity s =>
    cases s with
    | negative => exact EReal.neg_bot.symm
    | positive => exact EReal.neg_top.symm
  | finite s m e h =>
    rw [UnpackedFloat.neg, value_finite, value_finite, signum_neg, neg_mul, EReal.coe_neg]
  | zero s => exact neg_zero.symm
  | notANumber => exact neg_zero.symm

theorem overflowed_neg (x : ℝ) : overflowed spec (-x) = -overflowed spec x := by
  have := limit_pos spec
  unfold overflowed
  split_ifs <;> first | rfl | (exfalso; linarith)

theorem nearest_neg (x : EReal) : nearest spec (-x) = -nearest spec x := by
  induction x with
  | bot => rw [EReal.neg_bot, nearest_top, nearest_bot, EReal.neg_bot]
  | top => rw [EReal.neg_top, nearest_top, nearest_bot, EReal.neg_top]
  | coe x => rw [← EReal.coe_neg, nearest_coe, nearest_coe, rounded_neg, overflowed_neg]

theorem sub_value_yields (hs : 1 < spec.exponentBits) {u v : UnpackedFloat}
    (hu : InFormat spec u) (hv : InFormat spec v) (hun : u ≠ .notANumber) (hvn : v.isFinite) :
    Yields spec (u.sub spec v) (value u - value v) := by
  have hy := add_value_yields hs hu (inFormat_neg hv) hun (by rwa [isFinite_neg])
  rwa [value_neg, ← sub_eq_add_neg, ← sub_eq_add] at hy

theorem finite_sub_value_yields (hs : 1 < spec.exponentBits) {u v : UnpackedFloat}
    (hu : InFormat spec u) (hv : InFormat spec v) (hun : u.isFinite) (hvn : v ≠ .notANumber) :
    Yields spec (u.sub spec v) (value u - value v) := by
  have hy := finite_add_value_yields hs hu (inFormat_neg hv) hun (neg_ne_notANumber hvn)
  rwa [value_neg, ← sub_eq_add_neg, ← sub_eq_add] at hy

/-! ## Products -/

theorem signum_mul (s t : Sign) : signum (s * t) = signum s * signum t := by
  cases s <;> cases t
  · exact (by norm_num : (1 : ℝ) = -1 * -1)
  · exact (by norm_num : (-1 : ℝ) = -1 * 1)
  · exact (by norm_num : (-1 : ℝ) = 1 * -1)
  · exact (by norm_num : (1 : ℝ) = 1 * 1)

theorem minExponent_nonpos (hs : 1 < spec.exponentBits) : spec.minExponent ≤ 0 := by
  have := one_lt_half hs
  rw [minExponent_eq]
  omega

/-- A product has enough digits to be rounded: one of the mantissas has all digits, or both
are at the least exponent. -/
theorem mul_exponent_le (hs : 1 < spec.exponentBits) {m₁ m₂ : Nat} {e₁ e₂ : ℤ} (p₁ : 0 < m₁)
    (p₂ : 0 < m₂) (h₁ : IsCanonical spec m₁ e₁) (h₂ : IsCanonical spec m₂ e₂) :
    e₁ + e₂ ≤ grain spec ((m₁ * m₂ : Nat) * (2 : ℝ) ^ (e₁ + e₂)) := by
  have hmin := minExponent_nonpos hs
  have hl : m₁ * m₂ ≠ 0 := (Nat.mul_pos p₁ p₂).ne'
  have hp := magnitude_pos (e₁ + e₂) (Nat.mul_pos p₁ p₂)
  have hg := grain_eq spec ((m₁ * m₂ : Nat) * (2 : ℝ) ^ (e₁ + e₂))
  rw [abs_of_pos hp, log_eq (e₁ + e₂) hl le_rfl (lt_add_one _), mantissaBits_eq] at hg
  have hfull : 2 ^ spec.mantissaBitsWithoutImplicit ≤ m₁ * m₂ ∨
      (e₁ = spec.minExponent ∧ e₂ = spec.minExponent) := by
    rcases h₁.full with h | h
    · exact Or.inl (le_trans h (Nat.le_mul_of_pos_right m₁ p₂))
    · rcases h₂.full with h' | h'
      · exact Or.inl (le_trans h' (Nat.le_mul_of_pos_left m₂ p₁))
      · exact Or.inr ⟨h, h'⟩
  rcases hfull with h | ⟨h, h'⟩
  · have := (Nat.le_log2 hl).mpr h
    omega
  · omega

theorem mul_yields (hs : 1 < spec.exponentBits) {u v : UnpackedFloat} (hu : InFormat spec u)
    (hv : InFormat spec v) (hun : u.isFinite) (hvn : v.isFinite) :
    Yields spec (u.mul spec v) (real u * real v : ℝ) := by
  cases u with
  | notANumber => cases hun
  | infinity s => cases hun
  | zero s =>
    rw [real_zero, zero_mul]
    cases v with
    | notANumber => cases hvn
    | infinity t => cases hvn
    | zero t => exact yields_zero (s * t)
    | finite t m e h => exact yields_zero (s * t)
  | finite s m e h =>
    cases v with
    | notANumber => cases hvn
    | infinity t => cases hvn
    | zero t =>
      rw [real_zero, mul_zero]
      exact yields_zero (s * t)
    | finite t m' e' h' =>
      have hy := (roundWithAccuracy_isRounded (s * t) (Locates.exact (m * m'))
        (by exact_mod_cast Nat.mul_pos h h') (mul_exponent_le hs h h' hu.1 hv.1)).yields hs
      have hx : signum (s * t) * ((m * m' : Nat) * (2 : ℝ) ^ (e + e')) =
          real (.finite s m e h) * real (.finite t m' e' h') := by
        rw [signum_mul, real_finite, real_finite, zpow_add₀ (by norm_num), Nat.cast_mul]
        ring
      rwa [hx] at hy

/-! ## Quotients -/

theorem signum_div (s t : Sign) : signum (s / t) = signum s / signum t := by
  cases s <;> cases t
  · exact (by norm_num : (1 : ℝ) = -1 / -1)
  · exact (by norm_num : (-1 : ℝ) = -1 / 1)
  · exact (by norm_num : (-1 : ℝ) = 1 / -1)
  · exact (by norm_num : (1 : ℝ) = 1 / 1)

theorem log_div_le {x y : ℝ} (hx : 0 < x) (hy : 0 < y) :
    Int.log 2 x - Int.log 2 y ≤ Int.log 2 (x / y) + 1 := by
  have h₁ : ((2 : ℕ) : ℝ) ^ Int.log 2 x ≤ x := Int.zpow_log_le_self (by norm_num) hx
  have h₂ : y < ((2 : ℕ) : ℝ) ^ (Int.log 2 y + 1) := Int.lt_zpow_succ_log_self (by norm_num) y
  have h : ((2 : ℕ) : ℝ) ^ (Int.log 2 x - Int.log 2 y - 1) ≤ x / y := by
    rw [le_div_iff₀ hy]
    calc ((2 : ℕ) : ℝ) ^ (Int.log 2 x - Int.log 2 y - 1) * y
        ≤ ((2 : ℕ) : ℝ) ^ (Int.log 2 x - Int.log 2 y - 1) *
            ((2 : ℕ) : ℝ) ^ (Int.log 2 y + 1) :=
          mul_le_mul_of_nonneg_left h₂.le (zpow_pos (by norm_num) _).le
      _ = ((2 : ℕ) : ℝ) ^ Int.log 2 x := by
          rw [← zpow_add₀ (by norm_num)]
          congr 1
          omega
      _ ≤ x := h₁
  have := (Int.zpow_le_iff_le_log (by norm_num) (div_pos hx hy)).mp h
  omega

/-- The quotient of mantissas is cut off at an exponent at which it has enough digits. -/
theorem divCore_eq (m₁ m₂ : Nat) (e₁ e₂ : ℤ) : ∃ (low : ℤ) (k : Nat), e₁ - e₂ - low = k ∧
    low ≤ spec.targetExponent (totalExponent m₁ e₁ - totalExponent m₂ e₂) ∧
    divCore spec m₁ e₁ m₂ e₂ =
      ((m₁ <<< k) / m₂, low, accuracyOfFraction ((m₁ <<< k) % m₂) m₂) := by
  obtain ⟨low, hlow⟩ : ∃ low, low = min (e₁ - e₂)
    (spec.targetExponent (totalExponent m₁ e₁ - totalExponent m₂ e₂)) := ⟨_, rfl⟩
  obtain ⟨k, hk⟩ : ∃ k : ℕ, e₁ - e₂ - low = k :=
    Int.eq_ofNat_of_zero_le (sub_nonneg.mpr (hlow ▸ min_le_left _ _))
  refine ⟨low, k, hk, hlow ▸ min_le_right _ _, ?_⟩
  unfold divCore
  rw [← hlow]
  dsimp only
  rw [hk, Int.toNat_natCast]

theorem locates_quotient (n : Nat) {d : Nat} (hd : 0 < d) :
    Locates (.ofMantissaAndAccuracy (n / d) (accuracyOfFraction (n % d) d)) ((n : ℝ) / d) := by
  have hd' : (0 : ℝ) < d := by exact_mod_cast hd
  have hn : ((n / d : ℕ) : ℝ) + ((n % d : ℕ) : ℝ) / d = (n : ℝ) / d := by
    rw [eq_div_iff hd'.ne', add_mul, div_mul_cancel₀ _ hd'.ne']
    exact_mod_cast Nat.div_add_mod' n d
  have h := Locates.fraction (m := n / d) (Nat.mod_lt n hd)
  rwa [hn] at h

theorem div_finite_yields (hs : 1 < spec.exponentBits) {s t : Sign} {m₁ m₂ : Nat} {e₁ e₂ : ℤ}
    (h₁ : 0 < m₁) (h₂ : 0 < m₂) :
    Yields spec (UnpackedFloat.div spec (.finite s m₁ e₁ h₁) (.finite t m₂ e₂ h₂))
      (real (.finite s m₁ e₁ h₁) / real (.finite t m₂ e₂ h₂) : ℝ) := by
  have hx := magnitude_pos e₁ h₁
  have hy := magnitude_pos e₂ h₂
  obtain ⟨low, k, hk, hlow, hcore⟩ := @divCore_eq spec m₁ m₂ e₁ e₂
  have hq : ((m₁ <<< k : ℕ) : ℝ) / m₂ * (2 : ℝ) ^ low =
      (m₁ * (2 : ℝ) ^ e₁) / (m₂ * (2 : ℝ) ^ e₂) := by
    have hs := shiftLeft_mul_zpow m₁ k e₁
    rw [show e₁ - k = low + e₂ by omega, zpow_add₀ (by norm_num)] at hs
    rw [eq_div_iff hy.ne', ← hs]
    field_simp
  have hpos : 0 < ((m₁ <<< k : ℕ) : ℝ) / m₂ := by
    have := div_pos hx hy
    rw [← hq] at this
    exact pos_of_mul_pos_left this (zpow_pos (by norm_num) low).le
  have hg : low ≤ grain spec (((m₁ <<< k : ℕ) : ℝ) / m₂ * (2 : ℝ) ^ low) := by
    have hd := log_div_le hx hy
    rw [log_eq e₁ h₁.ne' le_rfl (lt_add_one _), log_eq e₂ h₂.ne' le_rfl (lt_add_one _)] at hd
    rw [hq, grain_eq, abs_of_pos (div_pos hx hy)]
    unfold Format.targetExponent totalExponent at hlow
    omega
  have hr := (roundWithAccuracy_isRounded (s / t) (locates_quotient _ h₂) hpos hg).yields hs
  have hv : signum (s / t) * (((m₁ <<< k : ℕ) : ℝ) / m₂ * (2 : ℝ) ^ low) =
      real (.finite s m₁ e₁ h₁) / real (.finite t m₂ e₂ h₂) := by
    rw [hq, signum_div, real_finite, real_finite, div_mul_div_comm]
  rw [hv] at hr
  show Yields spec (roundWithAccuracy spec (s / t) (divCore spec m₁ e₁ m₂ e₂).1
    (divCore spec m₁ e₁ m₂ e₂).2.1 (divCore spec m₁ e₁ m₂ e₂).2.2) _
  rw [hcore]
  exact hr

theorem value_infinity_div (s t : Sign) {m : Nat} {e : ℤ} (h : 0 < m) :
    value (.infinity s) / value (.finite t m e h) = value (.infinity (s / t)) := by
  have hp := magnitude_pos e h
  rw [value_finite]
  cases t with
  | positive =>
    have hx : (0 : EReal) < (signum .positive * (m * (2 : ℝ) ^ e) : ℝ) := by
      rw [signum, one_mul]
      exact_mod_cast hp
    cases s with
    | positive => exact EReal.top_div_of_pos_ne_top hx (EReal.coe_ne_top _)
    | negative => exact EReal.bot_div_of_pos_ne_top hx (EReal.coe_ne_top _)
  | negative =>
    have hx : (signum .negative * (m * (2 : ℝ) ^ e) : ℝ) < (0 : EReal) := by
      rw [signum, neg_one_mul]
      exact_mod_cast neg_neg_of_pos hp
    cases s with
    | positive => exact EReal.top_div_of_neg_ne_bot hx (EReal.coe_ne_bot _)
    | negative => exact EReal.bot_div_of_neg_ne_bot hx (EReal.coe_ne_bot _)

theorem div_value_yields (hs : 1 < spec.exponentBits) {u v : UnpackedFloat}
    (hun : u ≠ .notANumber) (hvn : v.isFinite) (hv : real v ≠ 0) :
    Yields spec (u.div spec v) (value u / value v) := by
  cases v with
  | notANumber => cases hvn
  | infinity t => cases hvn
  | zero t => exact absurd rfl hv
  | finite t m e h =>
    cases u with
    | notANumber => exact absurd rfl hun
    | infinity s =>
      rw [value_infinity_div]
      exact yields_infinity (s / t)
    | zero s =>
      rw [value_zero, EReal.zero_div]
      exact yields_zero (s / t)
    | finite s m' e' h' =>
      rw [value_of_isFinite rfl, value_of_isFinite rfl, ← EReal.coe_div]
      exact div_finite_yields hs h' h

/-! ## Operands that are not finite -/

theorem unpack_pack_special {u : UnpackedFloat} (h : ¬ u.isFinite = true) :
    UnpackedFloat.unpack spec (UnpackedFloat.pack spec u) = u := by
  cases u with
  | infinity s => exact unpack_pack_infinity s
  | notANumber => exact unpack_pack_notANumber
  | zero s => exact absurd rfl h
  | finite s m e hm => exact absurd rfl h

theorem isFinite_sub_special {u v : UnpackedFloat}
    (h : ¬ u.isFinite = true ∨ ¬ v.isFinite = true) : ¬ (u.sub spec v).isFinite = true := by
  have hi : ∀ s t : Sign, ¬ (UnpackedFloat.sub spec (.infinity s) (.infinity t)).isFinite = true := by
    intro s t
    cases s <;> cases t <;> exact Bool.false_ne_true
  cases u with
  | infinity s => cases v <;> first | exact hi _ _ | exact Bool.false_ne_true
  | notANumber => exact Bool.false_ne_true
  | zero s => cases v <;> first | exact Bool.false_ne_true | simp [UnpackedFloat.isFinite] at h
  | finite s m e hm =>
    cases v <;> first | exact Bool.false_ne_true | simp [UnpackedFloat.isFinite] at h

theorem isFinite_div_special {u : UnpackedFloat} (v : UnpackedFloat) (h : ¬ u.isFinite = true) :
    ¬ (u.div spec v).isFinite = true := by
  cases u with
  | infinity s => cases v <;> exact Bool.false_ne_true
  | notANumber => exact Bool.false_ne_true
  | zero s => exact absurd rfl h
  | finite s m e hm => exact absurd rfl h

end Binary
end Seismic
