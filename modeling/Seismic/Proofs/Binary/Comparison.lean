import Seismic.Proofs.Binary.Packed

/-!
# Comparison

Numbers of one format are compared by exponent first and by mantissa second.  This is the
order of the numbers they stand for, since a mantissa at a larger exponent has all digits.
The undefined value is comparable with nothing.
-/

namespace Seismic
namespace Binary

open Float.Model
open Float.Model.UnpackedFloat

variable {spec : Format}

/-- An unpacked number as a word of the format has it. -/
def InFormat (spec : Format) : UnpackedFloat → Prop
  | .finite _ m e _ => IsCanonical spec m e ∧ Fits spec e
  | _ => True

theorem unpack_inFormat (hs : 1 < spec.exponentBits) (b : BitVec spec.numBits) :
    InFormat spec (UnpackedFloat.unpack spec b) := by
  cases hu : UnpackedFloat.unpack spec b with
  | finite s m e h => exact unpack_isCanonical hs hu
  | _ => trivial

theorem unpack_pack {u : UnpackedFloat} (hu : InFormat spec u) :
    UnpackedFloat.unpack spec (UnpackedFloat.pack spec u) = u := by
  cases u with
  | infinity s => exact unpack_pack_infinity s
  | notANumber => exact unpack_pack_notANumber
  | zero s => exact unpack_pack_zero s
  | finite s m e h => exact unpack_pack_finite h hu.1 hu.2

theorem value_zero (s : Sign) : value (.zero s) = 0 := rfl

theorem abs_signum_mul (s : Sign) {x : ℝ} (hx : 0 ≤ x) : |signum s * x| = x := by
  cases s with
  | positive => rw [signum, one_mul, abs_of_nonneg hx]
  | negative => rw [signum, neg_one_mul, abs_neg, abs_of_nonneg hx]

theorem magnitude_pos {m : Nat} (e : ℤ) (h : 0 < m) : (0 : ℝ) < m * (2 : ℝ) ^ e :=
  mul_pos (by exact_mod_cast h) (zpow_pos (by norm_num) e)

theorem nearest_value {u : UnpackedFloat} (hu : InFormat spec u) :
    nearest spec (value u) = value u := by
  cases u with
  | infinity s =>
    cases s with
    | positive => exact nearest_top spec
    | negative => exact nearest_bot spec
  | notANumber =>
    show nearest spec ((0 : ℝ) : EReal) = ((0 : ℝ) : EReal)
    rw [nearest_coe, rounded_zero, overflowed_of_lt (by rw [abs_zero]; exact limit_pos spec)]
  | zero s =>
    show nearest spec ((0 : ℝ) : EReal) = ((0 : ℝ) : EReal)
    rw [nearest_coe, rounded_zero, overflowed_of_lt (by rw [abs_zero]; exact limit_pos spec)]
  | finite s m e h =>
    obtain ⟨hc, he⟩ := hu
    have hr : rounded spec (m * (2 : ℝ) ^ e) = m * (2 : ℝ) ^ e := by
      refine rounded_digits spec (n := m) ?_ hc.least
      rw [Nat.abs_cast]
      exact_mod_cast hc.lt
    rw [value_finite, nearest_coe, rounded_signum, hr, overflowed_of_lt]
    rw [abs_signum_mul s (magnitude_pos e h).le]
    exact lt_limit hc he

/-! ## The order -/

theorem lt_of_exponent_lt {m₁ m₂ : Nat} {e₁ e₂ : ℤ} (h₁ : IsCanonical spec m₁ e₁)
    (h₂ : IsCanonical spec m₂ e₂) (h : e₁ < e₂) :
    (m₁ : ℝ) * (2 : ℝ) ^ e₁ < m₂ * (2 : ℝ) ^ e₂ := by
  have hleast := h₁.least
  have hfull : 2 ^ spec.mantissaBitsWithoutImplicit ≤ m₂ := by
    rcases h₂.full with hf | hf
    · exact hf
    · omega
  have hstep : (2 : ℝ) ^ e₁ * 2 ≤ (2 : ℝ) ^ e₂ := by
    rw [← zpow_add_one₀ (by norm_num)]
    exact zpow_le_zpow_right₀ (by norm_num) (by omega)
  have hlt := h₁.lt
  rw [mantissaBits_eq, pow_succ] at hlt
  calc (m₁ : ℝ) * (2 : ℝ) ^ e₁
      < (2 ^ spec.mantissaBitsWithoutImplicit * 2) * (2 : ℝ) ^ e₁ :=
        mul_lt_mul_of_pos_right (by exact_mod_cast hlt) (zpow_pos (by norm_num) _)
    _ = 2 ^ spec.mantissaBitsWithoutImplicit * ((2 : ℝ) ^ e₁ * 2) := by ring
    _ ≤ 2 ^ spec.mantissaBitsWithoutImplicit * (2 : ℝ) ^ e₂ :=
        mul_le_mul_of_nonneg_left hstep (by positivity)
    _ ≤ m₂ * (2 : ℝ) ^ e₂ :=
        mul_le_mul_of_nonneg_right (by exact_mod_cast hfull) (zpow_pos (by norm_num) _).le

theorem compare_magnitudes {m₁ m₂ : Nat} {e₁ e₂ : ℤ} (h₁ : IsCanonical spec m₁ e₁)
    (h₂ : IsCanonical spec m₂ e₂) :
    (compare e₁ e₂).then (compare m₁ m₂) =
      cmp ((m₁ : ℝ) * (2 : ℝ) ^ e₁) (m₂ * (2 : ℝ) ^ e₂) := by
  rcases lt_trichotomy e₁ e₂ with he | he | he
  · rw [compare_lt_iff_lt.mpr he, (cmp_eq_lt_iff _ _).mpr (lt_of_exponent_lt h₁ h₂ he)]
    rfl
  · have hp : (0 : ℝ) < (2 : ℝ) ^ e₂ := zpow_pos (by norm_num) e₂
    have hmono : StrictMono fun m : Nat => (m : ℝ) * (2 : ℝ) ^ e₂ := fun a b hab =>
      mul_lt_mul_of_pos_right (by exact_mod_cast hab) hp
    rw [he, compare_eq_iff_eq.mpr rfl, hmono.cmp_map_eq, cmp_eq_compare]
    rfl
  · rw [compare_gt_iff_gt.mpr he, (cmp_eq_gt_iff _ _).mpr (lt_of_exponent_lt h₂ h₁ he)]
    rfl

theorem cmp_coe (x y : ℝ) : cmp (x : EReal) (y : EReal) = cmp x y :=
  EReal.coe_strictMono.cmp_map_eq x y

theorem real_zero (s : Sign) : real (.zero s) = 0 := rfl

/-- The sign decides first.  Of two negative numbers the one of larger magnitude is
smaller. -/
theorem compare_finite {s t : Sign} {m₁ m₂ : Nat} {e₁ e₂ : ℤ} (p₁ : 0 < m₁) (p₂ : 0 < m₂)
    (h₁ : IsCanonical spec m₁ e₁) (h₂ : IsCanonical spec m₂ e₂) :
    (UnpackedFloat.finite s m₁ e₁ p₁).compare (.finite t m₂ e₂ p₂) =
      some (cmp (real (.finite s m₁ e₁ p₁)) (real (.finite t m₂ e₂ p₂))) := by
  have hx := magnitude_pos e₁ p₁
  have hy := magnitude_pos e₂ p₂
  rw [real_finite, real_finite]
  cases s with
  | positive =>
    cases t with
    | positive =>
      rw [signum, one_mul, one_mul, ← compare_magnitudes h₁ h₂]
      rfl
    | negative =>
      rw [signum, signum, (cmp_eq_gt_iff _ _).mpr (by linarith)]
      rfl
  | negative =>
    cases t with
    | positive =>
      rw [signum, signum, (cmp_eq_lt_iff _ _).mpr (by linarith)]
      rfl
    | negative =>
      have hanti : StrictAnti fun x : ℝ => -1 * x := fun a b hab => by linarith
      rw [signum, hanti.cmp_map_eq, ← cmp_swap, ← compare_magnitudes h₁ h₂]
      rfl

theorem compare_real {u v : UnpackedFloat} (hu : InFormat spec u) (hv : InFormat spec v)
    (hun : u.isFinite) (hvn : v.isFinite) : u.compare v = some (cmp (real u) (real v)) := by
  cases u with
  | notANumber => cases hun
  | infinity s => cases hun
  | zero s =>
    cases v with
    | notANumber => cases hvn
    | infinity t => cases hvn
    | zero t =>
      rw [real_zero, real_zero, (cmp_eq_eq_iff _ _).mpr rfl]
      rfl
    | finite t m e h =>
      have hx := magnitude_pos e h
      rw [real_zero, real_finite]
      cases t with
      | positive =>
        rw [signum, (cmp_eq_lt_iff _ _).mpr (by linarith)]
        rfl
      | negative =>
        rw [signum, (cmp_eq_gt_iff _ _).mpr (by linarith)]
        rfl
  | finite s m e h =>
    cases v with
    | notANumber => cases hvn
    | infinity t => cases hvn
    | zero t =>
      have hx := magnitude_pos e h
      rw [real_zero, real_finite]
      cases s with
      | positive =>
        rw [signum, (cmp_eq_gt_iff _ _).mpr (by linarith)]
        rfl
      | negative =>
        rw [signum, (cmp_eq_lt_iff _ _).mpr (by linarith)]
        rfl
    | finite t m' e' h' => exact compare_finite h h' hu.1 hv.1

theorem value_of_isFinite {u : UnpackedFloat} (h : u.isFinite) : value u = real u := by
  cases u with
  | infinity s => cases h
  | _ => rfl

theorem isFinite_or_infinity {u : UnpackedFloat} (h : u ≠ .notANumber) :
    u.isFinite = true ∨ u = .infinity .positive ∨ u = .infinity .negative := by
  cases u with
  | notANumber => exact absurd rfl h
  | infinity s => cases s <;> simp
  | _ => exact Or.inl rfl

theorem compare_eq {u v : UnpackedFloat} (hu : InFormat spec u) (hv : InFormat spec v)
    (hun : u ≠ .notANumber) (hvn : v ≠ .notANumber) :
    u.compare v = some (cmp (value u) (value v)) := by
  rcases isFinite_or_infinity hun with hu' | rfl | rfl
  · rcases isFinite_or_infinity hvn with hv' | rfl | rfl
    · rw [value_of_isFinite hu', value_of_isFinite hv', cmp_coe, compare_real hu hv hu' hv']
    · rw [value_of_isFinite hu', value, (cmp_eq_lt_iff _ _).mpr (EReal.coe_lt_top _)]
      cases u <;> first | rfl | cases hu'
    · rw [value_of_isFinite hu', value, (cmp_eq_gt_iff _ _).mpr (EReal.bot_lt_coe _)]
      cases u <;> first | rfl | cases hu'
  · rcases isFinite_or_infinity hvn with hv' | rfl | rfl
    · rw [value_of_isFinite hv', value, (cmp_eq_gt_iff _ _).mpr (EReal.coe_lt_top _)]
      cases v <;> first | rfl | cases hv'
    · rw [(cmp_eq_eq_iff _ _).mpr rfl]
      rfl
    · rw [value, value, (cmp_eq_gt_iff _ _).mpr bot_lt_top]
      rfl
  · rcases isFinite_or_infinity hvn with hv' | rfl | rfl
    · rw [value_of_isFinite hv', value, (cmp_eq_lt_iff _ _).mpr (EReal.bot_lt_coe _)]
      cases v <;> first | rfl | cases hv'
    · rw [value, value, (cmp_eq_lt_iff _ _).mpr bot_lt_top]
      rfl
    · rw [(cmp_eq_eq_iff _ _).mpr rfl]
      rfl

theorem compare_notANumber_left (v : UnpackedFloat) : UnpackedFloat.notANumber.compare v = none :=
  rfl

theorem compare_notANumber_right (u : UnpackedFloat) :
    u.compare UnpackedFloat.notANumber = none := by
  cases u <;> rfl

theorem le_iff {u v : UnpackedFloat} (hu : InFormat spec u) (hv : InFormat spec v) :
    u.le v = true ↔ u ≠ .notANumber ∧ v ≠ .notANumber ∧ value u ≤ value v := by
  by_cases hun : u = .notANumber
  · rw [hun, UnpackedFloat.le, compare_notANumber_left]
    simp
  by_cases hvn : v = .notANumber
  · rw [hvn, UnpackedFloat.le, compare_notANumber_right]
    simp
  rw [UnpackedFloat.le, compare_eq hu hv hun hvn]
  rcases lt_trichotomy (value u) (value v) with h | h | h
  · rw [(cmp_eq_lt_iff _ _).mpr h]
    simp [hun, hvn, h.le]
  · rw [(cmp_eq_eq_iff _ _).mpr h]
    simp [hun, hvn, h]
  · rw [(cmp_eq_gt_iff _ _).mpr h]
    simp [hun, hvn, h]

theorem lt_iff {u v : UnpackedFloat} (hu : InFormat spec u) (hv : InFormat spec v) :
    u.lt v = true ↔ u ≠ .notANumber ∧ v ≠ .notANumber ∧ value u < value v := by
  by_cases hun : u = .notANumber
  · rw [hun, UnpackedFloat.lt, compare_notANumber_left]
    simp
  by_cases hvn : v = .notANumber
  · rw [hvn, UnpackedFloat.lt, compare_notANumber_right]
    simp
  rw [UnpackedFloat.lt, compare_eq hu hv hun hvn, beq_iff_eq, Option.some.injEq, cmp_eq_lt_iff]
  exact ⟨fun h => ⟨hun, hvn, h⟩, fun h => h.2.2⟩

theorem beq_iff {u v : UnpackedFloat} (hu : InFormat spec u) (hv : InFormat spec v) :
    u.beq v = true ↔ u ≠ .notANumber ∧ v ≠ .notANumber ∧ value u = value v := by
  by_cases hun : u = .notANumber
  · rw [hun, UnpackedFloat.beq, compare_notANumber_left]
    simp
  by_cases hvn : v = .notANumber
  · rw [hvn, UnpackedFloat.beq, compare_notANumber_right]
    simp
  rw [UnpackedFloat.beq, compare_eq hu hv hun hvn, beq_iff_eq, Option.some.injEq, cmp_eq_eq_iff]
  exact ⟨fun h => ⟨hun, hvn, h⟩, fun h => h.2.2⟩

end Binary
end Seismic
