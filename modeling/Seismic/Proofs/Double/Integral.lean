import Seismic.Proofs.Double.Moderate

/-!
# Integral values

Rounding to an integral value is exact: a number with a fraction is below `2 ^ 52`, so the
integer next to it is again a number.  A conversion to an integer clamps what is beyond the
range, so together they turn a place in the extended line into an integer and keep the
order.
-/

namespace Seismic
namespace Double

open Float.Model
open Float.Model.UnpackedFloat (Sign)

/-- The function `f` of numerator and denominator is the rule `g` of the number itself, which
keeps integers and stays within one of its argument. -/
structure IsRule (f : ℤ → ℤ → ℤ) (g : ℝ → ℤ) : Prop where
  quotient (n : ℤ) {d : ℤ} (hd : 0 < d) : f n d = g (n / d)
  integer (n : ℤ) : g n = n
  near (x : ℝ) : |(g x : ℝ) - x| ≤ 1

theorem floor_quotient (n : ℤ) {d : ℤ} (hd : 0 < d) : n.fdiv d = ⌊(n : ℝ) / d⌋ := by
  rw [Int.fdiv_eq_ediv_of_nonneg n hd.le, Int.floor_div_cast_of_nonneg hd.le, Int.floor_intCast]

theorem isRule_floor : IsRule quotientDown Int.floor where
  quotient n _ hd := floor_quotient n hd
  integer := Int.floor_intCast
  near x := by
    have h₁ := Int.floor_le x
    have h₂ := Int.lt_floor_add_one x
    rw [abs_le]
    constructor <;> linarith

theorem isRule_ceil : IsRule quotientUp Int.ceil where
  quotient n d hd := by
    rw [quotientUp, floor_quotient _ hd, Int.cast_neg, neg_div, Int.floor_neg, neg_neg]
  integer := Int.ceil_intCast
  near x := by
    have h₁ := Int.le_ceil x
    have h₂ := Int.ceil_lt_add_one x
    rw [abs_le]
    constructor <;> linarith

/-- The nearest integer, halves away from zero. -/
noncomputable def away (x : ℝ) : ℤ := if x < 0 then -⌊-x + 1 / 2⌋ else ⌊x + 1 / 2⌋

theorem abs_away_sub_le (x : ℝ) : |(away x : ℝ) - x| ≤ 1 / 2 := by
  unfold away
  split_ifs
  · have h₁ := Int.floor_le (-x + 1 / 2)
    have h₂ := Int.lt_floor_add_one (-x + 1 / 2)
    push_cast
    rw [abs_le]
    constructor <;> linarith
  · have h₁ := Int.floor_le (x + 1 / 2)
    have h₂ := Int.lt_floor_add_one (x + 1 / 2)
    rw [abs_le]
    constructor <;> linarith

theorem away_intCast (n : ℤ) : away n = n := by
  have h := abs_le.mp (abs_away_sub_le (n : ℝ))
  have h₁ : (n : ℝ) < (away n + 1 : ℤ) := by
    push_cast
    linarith
  have h₂ : (away n : ℝ) < (n + 1 : ℤ) := by
    push_cast
    linarith
  have h₁' := Int.cast_lt.mp h₁
  have h₂' := Int.cast_lt.mp h₂
  omega

theorem isRule_away : IsRule quotientNearest away where
  quotient n d hd := by
    have hd' : (0 : ℝ) < d := by exact_mod_cast hd
    unfold quotientNearest away
    by_cases hn : n < 0
    · have hx : (n : ℝ) / d < 0 := div_neg_of_neg_of_pos (by exact_mod_cast hn) hd'
      have hq : ((2 * -n + d : ℤ) : ℝ) / (2 * d : ℤ) = -(n / d) + 1 / 2 := by
        push_cast
        field_simp
      rw [if_pos hn, if_pos hx, floor_quotient _ (by omega), hq]
    · have hx : ¬ (n : ℝ) / d < 0 := not_lt.mpr (div_nonneg (by exact_mod_cast not_lt.mp hn) hd'.le)
      have hq : ((2 * n + d : ℤ) : ℝ) / (2 * d : ℤ) = n / d + 1 / 2 := by
        push_cast
        field_simp
      rw [if_neg hn, if_neg hx, floor_quotient _ (by omega), hq]
  integer := away_intCast
  near x := (abs_away_sub_le x).trans (by norm_num)

/-! ## Rounding to an integral value -/

variable {f : ℤ → ℤ → ℤ} {g : ℝ → ℤ}

theorem zero_finite (s : Sign) : IsFinite (zero s) ∧ toReal (zero s) = 0 := by
  have hu : (zero s).toModel.unpack = .zero s := Binary.unpack_pack_zero s
  unfold IsFinite toReal
  show (zero s).toModel.unpack.isFinite = true ∧ _
  rw [hu]
  exact ⟨rfl, rfl⟩

theorem integral_finite (s : Sign) {n : ℤ} (h : |n| < 2 ^ 53) :
    IsFinite (integral s n) ∧ toReal (integral s n) = n := by
  unfold integral
  split_ifs with hn
  · rw [hn, Int.cast_zero]
    exact zero_finite s
  · exact ofInt_finite h

/-- A number with a fraction has an integer part of less than 53 digits. -/
theorem abs_lt_of_fraction {m : Nat} {e : ℤ} (hc : Binary.IsCanonical Format.binary64 m e)
    (he : e < 0) : (m : ℝ) * (2 : ℝ) ^ e < 2 ^ 52 := by
  have hm : (m : ℝ) < 2 ^ 53 := by exact_mod_cast hc.lt
  have hp : (2 : ℝ) ^ e ≤ 1 / 2 := by
    rw [show (1 / 2 : ℝ) = (2 : ℝ) ^ (-1 : ℤ) by norm_num]
    exact zpow_le_zpow_right₀ (by norm_num) (by omega)
  calc (m : ℝ) * (2 : ℝ) ^ e < 2 ^ 53 * (2 : ℝ) ^ e :=
        mul_lt_mul_of_pos_right hm (zpow_pos (by norm_num) e)
    _ ≤ 2 ^ 53 * (1 / 2) := mul_le_mul_of_nonneg_left hp (by norm_num)
    _ = 2 ^ 52 := by norm_num

theorem rule_eq_self (hr : IsRule f g) {s : Sign} {m : Nat} {e : ℤ} {h : 0 < m} (he : 0 ≤ e) :
    (g (Binary.real (.finite s m e h)) : ℝ) = Binary.real (.finite s m e h) := by
  obtain ⟨k, rfl⟩ := Int.eq_ofNat_of_zero_le he
  have hi : Binary.real (.finite s m k h) = ((s.apply m * 2 ^ k : ℤ) : ℝ) := by
    rw [Binary.real]
    push_cast
    rw [zpow_natCast]
  rw [hi, hr.integer]

/-- A rule is applied to a quotient by a power of two, and its result has few enough digits. -/
theorem rule_quotient (hr : IsRule f g) {s : Sign} {m : Nat} {e : ℤ} {h : 0 < m}
    (hc : Binary.IsCanonical Format.binary64 m e) (he : e < 0) :
    f (s.apply m) (1 <<< (-e).toNat : Nat) = g (Binary.real (.finite s m e h)) ∧
      |g (Binary.real (.finite s m e h))| < 2 ^ 53 := by
  obtain ⟨k, hk⟩ := Int.eq_ofNat_of_zero_le (show 0 ≤ -e by omega)
  have hd : ((1 <<< (-e).toNat : Nat) : ℤ) = 2 ^ k := by
    rw [hk, Int.toNat_natCast, Nat.one_shiftLeft]
    push_cast
    rfl
  have hi : ((s.apply m : ℤ) : ℝ) / ((2 ^ k : ℤ) : ℝ) = Binary.real (.finite s m e h) := by
    rw [Binary.real, show e = -(k : ℤ) by omega, zpow_neg, zpow_natCast]
    push_cast
    rw [div_eq_mul_inv]
  refine ⟨by rw [hd, hr.quotient _ (by positivity), hi], ?_⟩
  have hlt : |Binary.real (.finite s m e h)| < 2 ^ 52 := by
    rw [Binary.real_finite, Binary.abs_signum_mul s (Binary.magnitude_pos e h).le]
    exact abs_lt_of_fraction hc he
  have hnear := abs_le.mp (hr.near (Binary.real (.finite s m e h)))
  have hbound := abs_lt.mp hlt
  have hg : |((g (Binary.real (.finite s m e h)) : ℤ) : ℝ)| < 2 ^ 53 := by
    rw [abs_lt]
    constructor <;> linarith
  exact_mod_cast hg

theorem roundBy_finite (hr : IsRule f g) {x : Float} (hx : IsFinite x) :
    IsFinite (roundBy f x) ∧ toReal (roundBy f x) = g (toReal x) := by
  rcases hx.unpack_eq with ⟨s, hu, h0⟩ | ⟨s, m, e, h, hu, hc, hv⟩
  · have hself : roundBy f x = x := by
      unfold roundBy
      rw [hu]
    have hg := hr.integer 0
    rw [Int.cast_zero] at hg
    rw [hself, h0, hg, Int.cast_zero]
    exact ⟨hx, rfl⟩
  · unfold roundBy
    rw [hu]
    dsimp only
    split_ifs with he
    · rw [hv, rule_eq_self hr he, ← hv]
      exact ⟨hx, rfl⟩
    · obtain ⟨hf, hg⟩ := rule_quotient (s := s) (h := h) hr hc (not_le.mp he)
      rw [hf, hv]
      exact integral_finite s hg

theorem roundBy_of_not_isFinite {x : Float} (hx : ¬ IsFinite x) : roundBy f x = x := by
  have hx' : ¬ x.toModel.unpack.isFinite = true := hx
  unfold roundBy
  cases hu : x.toModel.unpack with
  | finite s m e h =>
    rw [hu] at hx'
    exact absurd rfl hx'
  | _ => rfl

theorem floor_finite {x : Float} (hx : IsFinite x) :
    IsFinite (floor x) ∧ toReal (floor x) = ⌊toReal x⌋ := roundBy_finite isRule_floor hx

theorem ceil_finite {x : Float} (hx : IsFinite x) :
    IsFinite (ceil x) ∧ toReal (ceil x) = ⌈toReal x⌉ := roundBy_finite isRule_ceil hx

theorem nearest_finite {x : Float} (hx : IsFinite x) :
    IsFinite (nearest x) ∧ toReal (nearest x) = away (toReal x) := roundBy_finite isRule_away hx

/-! ## Conversion to an integer -/

theorem integerPart_eq {s : Sign} {m : Nat} {e n : ℤ}
    (h : ((s.apply m : ℤ) : ℝ) * (2 : ℝ) ^ e = n) : integerPart s m e = n := by
  unfold integerPart
  split_ifs with he
  · obtain ⟨k, rfl⟩ := Int.eq_ofNat_of_zero_le he
    have hp : s.apply m * 2 ^ k = n := by
      rw [zpow_natCast] at h
      exact_mod_cast h
    rw [Int.toNat_natCast, Nat.shiftLeft_eq, ← hp]
    cases s <;> push_cast [Sign.apply] <;> ring
  · obtain ⟨k, hk⟩ := Int.eq_ofNat_of_zero_le (show 0 ≤ -e by omega)
    have hp : s.apply m = n * 2 ^ k := by
      rw [show e = -(k : ℤ) by omega, zpow_neg, zpow_natCast,
        mul_inv_eq_iff_eq_mul₀ (by positivity)] at h
      exact_mod_cast h
    have h2 : (2 ^ k : ℤ) ≠ 0 := by positivity
    rw [hk, Int.toNat_natCast, Nat.shiftRight_eq_div_pow]
    push_cast
    cases s with
    | positive => exact Int.ediv_eq_of_eq_mul_left h2 hp
    | negative =>
      have hn : (m : ℤ) = -n * 2 ^ k := by
        rw [neg_mul, ← hp]
        exact (Int.neg_neg _).symm
      show -((m : ℤ) / 2 ^ k) = n
      rw [Int.ediv_eq_of_eq_mul_left h2 hn, Int.neg_neg]

theorem clampedInt_of_integer {x : Float} (hx : IsFinite x) {n : ℤ} (h : toReal x = n)
    (low high : ℤ) : clampedInt low high x = max low (min high n) := by
  unfold clampedInt
  rcases hx.unpack_eq with ⟨s, hu, h0⟩ | ⟨s, m, e, hm, hu, -, hv⟩
  · rw [h0] at h
    rw [hu, Int.cast_eq_zero.mp h.symm]
  · rw [hu]
    dsimp only
    rw [integerPart_eq (hv ▸ h)]

/-- The integer that a place is converted to by a rule, clamped to a range. -/
noncomputable def clampedBy (g : ℝ → ℤ) (low high : ℤ) (x : EReal) : ℤ :=
  if x = ⊤ then high else if x = ⊥ then low else max low (min high (g x.toReal))

theorem clampedBy_coe (g : ℝ → ℤ) (low high : ℤ) (x : ℝ) :
    clampedBy g low high x = max low (min high (g x)) := by
  rw [clampedBy, if_neg (EReal.coe_ne_top x), if_neg (EReal.coe_ne_bot x), EReal.toReal_coe]

theorem clampedBy_top (g : ℝ → ℤ) (low high : ℤ) : clampedBy g low high ⊤ = high := if_pos rfl

theorem clampedBy_bot (g : ℝ → ℤ) (low high : ℤ) : clampedBy g low high ⊥ = low := by
  rw [clampedBy, if_neg (by decide), if_pos rfl]

theorem clampedInt_infinite {x : Float} (hn : IsNumber x) (hx : ¬ IsFinite x) (g : ℝ → ℤ)
    (low high : ℤ) : clampedInt low high x = clampedBy g low high (value x) := by
  rcases Binary.isFinite_or_infinity hn with h | h | h
  · exact absurd h hx
  · rw [clampedInt, value, h]
    exact (clampedBy_top g low high).symm
  · rw [clampedInt, value, h]
    exact (clampedBy_bot g low high).symm

/-- A function that follows a rule on finite numbers and keeps the others, and a conversion of
its result. -/
theorem clampedInt_of_rule {F : Float → Float}
    (hf : ∀ {x}, IsFinite x → IsFinite (F x) ∧ toReal (F x) = g (toReal x))
    (hF : ∀ {x}, ¬ IsFinite x → F x = x) {x : Float} (hn : IsNumber x) (low high : ℤ) :
    clampedInt low high (F x) = clampedBy g low high (value x) := by
  by_cases hx : IsFinite x
  · obtain ⟨hfin, hv⟩ := hf hx
    rw [clampedInt_of_integer hfin hv, value_of_isFinite hx, clampedBy_coe]
  · rw [hF hx, clampedInt_infinite hn hx]

theorem clampedInt_roundBy (hr : IsRule f g) {x : Float} (hn : IsNumber x) (low high : ℤ) :
    clampedInt low high (roundBy f x) = clampedBy g low high (value x) :=
  clampedInt_of_rule (roundBy_finite hr) roundBy_of_not_isFinite hn low high

theorem clampedBy_mem (g : ℝ → ℤ) {low high : ℤ} (h : low ≤ high) (x : EReal) :
    low ≤ clampedBy g low high x ∧ clampedBy g low high x ≤ high := by
  unfold clampedBy
  split_ifs <;> omega

/-- A rule that keeps the order, clamped, keeps it too, up to a distance `d` between the two
rules. -/
theorem clampedBy_le {g g' : ℝ → ℤ} {d : ℤ} (hd : 0 ≤ d) {low high : ℤ} (h : low ≤ high)
    (hg : ∀ x y : ℝ, x ≤ y → g x ≤ g' y + d) {x y : EReal} (hxy : x ≤ y) :
    clampedBy g low high x ≤ clampedBy g' low high y + d := by
  induction x with
  | bot =>
    rw [clampedBy_bot]
    have := (clampedBy_mem g' h y).1
    omega
  | top =>
    rw [top_le_iff.mp hxy, clampedBy_top, clampedBy_top]
    omega
  | coe x =>
    induction y with
    | bot => exact absurd (le_bot_iff.mp hxy) (EReal.coe_ne_bot x)
    | top =>
      rw [clampedBy_top]
      have := (clampedBy_mem g h x).2
      omega
    | coe y =>
      have := hg x y (EReal.coe_le_coe_iff.mp hxy)
      rw [clampedBy_coe, clampedBy_coe]
      omega

end Double
end Seismic
