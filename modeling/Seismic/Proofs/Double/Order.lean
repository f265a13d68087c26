import Seismic.Proofs.Binary.Words
import Seismic.Proofs.Double.Arithmetic

/-!
# The total order

Words in sign and magnitude are put in order by an integer key, which grows with the number a word
stands for.  Beyond comparison the total order puts the negative zero before the positive one, so
it tells all numbers apart, and two numbers at one place are one and the same, except for the two
zeros.  The larger of two numbers and their sum are then given by their places, but for the sign of
zeros.
-/

namespace Seismic
namespace Double

open Float.Model
open Float.Model.UnpackedFloat

variable {x y : Float}

/-! ## Keys -/

/-- The key of a magnitude with a sign. -/
def signedKey : Sign → Nat → Int
  | .positive, n => n
  | .negative, n => -n - 1

theorem orderKey_of_bits (x : Float) : orderKey x =
    if x.toBits.toNat < 2 ^ 63 then (x.toBits.toNat : Int) else 2 ^ 63 - x.toBits.toNat - 1 := rfl

theorem orderKey_injective : Function.Injective orderKey := by
  intro x y h
  apply eq_of_toBits
  apply UInt64.toNat_inj.mp
  have hx := x.toBits.toNat_lt
  have hy := y.toBits.toNat_lt
  rw [orderKey_of_bits, orderKey_of_bits] at h
  split_ifs at h <;> omega

/-- The fields of a word as parts of one integer. -/
theorem fields_toNat (b : BitVec Format.binary64.numBits) :
    (unpackSign b).toNat = b.toNat / 2 ^ 63 ∧ (unpackExponent b).toNat = b.toNat / 2 ^ 52 % 2 ^ 11 ∧
      (unpackMantissa b).toNat = b.toNat % 2 ^ 52 := by
  have hb : b.toNat < 2 ^ 64 := b.isLt
  refine ⟨?_, ?_, ?_⟩
  · show b.toNat >>> 63 % 2 ^ 1 = _
    rw [Nat.shiftRight_eq_div_pow]
    omega
  · show b.toNat >>> 52 % 2 ^ 11 = _
    rw [Nat.shiftRight_eq_div_pow]
  · show b.toNat >>> 0 % 2 ^ 52 = _
    rw [Nat.shiftRight_zero]

def signField (x : Float) : Sign := .ofBitVec (@unpackSign Format.binary64 x.toBits.toBitVec)

def exponentField (x : Float) : Nat := (@unpackExponent Format.binary64 x.toBits.toBitVec).toNat

def mantissaField (x : Float) : Nat := (@unpackMantissa Format.binary64 x.toBits.toBitVec).toNat

/-- The exponent and the mantissa of a word make up one magnitude. -/
theorem orderKey_eq (x : Float) :
    orderKey x = signedKey (signField x) (exponentField x * 2 ^ 52 + mantissaField x) := by
  obtain ⟨hs, he, hm⟩ := fields_toNat x.toBits.toBitVec
  have hb : x.toBits.toNat < 2 ^ 64 := x.toBits.toNat_lt
  have hz : @unpackSign Format.binary64 x.toBits.toBitVec = 0#1 ↔ x.toBits.toNat < 2 ^ 63 := by
    rw [← BitVec.toNat_inj, hs]
    show x.toBits.toNat / 2 ^ 63 = 0 ↔ _
    omega
  have he' : exponentField x = x.toBits.toNat / 2 ^ 52 % 2 ^ 11 := he
  have hm' : mantissaField x = x.toBits.toNat % 2 ^ 52 := hm
  rw [he', hm', orderKey_of_bits]
  show _ = signedKey (if _ then _ else _) _
  by_cases h : x.toBits.toNat < 2 ^ 63
  · rw [if_pos (hz.mpr h), if_pos h]
    simp only [signedKey]
    omega
  · rw [if_neg (mt hz.mp h), if_neg h]
    simp only [signedKey]
    omega

theorem orderKey_of_finite {s : Sign} {m : Nat} {e : ℤ} {h : 0 < m}
    (hu : x.toModel.unpack = .finite s m e h) :
    orderKey x = signedKey s (m + (e + 1074).toNat * 2 ^ 52) := by
  have hmin : Format.binary64.minExponent = -1074 := by decide
  have hbias : (Format.binary64.exponentBias : ℤ) = 1023 := by decide
  obtain ⟨hs, hfields⟩ := Binary.components_of_unpack hu
  rw [orderKey_eq, show signField x = s from hs.symm]
  refine congrArg (signedKey s) ?_
  rcases hfields with ⟨he, hm, hx⟩ | ⟨he, -, hm, hx⟩
  · have he' : exponentField x = 0 := he
    have hm' : m = mantissaField x := hm
    omega
  · have he' : 0 < exponentField x := he
    have hm' : m = 2 ^ 52 + mantissaField x := hm
    have hx' : e = exponentField x - (Format.binary64.exponentBias + (52 : ℕ)) := hx
    omega

theorem orderKey_of_zero {s : Sign} (hu : x.toModel.unpack = .zero s) :
    orderKey x = signedKey s 0 := by
  obtain ⟨hs, he, hm⟩ := Binary.components_of_unpack hu
  have he' : exponentField x = _ := congrArg BitVec.toNat he
  have hm' : mantissaField x = _ := congrArg BitVec.toNat hm
  rw [orderKey_eq, show signField x = s from hs.symm, he', hm']
  rfl

theorem orderKey_of_infinity {s : Sign} (hu : x.toModel.unpack = .infinity s) :
    orderKey x = signedKey s (2047 * 2 ^ 52) := by
  obtain ⟨hs, he, hm⟩ := Binary.components_of_unpack hu
  have he' : exponentField x = _ := congrArg BitVec.toNat he
  have hm' : mantissaField x = _ := congrArg BitVec.toNat hm
  rw [orderKey_eq, show signField x = s from hs.symm, he', hm']
  rfl

/-! ## The key of a number -/

/-- Mantissa and exponent as one integer, which grows with the magnitude. -/
def magnitude : UnpackedFloat → Nat
  | .finite _ m e _ => m + (e + 1074).toNat * 2 ^ 52
  | .infinity _ => 2047 * 2 ^ 52
  | _ => 0

def signOf : UnpackedFloat → Sign
  | .finite s _ _ _ => s
  | .infinity s => s
  | .zero s => s
  | .notANumber => .positive

/-- The key is that of the unpacked number, so a number has no two words. -/
theorem orderKey_of_number (hx : IsNumber x) :
    orderKey x = signedKey (signOf x.toModel.unpack) (magnitude x.toModel.unpack) := by
  cases hu : x.toModel.unpack with
  | notANumber => exact absurd hu hx
  | infinity s => exact orderKey_of_infinity hu
  | zero s => exact orderKey_of_zero hu
  | finite s m e h => exact orderKey_of_finite hu

theorem eq_of_unpack_number (hx : IsNumber x) (h : x.toModel.unpack = y.toModel.unpack) :
    x = y := by
  have hy : IsNumber y := by
    intro hn
    exact hx (h.trans hn)
  apply orderKey_injective
  rw [orderKey_of_number hx, orderKey_of_number hy, h]

/-! ## Keys grow with the places -/

variable {u v : UnpackedFloat}

theorem magnitude_finite_lt {s : Sign} {m : Nat} {e : ℤ} {h : 0 < m}
    (hu : Binary.InFormat Format.binary64 (.finite s m e h)) :
    magnitude (.finite s m e h) < 2047 * 2 ^ 52 := by
  obtain ⟨hc, hf⟩ := hu
  have hm : m < 2 ^ 53 := hc.lt
  have he : e + (53 : ℕ) ≤ (1024 : ℕ) := hf
  show m + (e + 1074).toNat * 2 ^ 52 < _
  omega

/-- A mantissa at a larger exponent has all digits, so it carries the key over the digit that a
smaller exponent is short of. -/
theorem magnitude_finite_mono {s t : Sign} {m n : Nat} {e f : ℤ} {hm : 0 < m} {hn : 0 < n}
    (hu : Binary.InFormat Format.binary64 (.finite s m e hm))
    (hv : Binary.InFormat Format.binary64 (.finite t n f hn))
    (h : (m : ℝ) * (2 : ℝ) ^ e < n * (2 : ℝ) ^ f) :
    magnitude (.finite s m e hm) < magnitude (.finite t n f hn) := by
  have hmin : Format.binary64.minExponent = -1074 := by decide
  have hlt : m < 2 ^ 53 := hu.1.lt
  have he := hu.1.least
  have hf := hv.1.least
  have hfull : 2 ^ 52 ≤ n ∨ f = Format.binary64.minExponent := hv.1.full
  have hcmp := Binary.compare_magnitudes hu.1 hv.1
  rw [(cmp_eq_lt_iff _ _).mpr h, Ordering.then_eq_lt, compare_lt_iff_lt, compare_lt_iff_lt,
    compare_eq_iff_eq] at hcmp
  show m + (e + 1074).toNat * 2 ^ 52 < n + (f + 1074).toNat * 2 ^ 52
  omega

theorem value_nonneg_of_sign (hs : signOf u = .positive) : 0 ≤ Binary.value u := by
  cases u with
  | notANumber => exact le_rfl
  | infinity s =>
    cases hs
    exact le_top
  | zero s => exact le_rfl
  | finite s m e h =>
    cases hs
    have hp := (Binary.magnitude_pos e h).le
    rw [Binary.value_finite, Binary.signum, one_mul]
    exact_mod_cast hp

theorem magnitude_mono (hu : Binary.InFormat Format.binary64 u)
    (hv : Binary.InFormat Format.binary64 v) (hs : signOf u = .positive)
    (ht : signOf v = .positive) (hun : u ≠ .notANumber) (hvn : v ≠ .notANumber)
    (h : Binary.value u < Binary.value v) : magnitude u < magnitude v := by
  have hpos : 0 ≤ Binary.value u := value_nonneg_of_sign hs
  cases v with
  | notANumber => exact absurd rfl hvn
  | zero t => exact absurd h hpos.not_gt
  | infinity t =>
    cases u with
    | notANumber => exact absurd rfl hun
    | infinity s =>
      cases hs
      cases ht
      exact absurd h (lt_irrefl _)
    | zero s => exact Nat.mul_pos (by norm_num) (Nat.two_pow_pos 52)
    | finite s m e hm => exact magnitude_finite_lt hu
  | finite t n f hn =>
    cases u with
    | notANumber => exact absurd rfl hun
    | infinity s =>
      cases hs
      exact absurd h (not_lt.mpr le_top)
    | zero s => exact Nat.lt_of_lt_of_le hn (Nat.le_add_right _ _)
    | finite s m e hm =>
      cases hs
      cases ht
      rw [Binary.value_finite, Binary.value_finite, Binary.signum, one_mul, one_mul,
        EReal.coe_lt_coe_iff] at h
      exact magnitude_finite_mono hu hv h

theorem signOf_neg (hun : u ≠ .notANumber) : signOf u.neg = -signOf u := by
  cases u with
  | notANumber => exact absurd rfl hun
  | _ => rfl

theorem magnitude_neg : magnitude u.neg = magnitude u := by
  cases u <;> rfl

theorem signOf_neg_of_negative (hun : u ≠ .notANumber) (hs : signOf u = .negative) :
    signOf u.neg = .positive := by
  rw [signOf_neg hun, hs]
  rfl

theorem value_nonpos_of_sign (hun : u ≠ .notANumber) (hs : signOf u = .negative) :
    Binary.value u ≤ 0 := by
  have h := value_nonneg_of_sign (signOf_neg_of_negative hun hs)
  rw [Binary.value_neg] at h
  exact EReal.neg_nonneg.mp h

/-- The sign decides first.  Of two negative numbers the one of larger magnitude has the smaller
key. -/
theorem signedKey_mono (hu : Binary.InFormat Format.binary64 u)
    (hv : Binary.InFormat Format.binary64 v) (hun : u ≠ .notANumber) (hvn : v ≠ .notANumber)
    (h : Binary.value u < Binary.value v) :
    signedKey (signOf u) (magnitude u) < signedKey (signOf v) (magnitude v) := by
  cases hs : signOf u with
  | positive =>
    cases ht : signOf v with
    | positive =>
      have hm := magnitude_mono hu hv hs ht hun hvn h
      simp only [signedKey]
      omega
    | negative =>
      have hlt := ((value_nonneg_of_sign hs).trans_lt h).trans_le (value_nonpos_of_sign hvn ht)
      exact absurd hlt (lt_irrefl _)
  | negative =>
    cases ht : signOf v with
    | positive =>
      simp only [signedKey]
      omega
    | negative =>
      have hneg : Binary.value v.neg < Binary.value u.neg := by
        rw [Binary.value_neg, Binary.value_neg]
        exact EReal.neg_lt_neg_iff.mpr h
      have hm := magnitude_mono (Binary.inFormat_neg hv) (Binary.inFormat_neg hu)
        (signOf_neg_of_negative hvn ht) (signOf_neg_of_negative hun hs) (Binary.neg_ne_notANumber hvn)
        (Binary.neg_ne_notANumber hun) hneg
      rw [magnitude_neg, magnitude_neg] at hm
      simp only [signedKey]
      omega

theorem orderKey_lt_of_value_lt (hx : IsNumber x) (hy : IsNumber y) (h : value x < value y) :
    orderKey x < orderKey y := by
  rw [orderKey_of_number hx, orderKey_of_number hy]
  exact signedKey_mono (inFormat x) (inFormat y) hx hy h

/-! ## The total order -/

theorem totalLe_iff : Scalar.totalLe x y = true ↔ orderKey x ≤ orderKey y := decide_eq_true_iff

theorem totalLe_total (x y : Float) : (Scalar.totalLe x y || Scalar.totalLe y x) = true := by
  rw [Bool.or_eq_true, totalLe_iff, totalLe_iff]
  exact Int.le_total _ _

theorem totalLe_trans (x y z : Float) (h : Scalar.totalLe x y = true)
    (h' : Scalar.totalLe y z = true) : Scalar.totalLe x z = true := by
  rw [totalLe_iff] at *
  exact h.trans h'

theorem totalLe_antisymm (h : Scalar.totalLe x y = true) (h' : Scalar.totalLe y x = true) :
    x = y := by
  rw [totalLe_iff] at *
  exact orderKey_injective (le_antisymm h h')

theorem totalLe_refl (x : Float) : Scalar.totalLe x x = true := totalLe_iff.mpr le_rfl

/-- The total order agrees with the places of numbers. -/
theorem value_le_of_totalLe (hx : IsNumber x) (hy : IsNumber y) (h : Scalar.totalLe x y = true) :
    value x ≤ value y := by
  by_contra hlt
  have hkey := orderKey_lt_of_value_lt hy hx (not_le.mp hlt)
  exact absurd (totalLe_iff.mp h) hkey.not_ge

theorem le_of_totalLe (hx : IsNumber x) (hy : IsNumber y) (h : Scalar.totalLe x y = true) :
    x ≤ y :=
  le_iff.mpr ⟨hx, hy, value_le_of_totalLe hx hy h⟩

/-! ## Numbers at one place -/

theorem sign_eq_of_real {s t : UnpackedFloat.Sign} {x y : ℝ} (hx : 0 < x) (hy : 0 < y)
    (h : Binary.signum s * x = Binary.signum t * y) : s = t := by
  cases s <;> cases t <;> unfold Binary.signum at h <;> first | rfl | (exfalso; linarith)

/-- A number other than zero is the only one of its value. -/
theorem eq_of_toReal {x y : Float} (hx : IsFinite x) (hy : IsFinite y) (h0 : toReal x ≠ 0)
    (h : toReal x = toReal y) : x = y := by
  rcases hx.unpack_eq with ⟨s, -, hz⟩ | ⟨s, m, e, hm, hu, hc, hv⟩
  · exact absurd hz h0
  rcases hy.unpack_eq with ⟨t, -, hz⟩ | ⟨t, n, f, hn, hu', hc', hv'⟩
  · exact absurd (h.trans hz) h0
  rw [hv, hv', Binary.real_finite, Binary.real_finite] at h
  have hp := Binary.magnitude_pos e hm
  have hp' := Binary.magnitude_pos f hn
  obtain rfl := sign_eq_of_real hp hp' h
  have hmag : (m : ℝ) * (2 : ℝ) ^ e = n * (2 : ℝ) ^ f := by
    have := congrArg (fun r : ℝ => |r|) h
    rwa [Binary.abs_signum_mul _ hp.le, Binary.abs_signum_mul _ hp'.le] at this
  have hcmp := Binary.compare_magnitudes hc hc'
  rw [hmag, cmp_self_eq_eq, Ordering.then_eq_eq, compare_eq_iff_eq, compare_eq_iff_eq] at hcmp
  obtain ⟨rfl, rfl⟩ := hcmp
  exact eq_of_unpack hx (hu.trans hu'.symm)

theorem eq_of_value {x y : Float} (hx : IsFinite x) (h0 : toReal x ≠ 0) (hy : IsNumber y)
    (h : value y = toReal x) : y = x := by
  obtain ⟨hyf, hyv⟩ := isFinite_of_value_eq hy h
  exact (eq_of_toReal hx hyf h0 hyv.symm).symm

theorem round_toReal {x : Float} (hx : IsFinite x) : round (toReal x : ℝ) = toReal x := by
  rw [← value_of_isFinite hx, round_value]

theorem unpack_of_value_top (hx : IsNumber x) (h : value x = ⊤) :
    x.toModel.unpack = .infinity .positive := by
  rcases Binary.isFinite_or_infinity hx with hf | hu | hu
  · rw [value_of_isFinite hf] at h
    exact absurd h (EReal.coe_ne_top _)
  · exact hu
  · have hbot : value x = ⊥ := by rw [value, hu]; rfl
    exact absurd (hbot.symm.trans h) bot_ne_top

theorem unpack_of_value_bot (hx : IsNumber x) (h : value x = ⊥) :
    x.toModel.unpack = .infinity .negative := by
  rcases Binary.isFinite_or_infinity hx with hf | hu | hu
  · rw [value_of_isFinite hf] at h
    exact absurd h (EReal.coe_ne_bot _)
  · have htop : value x = ⊤ := by rw [value, hu]; rfl
    exact absurd (h.symm.trans htop) bot_ne_top
  · exact hu

/-- Only the two zeros share a place. -/
theorem eq_of_value_eq (hx : IsNumber x) (hy : IsNumber y) (h0 : value x ≠ 0)
    (h : value x = value y) : x = y := by
  rcases Binary.isFinite_or_infinity hx with hf | hu | hu
  · have hv := value_of_isFinite hf
    have hr : toReal x ≠ 0 := by
      intro hz
      rw [hv, hz] at h0
      exact h0 rfl
    exact (eq_of_value hf hr hy (h.symm.trans hv)).symm
  · have htop : value x = ⊤ := by rw [value, hu]; rfl
    exact eq_of_unpack_number hx (hu.trans (unpack_of_value_top hy (h.symm.trans htop)).symm)
  · have hbot : value x = ⊥ := by rw [value, hu]; rfl
    exact eq_of_unpack_number hx (hu.trans (unpack_of_value_bot hy (h.symm.trans hbot)).symm)

/-! ## The larger and the smaller of two numbers -/

theorem isUndefined_eq_false (hx : IsNumber x) : Scalar.isUndefined x = false := by
  have h : (x == x) = true := beq_iff.mpr ⟨hx, hx, rfl⟩
  show (!(x == x)) = false
  rw [h]
  rfl

theorem max_of_numbers (hx : IsNumber x) (hy : IsNumber y) :
    Scalar.max x y = if x < y then y else x := by
  unfold Scalar.max
  rw [isUndefined_eq_false hx, isUndefined_eq_false hy]
  rfl

theorem min_of_numbers (hx : IsNumber x) (hy : IsNumber y) :
    Scalar.min x y = if y < x then y else x := by
  unfold Scalar.min
  rw [isUndefined_eq_false hx, isUndefined_eq_false hy]
  rfl

theorem max_choice (hx : IsNumber x) (hy : IsNumber y) :
    Scalar.max x y = x ∨ Scalar.max x y = y := by
  rw [max_of_numbers hx hy]
  by_cases h : x < y
  · rw [if_pos h]
    exact Or.inr rfl
  · rw [if_neg h]
    exact Or.inl rfl

theorem min_choice (hx : IsNumber x) (hy : IsNumber y) :
    Scalar.min x y = x ∨ Scalar.min x y = y := by
  rw [min_of_numbers hx hy]
  by_cases h : y < x
  · rw [if_pos h]
    exact Or.inr rfl
  · rw [if_neg h]
    exact Or.inl rfl

theorem value_max (hx : IsNumber x) (hy : IsNumber y) :
    value (Scalar.max x y) = max (value x) (value y) := by
  rw [max_of_numbers hx hy]
  by_cases h : x < y
  · rw [if_pos h, max_eq_right (lt_iff.mp h).2.2.le]
  · rw [lt_iff, not_and, not_and] at h
    rw [if_neg (fun hlt => h hx hy (lt_iff.mp hlt).2.2), max_eq_left (not_lt.mp (h hx hy))]

theorem value_min (hx : IsNumber x) (hy : IsNumber y) :
    value (Scalar.min x y) = min (value x) (value y) := by
  rw [min_of_numbers hx hy]
  by_cases h : y < x
  · rw [if_pos h, min_eq_right (lt_iff.mp h).2.2.le]
  · rw [lt_iff, not_and, not_and] at h
    rw [if_neg (fun hlt => h hy hx (lt_iff.mp hlt).2.2), min_eq_left (not_lt.mp (h hy hx))]

/-! ## Sums by place -/

theorem isNumber_iff : IsNumber x ↔ x.isNaN = false := by
  show x.toModel.unpack ≠ .notANumber ↔ x.toModel.unpack.isNaN = false
  cases x.toModel.unpack <;> simp [UnpackedFloat.isNaN]

theorem add_unpacked (x y : Float) :
    x + y = .ofModel (.pack (x.toModel.unpack.add Format.binary64 y.toModel.unpack)) := rfl

theorem unpack_of_value_zero (hx : IsNumber x) (h : value x = 0) :
    ∃ s, x.toModel.unpack = .zero s := by
  rw [value] at h
  cases hu : x.toModel.unpack with
  | notANumber => exact absurd hu hx
  | infinity s =>
    rw [hu] at h
    cases s with
    | positive => exact absurd h EReal.top_ne_zero
    | negative => exact absurd h EReal.bot_ne_zero
  | zero s => exact ⟨s, rfl⟩
  | finite s m e hm =>
    have hp := Binary.magnitude_pos e hm
    rw [hu, Binary.value_finite, EReal.coe_eq_zero] at h
    rcases mul_eq_zero.mp h with hs | hz
    · cases s <;> norm_num [Binary.signum] at hs
    · exact absurd hz hp.ne'

theorem zero_add_congr (s t : Sign) (hv : ∀ r, v ≠ .zero r) :
    UnpackedFloat.add Format.binary64 (.zero s) v = UnpackedFloat.add Format.binary64 (.zero t) v := by
  cases v with
  | zero r => exact absurd rfl (hv r)
  | _ => rfl

theorem add_zero_congr (s t : Sign) (hu : ∀ r, u ≠ .zero r) :
    UnpackedFloat.add Format.binary64 u (.zero s) = UnpackedFloat.add Format.binary64 u (.zero t) := by
  cases u with
  | zero r => exact absurd rfl (hu r)
  | _ => rfl

theorem unpack_ne_zero (h : value x ≠ 0) (s : Sign) : x.toModel.unpack ≠ .zero s := by
  intro hu
  apply h
  rw [value, hu]
  rfl

variable {x' y' : Float}

/-- Only for two zeros the sum depends on more than the places of the summands. -/
theorem add_congr_value (hx : IsNumber x) (hx' : IsNumber x') (hy : IsNumber y)
    (hy' : IsNumber y') (h : value x = value x') (h' : value y = value y') :
    x + y = x' + y' ∨ value x = 0 ∧ value y = 0 := by
  by_cases hx0 : value x = 0
  · by_cases hy0 : value y = 0
    · exact Or.inr ⟨hx0, hy0⟩
    · left
      obtain ⟨s, hs⟩ := unpack_of_value_zero hx hx0
      obtain ⟨t, ht⟩ := unpack_of_value_zero hx' (h ▸ hx0)
      rw [← eq_of_value_eq hy hy' hy0 h', add_unpacked, add_unpacked, hs, ht,
        zero_add_congr s t (unpack_ne_zero hy0)]
  · left
    rw [← eq_of_value_eq hx hx' hx0 h]
    by_cases hy0 : value y = 0
    · obtain ⟨s, hs⟩ := unpack_of_value_zero hy hy0
      obtain ⟨t, ht⟩ := unpack_of_value_zero hy' (h' ▸ hy0)
      rw [add_unpacked, add_unpacked, hs, ht, add_zero_congr s t (unpack_ne_zero hx0)]
    · rw [← eq_of_value_eq hy hy' hy0 h']

theorem sign_of_totalLe_zero (hx : x.toModel.unpack = .zero .positive)
    (hy : y.toModel.unpack = .zero .negative) : ¬ Scalar.totalLe x y = true := by
  rw [totalLe_iff, orderKey_of_zero hx, orderKey_of_zero hy]
  simp only [signedKey]
  omega

/-- A negative zero comes after negative zeros only, so the sum of an upper summand with a zero
below it has one sign. -/
theorem add_congr_of_totalLe (hx : IsNumber x) (hx' : IsNumber x') (hy : IsNumber y)
    (h : value x = value x') (hle : Scalar.totalLe x y = true)
    (hle' : Scalar.totalLe x' y = true) : x + y = x' + y := by
  rcases add_congr_value hx hx' hy hy h rfl with he | ⟨hx0, hy0⟩
  · exact he
  · obtain ⟨s, hs⟩ := unpack_of_value_zero hx hx0
    obtain ⟨t, ht⟩ := unpack_of_value_zero hx' (h ▸ hx0)
    obtain ⟨r, hr⟩ := unpack_of_value_zero hy hy0
    rw [add_unpacked, add_unpacked, hs, ht, hr]
    cases r with
    | positive => cases s <;> cases t <;> rfl
    | negative =>
      cases s with
      | positive => exact absurd hle (sign_of_totalLe_zero hs hr)
      | negative =>
        cases t with
        | positive => exact absurd hle' (sign_of_totalLe_zero ht hr)
        | negative => rfl

end Double
end Seismic
