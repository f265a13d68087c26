import Seismic.Proofs.Binary.Unpacked

/-!
# Packed numbers

A packed number is a word of bits.  Unpacking a word gives a number in the form of the
format, and packing a number of that form and unpacking it again gives it back, unless its
exponent is too large, when it has become an infinity.  So an operation that rounds its
exact result and packs it gives the nearest number of the format.
-/

namespace Seismic
namespace Binary

open Float.Model
open Float.Model.UnpackedFloat

variable {spec : Format}

/-- Half of the exponents of a format. -/
def half (spec : Format) : Nat := 2 ^ (spec.exponentBits - 1)

theorem two_pow_exponentBits (spec : Format) : 2 ^ spec.exponentBits = 2 * half spec := by
  have := spec.he
  rw [half, ← Nat.pow_succ', Nat.succ_eq_add_one, Nat.sub_add_cancel this]

theorem half_pos (spec : Format) : 0 < half spec := Nat.two_pow_pos _

theorem one_lt_half (h : 1 < spec.exponentBits) : 1 < half spec :=
  Nat.one_lt_two_pow (by omega)

theorem minExponent_eq (spec : Format) :
    spec.minExponent = 2 - half spec - spec.mantissaBitsWithoutImplicit := by
  unfold Format.minExponent half
  rw [mantissaBits_eq]
  push_cast
  omega

theorem exponentBias_eq (spec : Format) : (spec.exponentBias : ℤ) = half spec - 1 := by
  have := half_pos spec
  unfold Format.exponentBias half at *
  omega

/-- The exponent a word of the format has room for. -/
def Fits (spec : Format) (e : ℤ) : Prop := e + spec.mantissaBits ≤ half spec

/-! ## Unpacking a word -/

variable {b : BitVec spec.numBits}

theorem unpack_special (he : unpackExponent b = -1#_) :
    UnpackedFloat.unpack spec b =
      if unpackMantissa b = 0#_ then .infinity (.ofBitVec (unpackSign b)) else .notANumber :=
  if_pos he

theorem neg_one_ne_zero : -1#(spec.exponentBits) ≠ 0#(spec.exponentBits) := by
  intro h
  have hn := congrArg BitVec.toNat h
  have he := spec.he
  rw [BitVec.neg_one_eq_allOnes, BitVec.toNat_allOnes, BitVec.toNat_ofNat, Nat.zero_mod] at hn
  have := Nat.one_lt_two_pow he.ne'
  omega

theorem unpack_zero (he : unpackExponent b = 0#_) (hm : unpackMantissa b = 0#_) :
    UnpackedFloat.unpack spec b = .zero (.ofBitVec (unpackSign b)) := by
  have hne : unpackExponent b ≠ -1#_ := he ▸ neg_one_ne_zero.symm
  unfold UnpackedFloat.unpack
  dsimp only
  rw [if_neg hne, if_pos he, dif_pos hm]

theorem unpack_least (he : unpackExponent b = 0#_) (hm : unpackMantissa b ≠ 0#_) :
    ∃ h, UnpackedFloat.unpack spec b =
      .finite (.ofBitVec (unpackSign b)) (unpackMantissa b).toNat spec.minExponent h := by
  have hne : unpackExponent b ≠ -1#_ := he ▸ neg_one_ne_zero.symm
  have hx : ((unpackExponent b).toNat : ℤ) -
      (spec.exponentBias + spec.mantissaBitsWithoutImplicit) + 1 = spec.minExponent := by
    rw [he, exponentBias_eq, minExponent_eq, BitVec.toNat_ofNat, Nat.zero_mod]
    omega
  refine ⟨by simpa [BitVec.toNat_pos, BitVec.pos_iff_ne_zero] using hm, ?_⟩
  unfold UnpackedFloat.unpack
  dsimp only
  rw [if_neg hne, if_pos he, dif_neg hm]
  simp only [hx]

theorem unpack_normal (hs : unpackExponent b ≠ -1#_) (he : unpackExponent b ≠ 0#_) :
    ∃ h, UnpackedFloat.unpack spec b =
      .finite (.ofBitVec (unpackSign b))
        (2 ^ spec.mantissaBitsWithoutImplicit + (unpackMantissa b).toNat)
        ((unpackExponent b).toNat - (spec.exponentBias + spec.mantissaBitsWithoutImplicit)) h := by
  have hm : (1#1 ++ unpackMantissa b).toNat =
      2 ^ spec.mantissaBitsWithoutImplicit + (unpackMantissa b).toNat := by
    rw [BitVec.toNat_append, ← Nat.shiftLeft_add_eq_or_of_lt (unpackMantissa b).isLt,
      BitVec.toNat_ofNat, Nat.shiftLeft_eq]
    simp
  refine ⟨by positivity, ?_⟩
  unfold UnpackedFloat.unpack
  dsimp only
  rw [if_neg hs, if_neg he]
  simp only [hm]

/-- What the fields of a word are if it stands for a number.  A short mantissa stands at the least
exponent, a full one at the exponent of the word. -/
def Components (b : BitVec spec.numBits) : UnpackedFloat → Prop
  | .notANumber => unpackExponent b = -1#_ ∧ unpackMantissa b ≠ 0#_
  | .infinity s =>
    s = .ofBitVec (unpackSign b) ∧ unpackExponent b = -1#_ ∧ unpackMantissa b = 0#_
  | .zero s => s = .ofBitVec (unpackSign b) ∧ unpackExponent b = 0#_ ∧ unpackMantissa b = 0#_
  | .finite s m e _ =>
    s = .ofBitVec (unpackSign b) ∧
      ((unpackExponent b).toNat = 0 ∧ m = (unpackMantissa b).toNat ∧ e = spec.minExponent ∨
        0 < (unpackExponent b).toNat ∧ (unpackExponent b).toNat < 2 ^ spec.exponentBits - 1 ∧
          m = 2 ^ spec.mantissaBitsWithoutImplicit + (unpackMantissa b).toNat ∧
          e = (unpackExponent b).toNat - (spec.exponentBias + spec.mantissaBitsWithoutImplicit))

theorem components_unpack (b : BitVec spec.numBits) :
    Components b (UnpackedFloat.unpack spec b) := by
  by_cases hx : unpackExponent b = -1#_
  · rw [unpack_special hx]
    by_cases hm : unpackMantissa b = 0#_
    · rw [if_pos hm]
      exact ⟨rfl, hx, hm⟩
    · rw [if_neg hm]
      exact ⟨hx, hm⟩
  by_cases he : unpackExponent b = 0#_
  · by_cases hm : unpackMantissa b = 0#_
    · rw [unpack_zero he hm]
      exact ⟨rfl, he, hm⟩
    · obtain ⟨_, hl⟩ := unpack_least he hm
      rw [hl]
      exact ⟨rfl, Or.inl ⟨by rw [he, BitVec.toNat_ofNat, Nat.zero_mod], rfl, rfl⟩⟩
  · obtain ⟨_, hn⟩ := unpack_normal hx he
    rw [hn]
    have hne : (unpackExponent b).toNat ≠ 0 := by
      intro h
      exact he (BitVec.eq_of_toNat_eq (by simpa using h))
    have hnl : (unpackExponent b).toNat ≠ 2 ^ spec.exponentBits - 1 := by
      intro h
      refine hx (BitVec.eq_of_toNat_eq ?_)
      rw [h, BitVec.neg_one_eq_allOnes, BitVec.toNat_allOnes]
    have hlt := (unpackExponent b).isLt
    exact ⟨rfl, Or.inr ⟨by omega, by omega, rfl, rfl⟩⟩

theorem components_of_unpack {u : UnpackedFloat} (hu : UnpackedFloat.unpack spec b = u) :
    Components b u :=
  hu ▸ components_unpack b

/-- What a word stands for is in the form of the format and has room in it. -/
theorem unpack_isCanonical (hs : 1 < spec.exponentBits) {s : Sign} {m : Nat} {e : ℤ} {h : 0 < m}
    (hu : UnpackedFloat.unpack spec b = .finite s m e h) :
    IsCanonical spec m e ∧ Fits spec e := by
  have hb := mantissaBits_eq spec
  have hE := one_lt_half hs
  have ht := two_pow_exponentBits spec
  have hmin := minExponent_eq spec
  have hbias := exponentBias_eq spec
  have hmb := (unpackMantissa b).isLt
  obtain ⟨-, ⟨-, rfl, rfl⟩ | ⟨h0, hl, rfl, rfl⟩⟩ := components_of_unpack hu
  · refine ⟨⟨?_, le_rfl, Or.inr rfl⟩, ?_⟩
    · rw [hb, pow_succ]
      omega
    · rw [Fits, hmin, hb]
      push_cast
      omega
  · refine ⟨⟨?_, ?_, Or.inl (Nat.le_add_right _ _)⟩, ?_⟩
    · rw [hb, pow_succ]
      omega
    · rw [hmin]
      omega
    · rw [Fits, hb]
      push_cast
      omega

/-! ## Packing -/

theorem unpack_pack_zero (s : Sign) :
    UnpackedFloat.unpack spec (UnpackedFloat.pack spec (.zero s)) = .zero s := by
  show UnpackedFloat.unpack spec (packComponents spec s 0#_ 0#_) = _
  rw [unpack_zero unpackExponent_packComponents unpackMantissa_packComponents,
    unpackSign_packComponents, Sign.ofBitVec_toBitVec]

theorem unpack_packedInfinity (s : Sign) :
    UnpackedFloat.unpack spec (packedInfinity spec s) = .infinity s := by
  show UnpackedFloat.unpack spec (packComponents spec s (-1#_) 0#_) = _
  rw [unpack_special unpackExponent_packComponents, if_pos unpackMantissa_packComponents,
    unpackSign_packComponents, Sign.ofBitVec_toBitVec]

theorem unpack_pack_infinity (s : Sign) :
    UnpackedFloat.unpack spec (UnpackedFloat.pack spec (.infinity s)) = .infinity s :=
  unpack_packedInfinity s

theorem unpack_pack_notANumber :
    UnpackedFloat.unpack spec (UnpackedFloat.pack spec .notANumber) = .notANumber := by
  show UnpackedFloat.unpack spec (packComponents spec .positive (-1#_)
    (1#_ <<< (spec.mantissaBitsWithoutImplicit - 1))) = _
  have hm := spec.hm
  rw [unpack_special unpackExponent_packComponents, if_neg]
  rw [unpackMantissa_packComponents]
  intro h
  have hn := congrArg BitVec.toNat h
  have hlt : 2 ^ (spec.mantissaBitsWithoutImplicit - 1) < 2 ^ spec.mantissaBitsWithoutImplicit :=
    Nat.pow_lt_pow_right (by norm_num) (by omega)
  rw [BitVec.toNat_shiftLeft, BitVec.toNat_ofNat, BitVec.toNat_ofNat, Nat.zero_mod,
    Nat.one_mod_two_pow hm, Nat.shiftLeft_eq, one_mul, Nat.mod_eq_of_lt hlt] at hn
  exact (Nat.two_pow_pos _).ne' hn

theorem pack_of_not_fits {s : Sign} {m : Nat} {e : ℤ} (h : 0 < m) (he : ¬ Fits spec e) :
    UnpackedFloat.pack spec (.finite s m e h) = packedInfinity spec s := by
  have hb := mantissaBits_eq spec
  have ht := two_pow_exponentBits spec
  have hbias := exponentBias_eq spec
  unfold Fits at he
  unfold UnpackedFloat.pack
  dsimp only
  rw [if_pos (by omega)]

theorem log2_of_full {m : Nat} (h₁ : 2 ^ spec.mantissaBitsWithoutImplicit ≤ m)
    (h₂ : m < 2 ^ spec.mantissaBits) : m.log2 + 1 = spec.mantissaBits := by
  have hm : m ≠ 0 := by
    have := Nat.two_pow_pos spec.mantissaBitsWithoutImplicit
    omega
  have hl := (Nat.le_log2 hm).mpr h₁
  have hu := (Nat.log2_lt hm).mpr h₂
  rw [mantissaBits_eq] at *
  omega

theorem ofNat_ne_zero {w n : Nat} (h0 : 0 < n) (h : n < 2 ^ w) : BitVec.ofNat w n ≠ 0#w := by
  intro he
  have hn := congrArg BitVec.toNat he
  rw [BitVec.toNat_ofNat, BitVec.toNat_ofNat, Nat.zero_mod, Nat.mod_eq_of_lt h] at hn
  omega

theorem ofNat_ne_allOnes {w n : Nat} (h : n + 1 < 2 ^ w) : BitVec.ofNat w n ≠ -1#w := by
  intro he
  have hn := congrArg BitVec.toNat he
  rw [BitVec.neg_one_eq_allOnes, BitVec.toNat_ofNat, BitVec.toNat_allOnes,
    Nat.mod_eq_of_lt (by omega)] at hn
  omega

theorem unpack_full (s : Sign) {m E : Nat} (h₁ : 2 ^ spec.mantissaBitsWithoutImplicit ≤ m)
    (h₂ : m < 2 ^ spec.mantissaBits) (hE0 : 0 < E) (hE : E + 1 < 2 ^ spec.exponentBits) :
    ∃ h, UnpackedFloat.unpack spec
      (packComponents spec s (BitVec.ofNat _ E) (BitVec.ofNat _ m)) =
        .finite s m (E - (spec.exponentBias + spec.mantissaBitsWithoutImplicit)) h := by
  rw [mantissaBits_eq, pow_succ] at h₂
  have hE' : E % 2 ^ spec.exponentBits = E := Nat.mod_eq_of_lt (by omega)
  have hm : 2 ^ spec.mantissaBitsWithoutImplicit + m % 2 ^ spec.mantissaBitsWithoutImplicit =
      m := by
    rw [Nat.mod_eq_sub_mod h₁, Nat.mod_eq_of_lt (by omega)]
    omega
  obtain ⟨_, hn⟩ := unpack_normal
    (b := packComponents spec s (BitVec.ofNat _ E) (BitVec.ofNat _ m))
    (by rw [unpackExponent_packComponents]; exact ofNat_ne_allOnes hE)
    (by rw [unpackExponent_packComponents]; exact ofNat_ne_zero hE0 (by omega))
  refine ⟨Nat.lt_of_lt_of_le (Nat.two_pow_pos _) h₁, ?_⟩
  rw [hn]
  simp only [unpackExponent_packComponents, unpackMantissa_packComponents,
    unpackSign_packComponents, Sign.ofBitVec_toBitVec, BitVec.toNat_ofNat, hE', hm]

/-- A shorter mantissa is stored at the least exponent. -/
theorem unpack_short (s : Sign) {m : Nat} (h0 : 0 < m)
    (h : m < 2 ^ spec.mantissaBitsWithoutImplicit) :
    UnpackedFloat.unpack spec (packComponents spec s 0#_ (BitVec.ofNat _ m)) =
      .finite s m spec.minExponent h0 := by
  obtain ⟨_, hn⟩ := unpack_least
    (b := packComponents spec s 0#_ (BitVec.ofNat _ m)) unpackExponent_packComponents
    (by rw [unpackMantissa_packComponents]; exact ofNat_ne_zero h0 h)
  rw [hn]
  simp only [unpackMantissa_packComponents, unpackSign_packComponents, Sign.ofBitVec_toBitVec,
    BitVec.toNat_ofNat, Nat.mod_eq_of_lt h]

theorem unpack_pack_finite {s : Sign} {m : Nat} {e : ℤ} (h : 0 < m)
    (hc : IsCanonical spec m e) (he : Fits spec e) :
    UnpackedFloat.unpack spec (UnpackedFloat.pack spec (.finite s m e h)) = .finite s m e h := by
  have hb := mantissaBits_eq spec
  have ht := two_pow_exponentBits spec
  have hbias := exponentBias_eq spec
  have hmin := minExponent_eq spec
  have hleast := hc.least
  unfold Fits at he
  unfold UnpackedFloat.pack
  dsimp only
  rw [if_neg (by omega)]
  by_cases hf : 2 ^ spec.mantissaBitsWithoutImplicit ≤ m
  · rw [if_pos (log2_of_full hf hc.lt)]
    obtain ⟨_, hn⟩ := unpack_full s hf hc.lt
      (show 0 < (e + spec.exponentBias + spec.mantissaBitsWithoutImplicit).toNat by omega)
      (by omega)
    rw [hn]
    congr 1
    omega
  · have hl : m.log2 + 1 ≠ spec.mantissaBits := by
      have := (Nat.log2_lt h.ne').mpr (not_le.mp hf)
      omega
    rw [if_neg hl, unpack_short s h (not_le.mp hf)]
    congr 1
    rcases hc.full with hfull | hfull
    · exact absurd hfull hf
    · exact hfull.symm

/-! ## The number that comes back -/

theorem value_of_real {u : UnpackedFloat} (h : ∀ s, u ≠ .infinity s) : value u = real u := by
  cases u with
  | infinity s => exact absurd rfl (h s)
  | notANumber => rfl
  | zero s => rfl
  | finite s m e hm => rfl

theorem value_finite (s : Sign) (m : Nat) (e : ℤ) (h : 0 < m) :
    value (.finite s m e h) = (signum s * (m * (2 : ℝ) ^ e) : ℝ) := by
  rw [value_of_real fun s => by simp, real_finite]

theorem lt_limit {m : Nat} {e : ℤ} (hc : IsCanonical spec m e) (he : Fits spec e) :
    m * (2 : ℝ) ^ e < limit spec := by
  have hm : (m : ℝ) < (2 : ℝ) ^ (spec.mantissaBits : ℤ) := by
    rw [zpow_natCast]
    exact_mod_cast hc.lt
  calc m * (2 : ℝ) ^ e < (2 : ℝ) ^ (spec.mantissaBits : ℤ) * (2 : ℝ) ^ e :=
        mul_lt_mul_of_pos_right hm (zpow_pos (by norm_num) e)
    _ = (2 : ℝ) ^ ((spec.mantissaBits : ℤ) + e) := (zpow_add₀ (by norm_num) _ _).symm
    _ ≤ (2 : ℝ) ^ (half spec : ℤ) := by
        refine zpow_le_zpow_right₀ (by norm_num) ?_
        unfold Fits at he
        omega
    _ = limit spec := zpow_natCast _ _

theorem limit_le {m : Nat} {e : ℤ} (hs : 1 < spec.exponentBits) (hc : IsCanonical spec m e)
    (he : ¬ Fits spec e) : limit spec ≤ m * (2 : ℝ) ^ e := by
  have hE := one_lt_half hs
  have hb := mantissaBits_eq spec
  have hmin := minExponent_eq spec
  unfold Fits at he
  have hf : 2 ^ spec.mantissaBitsWithoutImplicit ≤ m := by
    rcases hc.full with hf | hf
    · exact hf
    · omega
  have hm : (2 : ℝ) ^ (spec.mantissaBitsWithoutImplicit : ℤ) ≤ m := by
    rw [zpow_natCast]
    exact_mod_cast hf
  calc limit spec = (2 : ℝ) ^ (half spec : ℤ) := (zpow_natCast _ _).symm
    _ ≤ (2 : ℝ) ^ ((spec.mantissaBitsWithoutImplicit : ℤ) + e) :=
        zpow_le_zpow_right₀ (by norm_num) (by omega)
    _ = (2 : ℝ) ^ (spec.mantissaBitsWithoutImplicit : ℤ) * (2 : ℝ) ^ e :=
        zpow_add₀ (by norm_num) _ _
    _ ≤ m * (2 : ℝ) ^ e := mul_le_mul_of_nonneg_right hm (zpow_pos (by norm_num) e).le

theorem overflowed_signum (s : Sign) (x : ℝ) (hx : limit spec ≤ x) :
    overflowed spec (signum s * x) = value (.infinity s) := by
  have := limit_pos spec
  cases s with
  | positive =>
    rw [signum, one_mul, overflowed, if_pos hx]
    rfl
  | negative =>
    rw [signum, neg_one_mul, overflowed, if_neg (by linarith), if_pos (by linarith)]
    rfl

theorem overflowed_of_lt {x : ℝ} (h : |x| < limit spec) : overflowed spec x = x := by
  have := abs_lt.mp h
  rw [overflowed, if_neg (by linarith), if_neg (by linarith)]

theorem rounded_signum (s : Sign) (x : ℝ) :
    rounded spec (signum s * x) = signum s * rounded spec x := by
  cases s with
  | positive => rw [signum, one_mul, one_mul]
  | negative => rw [signum, neg_one_mul, neg_one_mul, rounded_neg]

/-- A rounded number that was packed comes back as the nearest number of the format, or as
an infinity where the format does not reach. -/
theorem value_unpack_pack (hs : 1 < spec.exponentBits) {s : Sign} {x : ℝ} {u : UnpackedFloat}
    (hu : IsRounded spec s x u) :
    value (UnpackedFloat.unpack spec (UnpackedFloat.pack spec u)) =
      nearest spec (signum s * x : ℝ) := by
  rw [nearest_coe, rounded_signum]
  rcases hu with ⟨rfl, hz⟩ | ⟨m, e, h, rfl, hc, hv⟩
  · rw [unpack_pack_zero, hz, mul_zero, overflowed_of_lt (by rw [abs_zero]; exact limit_pos spec)]
    rfl
  · rw [← hv]
    by_cases he : Fits spec e
    · have hlt := lt_limit hc he
      have habs : |signum s * (m * (2 : ℝ) ^ e)| < limit spec := by
        rw [abs_mul, abs_of_nonneg (by positivity : 0 ≤ (m : ℝ) * (2 : ℝ) ^ e)]
        cases s <;> simpa [signum] using hlt
      rw [unpack_pack_finite h hc he, value_finite, overflowed_of_lt habs]
    · rw [pack_of_not_fits h he, unpack_packedInfinity,
        overflowed_signum s _ (limit_le hs hc he)]

theorem unpack_pack_ne_notANumber {s : Sign} {x : ℝ} {u : UnpackedFloat}
    (hu : IsRounded spec s x u) :
    UnpackedFloat.unpack spec (UnpackedFloat.pack spec u) ≠ .notANumber := by
  rcases hu with ⟨rfl, -⟩ | ⟨m, e, h, rfl, hc, -⟩
  · rw [unpack_pack_zero]
    exact UnpackedFloat.noConfusion
  · by_cases he : Fits spec e
    · rw [unpack_pack_finite h hc he]
      exact UnpackedFloat.noConfusion
    · rw [pack_of_not_fits h he, unpack_packedInfinity]
      exact UnpackedFloat.noConfusion

end Binary
end Seismic
