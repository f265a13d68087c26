import Seismic.Binary.Single
import Seismic.Proofs.Double.Remainder

/-!
# Arithmetic of 32-bit samples

Widening a sample keeps its place in the extended line, and narrowing a number takes it to
the nearest place of a sample.  So a sum of samples is their exact sum, rounded twice.
Rounding keeps the order and the places of samples: a sample moved by a distance that is not
negative does not rise, and one moved by no distance stays where it is.
-/

namespace Seismic
namespace Single

open Float.Model
open Double (IsFinite IsNumber value)

/-- The place of the sample nearest to a number. -/
noncomputable def round (x : EReal) : EReal := Binary.nearest Format.binary32 x

theorem one_lt_exponentBits : 1 < Format.binary32.exponentBits := by decide

theorem inFormat (s : Single) : Binary.InFormat Format.binary32 s.unpack :=
  Binary.unpack_inFormat one_lt_exponentBits _

theorem round_mono {x y : EReal} (h : x ≤ y) : round x ≤ round y :=
  Binary.nearest_mono Format.binary32 h

theorem round_neg (x : EReal) : round (-x) = -round x := Binary.nearest_neg x

theorem round_max (x y : EReal) : round (max x y) = max (round x) (round y) :=
  Monotone.map_max (fun _ _ => round_mono)

/-! ## Widening -/

/-- A number of 32 bits in the form of 64 bits. -/
theorem ofParts_eq {s : UnpackedFloat.Sign} {m : Nat} {e : ℤ} {h : 0 < m}
    (hc : Binary.InFormat Format.binary32 (.finite s m e h)) :
    IsFinite (Double.ofParts s m e) ∧
      value (Double.ofParts s m e) = Binary.value (.finite s m e h) := by
  have hbits : Format.binary32.mantissaBits = 24 := by decide
  have hmin : Format.binary32.minExponent = -149 := by decide
  have hm : m < 2 ^ 24 := hbits ▸ hc.1.lt
  have he : -149 ≤ e := hmin ▸ hc.1.least
  have hlimit : Binary.limit Format.binary32 ≤ 2 ^ 1024 :=
    pow_le_pow_right₀ (by norm_num) (by decide)
  obtain ⟨hf, hv⟩ := Double.ofParts_exact s (e := e) (hm.trans (by norm_num)) (by omega)
    ((Binary.lt_limit hc.1 hc.2).trans_le hlimit)
  refine ⟨hf, ?_⟩
  rw [Double.value_of_isFinite hf, hv, Binary.value_finite]

theorem toDouble_special {u : UnpackedFloat} (h : Binary.InFormat Format.binary64 u) :
    value (.ofModel (.pack u)) = Binary.value u ∧
      (IsNumber (.ofModel (.pack u)) ↔ u ≠ .notANumber) := by
  have hu : (Float.ofModel (.pack u)).toModel.unpack = u := Binary.unpack_pack h
  unfold value IsNumber
  rw [hu]
  exact ⟨rfl, Iff.rfl⟩

theorem value_toDouble (s : Single) : value s.toDouble = Binary.value s.unpack ∧
    (IsNumber s.toDouble ↔ s.unpack ≠ .notANumber) := by
  have hform := s.inFormat
  unfold toDouble
  cases hu : s.unpack with
  | finite t m e h =>
    rw [hu] at hform
    obtain ⟨hf, hv⟩ := ofParts_eq hform
    exact ⟨hv, fun _ => UnpackedFloat.noConfusion, fun _ => hf.isNumber⟩
  | _ => exact toDouble_special trivial

theorem round_value (s : Single) : round (value s.toDouble) = value s.toDouble := by
  rw [s.value_toDouble.1]
  exact Binary.nearest_value s.inFormat

/-! ## Narrowing -/

/-- The sample is a number at a certain place. -/
structure IsAt (s : Single) (x : EReal) : Prop where
  isNumber : IsNumber s.toDouble
  value : value s.toDouble = x

theorem IsAt.beq {s t : Single} {x : EReal} (hs : s.IsAt x) (ht : t.IsAt x) :
    (s.toDouble == t.toDouble) = true :=
  Double.beq_iff.mpr ⟨hs.isNumber, ht.isNumber, hs.value.trans ht.value.symm⟩

theorem isAt_of_yields {s : Single} {u : UnpackedFloat} {x : EReal}
    (hu : Binary.Yields Format.binary32 u x)
    (hs : s.unpack = UnpackedFloat.unpack Format.binary32 (UnpackedFloat.pack Format.binary32 u)) :
    s.IsAt (round x) := by
  obtain ⟨hv, hn⟩ := s.value_toDouble
  rw [hs] at hv hn
  exact ⟨hn.mpr hu.isNumber, hv.trans hu.value_eq⟩

theorem isAt_ofDouble {x : Float} (hx : IsNumber x) : (ofDouble x).IsAt (round (value x)) := by
  unfold value ofDouble
  unfold IsNumber at hx
  cases hu : x.toModel.unpack with
  | finite s m e h =>
    rw [Binary.value_finite]
    exact isAt_of_yields (Binary.round_yields one_lt_exponentBits s h.ne' e) rfl
  | notANumber => exact absurd hu hx
  | infinity s => exact isAt_of_yields (Binary.yields_infinity s) rfl
  | zero s =>
    exact isAt_of_yields
      (Binary.InFormat.yields (u := .zero s) trivial UnpackedFloat.noConfusion) rfl

/-- Narrowing keeps the order. -/
theorem ofDouble_mono {x y : Float} (h : x ≤ y) : (ofDouble x).toDouble ≤ (ofDouble y).toDouble := by
  obtain ⟨hx, hy, hv⟩ := Double.le_iff.mp h
  have hx' := isAt_ofDouble hx
  have hy' := isAt_ofDouble hy
  rw [Double.le_iff, hx'.value, hy'.value]
  exact ⟨hx'.isNumber, hy'.isNumber, round_mono hv⟩

/-- Narrowing goes with absolute values. -/
theorem value_abs_ofDouble {x : Float} (hx : IsNumber x) : IsNumber (ofDouble x).toDouble.abs ∧
    value (ofDouble x).toDouble.abs = round (value x.abs) := by
  have hs := isAt_ofDouble hx
  obtain ⟨hn, hv⟩ := Double.abs_spec hs.isNumber
  refine ⟨hn, ?_⟩
  rw [hv, hs.value, (Double.abs_spec hx).2, round_max, round_neg]

/-! ## Moving by a distance -/

theorem isAt_neg {d : Single} (hd : IsNumber d.toDouble) :
    (Sampled.neg d).IsAt (-value d.toDouble) := by
  obtain ⟨hn, hv⟩ := Double.neg_spec hd
  have h := isAt_ofDouble hn
  rwa [hv, round_neg, d.round_value] at h

theorem isAt_zero : (Sampled.zero : Single).IsAt 0 := by
  obtain ⟨hf, hv⟩ := Double.ofInt_zero
  have h := isAt_ofDouble hf.isNumber
  rwa [Double.value_of_isFinite hf, hv, EReal.coe_zero,
    show round 0 = 0 from Binary.nearest_value (u := .zero .positive) trivial] at h

/-- Where a sample gets to when it is moved by a distance. -/
noncomputable def moved (r : Single) (distance : EReal) : EReal :=
  round (Double.round (value r.toDouble + distance))

theorem moved_zero (r : Single) : r.moved 0 = value r.toDouble := by
  rw [moved, add_zero, Double.round_value, round_value]

theorem moved_mono (r : Single) {x y : EReal} (h : x ≤ y) : r.moved x ≤ r.moved y :=
  round_mono (Double.round_mono (add_le_add_right h _))

theorem isAt_moved_zero {r : Single} (hr : IsNumber r.toDouble) : r.IsAt (r.moved 0) :=
  ⟨hr, r.moved_zero.symm⟩

theorem isAt_add {r d : Single} {x : EReal} (hr : IsFinite r.toDouble) (hd : d.IsAt x) :
    (Sampled.add r d).IsAt (r.moved x) := by
  obtain ⟨hn, hv⟩ := Double.finite_add_spec hr hd.isNumber
  have h := isAt_ofDouble hn
  rwa [hv, hd.value] at h

theorem isAt_sub {r d : Single} {x : EReal} (hr : IsFinite r.toDouble) (hd : d.IsAt x) :
    (ofDouble (r.toDouble - d.toDouble)).IsAt (r.moved (-x)) := by
  obtain ⟨hn, hv⟩ := Double.finite_sub_spec hr hd.isNumber
  have h := isAt_ofDouble hn
  rwa [hv, hd.value, sub_eq_add_neg] at h

end Single
end Seismic
