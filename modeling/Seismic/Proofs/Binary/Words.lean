import Seismic.Proofs.Binary.Packed

/-!
# Words and their numbers

A word is its sign, its exponent and its mantissa.  Unpacking loses nothing of a word that
stands for a finite number, so two such words of one unpacked number are equal.
-/

namespace Seismic
namespace Binary

open Float.Model
open Float.Model.UnpackedFloat

variable {spec : Format} {b b' : BitVec spec.numBits}

theorem eq_of_components (hs : unpackSign b = unpackSign b')
    (he : unpackExponent b = unpackExponent b') (hm : unpackMantissa b = unpackMantissa b') :
    b = b' := by
  apply BitVec.eq_of_getLsbD_eq
  intro i hi
  have hmb := spec.hm
  have heb := spec.he
  rcases Nat.lt_or_ge i spec.mantissaBitsWithoutImplicit with h | h
  · have hbit := congrArg (fun v => v.getLsbD i) hm
    simpa [unpackMantissa, BitVec.getLsbD_extractLsb, show i ≤ spec.mantissaBitsWithoutImplicit - 1
      by omega] using hbit
  · rcases Nat.lt_or_ge i (spec.mantissaBitsWithoutImplicit + spec.exponentBits) with h' | h'
    · have hbit := congrArg (fun v => v.getLsbD (i - spec.mantissaBitsWithoutImplicit)) he
      simpa [unpackExponent, BitVec.getLsbD_extractLsb, Nat.add_sub_cancel' h,
        show i - spec.mantissaBitsWithoutImplicit ≤ spec.mantissaBitsWithoutImplicit +
          spec.exponentBits - 1 - spec.mantissaBitsWithoutImplicit by omega] using hbit
    · have hbit := congrArg (fun v => v.getLsbD 0) hs
      have hi' : i = spec.mantissaBitsWithoutImplicit + spec.exponentBits := by
        unfold Format.numBits at hi
        omega
      simpa [unpackSign, BitVec.getLsbD_extractLsb, hi'] using hbit

theorem ofBitVec_injective : Function.Injective Sign.ofBitVec := by
  have h : ∀ v : BitVec 1, (Sign.ofBitVec v).toBitVec = v := by decide
  intro v v' he
  rw [← h v, ← h v', he]

theorem unpack_injective_of_finite {s : Sign} {m : Nat} {e : ℤ} {h : 0 < m}
    (hu : UnpackedFloat.unpack spec b = .finite s m e h)
    (hu' : UnpackedFloat.unpack spec b' = .finite s m e h) : b = b' := by
  obtain ⟨hs, hb⟩ := components_of_unpack hu
  obtain ⟨hs', hb'⟩ := components_of_unpack hu'
  have hm := (unpackMantissa b).isLt
  have hm' := (unpackMantissa b').isLt
  refine eq_of_components (ofBitVec_injective (hs.symm.trans hs')) ?_ ?_ <;>
    refine BitVec.eq_of_toNat_eq ?_ <;>
    rcases hb with hb | hb <;> rcases hb' with hb' | hb' <;> omega

theorem unpack_injective_of_zero {s : Sign} (hu : UnpackedFloat.unpack spec b = .zero s)
    (hu' : UnpackedFloat.unpack spec b' = .zero s) : b = b' := by
  obtain ⟨hs, he, hm⟩ := components_of_unpack hu
  obtain ⟨hs', he', hm'⟩ := components_of_unpack hu'
  exact eq_of_components (ofBitVec_injective (hs.symm.trans hs')) (he.trans he'.symm)
    (hm.trans hm'.symm)

end Binary

namespace Double

open Float.Model

theorem eq_of_toBits {x y : Float} (h : x.toBits = y.toBits) : x = y := by
  obtain ⟨⟨bits, valid⟩⟩ := x
  obtain ⟨⟨bits', valid'⟩⟩ := y
  cases (h : bits = bits')
  rfl

theorem eq_of_unpack {x y : Float} (hx : x.isFinite = true)
    (h : x.toModel.unpack = y.toModel.unpack) : x = y := by
  apply eq_of_toBits
  rw [← UInt64.toBitVec_inj]
  cases hu : x.toModel.unpack with
  | finite s m e hm => exact Binary.unpack_injective_of_finite hu (h.symm.trans hu)
  | zero s => exact Binary.unpack_injective_of_zero hu (h.symm.trans hu)
  | infinity s =>
    have : x.toModel.unpack.isFinite = true := hx
    rw [hu] at this
    cases this
  | notANumber =>
    have : x.toModel.unpack.isFinite = true := hx
    rw [hu] at this
    cases this

end Double
end Seismic
