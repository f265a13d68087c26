import Seismic.Binary.Double

/-!
# 32-bit samples

A stored sample is a word of the 32-bit binary format.  The word itself is kept, so that
reading and writing samples changes none of its bits, those of an undefined sample
included.  Arithmetic widens the word to 64 bits, where sums and products of two samples
are computed with more than twice the digits, and rounds once more to 32 bits.
-/

namespace Seismic

open Float.Model (Format UnpackedFloat)

structure Single where
  bits : UInt32
  deriving DecidableEq, Inhabited

namespace Single

/-- The word of the number closest to an unpacked one. -/
def ofUnpacked : UnpackedFloat → Single
  | .finite s m e _ =>
    ⟨.ofBitVec (UnpackedFloat.pack Format.binary32 (UnpackedFloat.round Format.binary32 s m e))⟩
  | special => ⟨.ofBitVec (UnpackedFloat.pack Format.binary32 special)⟩

def unpack (s : Single) : UnpackedFloat :=
  UnpackedFloat.unpack Format.binary32 s.bits.toBitVec

/-- The value of a sample.  Every 32-bit number is a 64-bit number. -/
def toDouble (s : Single) : Float :=
  match s.unpack with
  | .finite s m e _ => Double.ofParts s m e
  | special => .ofModel (.pack special)

/-- The sample closest to a number, a tie going to the even mantissa. -/
def ofDouble (x : Float) : Single := ofUnpacked x.toModel.unpack

end Single

instance : Sampled Single Float where
  widen := Single.toDouble
  narrow := Single.ofDouble

end Seismic
