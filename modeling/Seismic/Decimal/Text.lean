import Seismic.Binary.Single
import Seismic.Decimal.Shortest

/-!
# Decimal text of numbers

Messages write a number with the fewest digits that identify it in its own format, never
with an exponent.  A zero keeps its sign.
-/

namespace Seismic

open Float.Model (Format UnpackedFloat)
open Float.Model.UnpackedFloat (Sign)

namespace Double

def ofDecimal (d : Decimal) : Float :=
  Float.ofScientific d.digits (d.exponent < 0) d.exponent.natAbs

/-- The shortest decimal of `m * 2 ^ e`. -/
def shortest (m : Nat) (e : Int) : Decimal :=
  let bits := (ofParts .positive m e).toBits
  Decimal.shortest (fun d => (ofDecimal d).toBits == bits) (Decimal.ofBinary m e)

end Double

namespace Single

def ofDecimal (d : Decimal) : Single :=
  ⟨.ofBitVec (UnpackedFloat.pack Format.binary32
    (UnpackedFloat.ofScientific Format.binary32 d.digits d.exponent))⟩

/-- The shortest decimal of `m * 2 ^ e` among those that read as the same sample. -/
def shortest (m : Nat) (e : Int) : Decimal :=
  let word := ofUnpacked (UnpackedFloat.round Format.binary32 .positive m e)
  Decimal.shortest (fun d => ofDecimal d == word) (Decimal.ofBinary m e)

end Single

/-- An unpacked number in text, given the shortest decimal of a mantissa and exponent. -/
def unpackedText (shortest : Nat → Int → Decimal) : UnpackedFloat → String
  | .notANumber => "NaN"
  | .infinity .positive => "inf"
  | .infinity .negative => "-inf"
  | .zero .positive => "0"
  | .zero .negative => "-0"
  | .finite .positive m e _ => (shortest m e).positional
  | .finite .negative m e _ => "-" ++ (shortest m e).positional

def Double.text (x : Float) : String := unpackedText Double.shortest x.toModel.unpack

def Single.text (s : Single) : String := unpackedText Single.shortest s.unpack

end Seismic
