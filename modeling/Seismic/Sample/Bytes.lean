import Seismic.Failure

/-!
# Samples as bytes

Samples are exchanged as words of four bytes, least significant byte first.  Every sequence
of samples has exactly one sequence of bytes and every sequence of whole words is that of
some samples.
-/

namespace Seismic
namespace Single

/-- The bytes of a sample, least significant first. -/
def bytes (s : Single) : List UInt8 :=
  [s.bits.toUInt8, (s.bits >>> 8).toUInt8, (s.bits >>> 16).toUInt8, (s.bits >>> 24).toUInt8]

/-- The sample of four bytes, least significant first. -/
def ofBytes (a b c d : UInt8) : Single :=
  ⟨a.toUInt32 ||| b.toUInt32 <<< 8 ||| c.toUInt32 <<< 16 ||| d.toUInt32 <<< 24⟩

end Single

namespace Sample

def encode (samples : List Single) : List UInt8 := samples.flatMap Single.bytes

/-- The samples of a sequence of bytes, which has to end with a whole word. -/
def decode {α : Type} : List UInt8 → Result α (List Single)
  | [] => .ok []
  | a :: b :: c :: d :: rest => (Single.ofBytes a b c d :: ·) <$> decode rest
  | _ => .error .brokenSample

end Sample
end Seismic
