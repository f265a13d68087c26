import Seismic.Scalar

/-!
# Shapes of arrays

An array is addressed through its lengths along each axis, by signed 64-bit numbers.  It can
be addressed if the product of those lengths that are not zero is in range, also when it
holds nothing.
-/

namespace Seismic
namespace Shape

/-- The product of the lengths that are not zero. -/
def reach (lengths : List Nat) : Nat := lengths.foldl (fun p n => p * Max.max n 1) 1

def isAddressable (lengths : List Nat) : Bool := decide (reach lengths < signedBound)

/-- Whether an array of elements of `width` bytes can be addressed byte by byte. -/
def fitsMemory (width count : Nat) : Bool := decide (width * count < signedBound)

end Shape
end Seismic
