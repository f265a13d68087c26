/-!
# Decimal digits

The digits of a natural number and the number of a sequence of digits.
-/

namespace Seismic
namespace Digits

def ofNat (n : Nat) : List Char := Nat.toDigits 10 n

/-- The value of a digit one with `n` digits after it, `10 ^ n`. -/
def placeValue (n : Nat) : Nat := Nat.pow 10 n

/-- The number written by a sequence of digits. -/
def toNat (digits : List Char) : Nat :=
  digits.foldl (fun n c => 10 * n + (c.toNat - '0'.toNat)) 0

/-- The digits of a number with zeros in front up to a width. -/
def padded (width n : Nat) : List Char :=
  let digits := ofNat n
  List.replicate (width - digits.length) '0' ++ digits

end Digits
end Seismic
