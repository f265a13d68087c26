import Seismic.Binary.Double

/-!
# Sizes in bytes

A size is written in the largest unit of which it holds at least one, each unit being 1024
of the one before, with two places after the point unless it is a plain count of bytes.
-/

namespace Seismic
namespace ByteSize

def units : List String := ["KB", "MB", "GB", "TB", "PB"]

/-- A quotient rounded to the nearest integer, a tie going to the even one. -/
def roundQuotient (n d : Nat) : Nat :=
  let q := n / d
  let rest := 2 * (n % d)
  if d < rest then q + 1 else if rest = d then q + q % 2 else q

/-- A number of hundredths with its point. -/
def hundredths (n : Nat) : String :=
  let fraction := n % 100
  s!"{n / 100}." ++ (if fraction < 10 then s!"0{fraction}" else s!"{fraction}")

def twoPlaces (x : Float) : String :=
  match x.toModel.unpack with
  | .finite _ m e _ =>
    hundredths (roundQuotient ((100 * m) <<< e.toNat) (1 <<< (-e).toNat))
  | _ => hundredths 0

/-- The size `x` in `unit`, or in a larger unit if it holds one. -/
def inUnits (x : Float) (unit : String) : List String → String
  | [] => s!"{twoPlaces x} {unit}"
  | next :: larger =>
    if 1024 ≤ x then inUnits (x / 1024) next larger else s!"{twoPlaces x} {unit}"

def text (bytes : Nat) : String :=
  let x := Float.ofNat bytes
  match units with
  | unit :: larger => if 1024 ≤ x then inUnits (x / 1024) unit larger else s!"{bytes} B"
  | [] => s!"{bytes} B"

end ByteSize
end Seismic
