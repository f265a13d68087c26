import Seismic.Decimal.Digits

/-!
# The shortest decimal that identifies a number

A binary number has an exact decimal expansion.  Among the decimals that read back as the
number, `shortest` finds one with the fewest digits, and of two with equally few the one
closer to the expansion.  What reading back means is a parameter, so one search serves
every binary format.
-/

namespace Seismic

/-- The number `digits * 10 ^ exponent`. -/
structure Decimal where
  digits : Nat
  exponent : Int
  deriving DecidableEq, Repr

namespace Decimal

/-- The decimal expansion of `m * 2 ^ e`, which ends because two divides ten. -/
def ofBinary (m : Nat) (e : Int) : Decimal :=
  if 0 ≤ e then ⟨m <<< e.toNat, 0⟩ else ⟨m * Nat.pow 5 (-e).toNat, e⟩

/-- The decimal below or at `d` with its first `n` of `length` digits. -/
def below (d : Decimal) (length n : Nat) : Decimal :=
  ⟨d.digits / Digits.placeValue (length - n), d.exponent + (length - n : Nat)⟩

/-- The next decimal of `n` digits above `below d length n`, a power of ten written as a
single digit. -/
def above (d : Decimal) (length n : Nat) : Decimal :=
  let next := d.digits / Digits.placeValue (length - n) + 1
  if next = Digits.placeValue n then ⟨1, d.exponent + length⟩
  else ⟨next, d.exponent + (length - n : Nat)⟩

/-- Of the two neighbours of `d` with `n` digits, the closer one that reads back.  Halfway
between them the upper one counts as closer. -/
def ofLength? (reads : Decimal → Bool) (d : Decimal) (length n : Nat) : Option Decimal :=
  let unit := Digits.placeValue (length - n)
  let rest := d.digits % unit
  let low := below d length n
  let high := above d length n
  match reads low, decide (rest ≠ 0) && reads high with
  | true, true => some (if 2 * rest < unit then low else high)
  | true, false => some low
  | false, true => some high
  | false, false => none

/-- The shortest decimal that reads back, found by trying one digit, two digits and so on
up to the whole expansion `d`. -/
def shortest (reads : Decimal → Bool) (d : Decimal) : Decimal :=
  let length := (Digits.ofNat d.digits).length
  ((List.range length).findSome? fun n => ofLength? reads d length (n + 1)).getD d

/-- Digits without exponent: zeros are added before the point or after it as needed. -/
def positional (d : Decimal) : String :=
  let text := Digits.ofNat d.digits
  if 0 ≤ d.exponent then String.ofList (text ++ List.replicate d.exponent.toNat '0')
  else
    let places := (-d.exponent).toNat
    let padded := Digits.padded (places + 1) d.digits
    let whole := padded.length - places
    String.ofList (padded.take whole ++ '.' :: padded.drop whole)

end Decimal
end Seismic
