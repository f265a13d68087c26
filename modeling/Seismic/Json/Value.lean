import Seismic.Decimal.Text

/-!
# JSON values

The values of the JSON grammar as they are written: a number keeps its digits and an object
keeps its members in order, repeated names included.  An escape may stand for half of a
surrogate pair whose other half is missing.  Such a text has no value, which matters only
to a reader that wants the text, so it is kept as a text without one.
-/

namespace Seismic

/-- The number `± digits * 10 ^ exponent` as written. -/
structure Numeral where
  negative : Bool
  digits : Nat
  exponent : Int
  /-- Whether it is written without fraction and exponent. -/
  whole : Bool
  deriving DecidableEq, Repr

namespace Numeral

def toDouble (n : Numeral) : Float :=
  let x := Double.ofDecimal ⟨n.digits, n.exponent⟩
  if n.negative then -x else x

def ofNat (n : Nat) : Numeral := ⟨false, n, 0, true⟩

/-- A decimal as a numeral without exponent. -/
def ofDecimal (negative : Bool) (d : Decimal) : Numeral :=
  if 0 ≤ d.exponent then ⟨negative, d.digits * Digits.placeValue d.exponent.toNat, 0, true⟩
  else ⟨negative, d.digits, d.exponent, false⟩

/-- A finite number in the fewest digits that identify it. -/
def ofDouble? (x : Float) : Option Numeral :=
  match x.toModel.unpack with
  | .finite .positive m e _ => some (ofDecimal false (Double.shortest m e))
  | .finite .negative m e _ => some (ofDecimal true (Double.shortest m e))
  | .zero .positive => some (ofDecimal false ⟨0, 0⟩)
  | .zero .negative => some (ofDecimal true ⟨0, 0⟩)
  | _ => none

end Numeral

inductive Json where
  | null
  | bool (b : Bool)
  | number (n : Numeral)
  /-- A text, or an ill-formed one. -/
  | text (s : Option String)
  | array (items : List Json)
  | object (members : List (Option String × Json))

namespace Json

def ofString (s : String) : Json := text (some s)

def ofNat (n : Nat) : Json := number (.ofNat n)

/-- A number that is not finite has no numeral and is written as `null`. -/
def ofDouble (x : Float) : Json :=
  match Numeral.ofDouble? x with
  | some n => number n
  | none => null

def ofMembers (members : List (String × Json)) : Json :=
  object (members.map fun (name, value) => (some name, value))

end Json
end Seismic
