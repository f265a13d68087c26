import Seismic.Json.Codec
import Seismic.Json.Text

/-!
# Parts of JSON values

A structure is written as an object with one member per field and read from such an object
or from an array of its fields in order.  Members with other names are ignored, and a field
must not be given twice.  A choice is written by its name and read from its name or from an
object with that name for its only member and `null` for its value.

Numbers are 64-bit.  One that is too large for that is refused, and one that is not finite
has no written form and is written as `null`.
-/

namespace Seismic
namespace Json

def isNull : Json → Bool
  | null => true
  | _ => false

/-- A count below `2 ^ 64`, written without sign, fraction and exponent. -/
def toCount? : Json → Option Nat
  | number ⟨false, n, 0, true⟩ => if n < countBound then some n else none
  | _ => none

/-- Any number that is not too large. -/
def toDouble? : Json → Option Float
  | number n =>
    let x := n.toDouble
    if x.isFinite then some x else none
  | _ => none

def toString? : Json → Option String
  | text s => s
  | _ => none

/-- The name of a choice. -/
def toName? : Json → Option String
  | text (some s) => some s
  | object [(some s, null)] => some s
  | _ => none

def toItems? : Json → Option (List Json)
  | array items => some items
  | _ => none

/-- The value of a member, if there is one, among members of which at most one has the
name. -/
def member? (name : String) (members : List (Option String × Json)) :
    Option (Option Json) :=
  match members.filter fun m => m.1 == some name with
  | [] => some none
  | [(_, v)] => some (some v)
  | _ => none

/-- The fields of a structure by name or by position.  An array has to give all of them, or
the first ones where the others have a default. -/
def fields? (names : List String) (defaults : Bool) : Json → Option (List (Option Json))
  | object members =>
    if members.all fun m => m.1.isSome then names.mapM fun name => member? name members
    else none
  | array items =>
    if items.length = names.length ∨ (defaults ∧ items.length ≤ names.length) then
      some (items.map some ++ List.replicate (names.length - items.length) none)
    else none
  | _ => none

instance : Codec Json where
  render := render
  parse? := parse?
  null := null
  isNull := isNull
  ofDouble := ofDouble
  toDouble? := toDouble?
  ofCount := ofNat
  toCount? := toCount?
  ofString := ofString
  toString? := toString?
  ofName := ofString
  toName? := toName?
  ofItems := array
  toItems? := toItems?
  ofFields names values := ofMembers (names.zip values)
  fields? := fields?

end Json
end Seismic
