/-!
# Text and values

Requests and surveys are exchanged as text.  What a library does to write and to read it is not
described here, only what it offers: values of a type of its own, which are rendered and parsed,
made of parts and taken apart again.  The forms of requests and surveys are put together from these
operations, so they are there for any library.
-/

namespace Seismic

/-- A library that exchanges values as text. -/
class Codec (V : Type) where
  render : V → String
  /-- The value of a text with nothing else in it. -/
  parse? : String → Option V
  null : V
  isNull : V → Bool
  ofDouble : Float → V
  toDouble? : V → Option Float
  ofCount : Nat → V
  toCount? : V → Option Nat
  ofString : String → V
  toString? : V → Option String
  /-- One of several choices, by its name. -/
  ofName : String → V
  toName? : V → Option String
  ofItems : List V → V
  toItems? : V → Option (List V)
  /-- A structure with the names of its fields and their values. -/
  ofFields : List String → List V → V
  /-- The values of the fields that are named, if they are there, whatever else there is.  Where
  the fields have defaults, a structure without names may end early. -/
  fields? : (names : List String) → (defaults : Bool) → V → Option (List (Option V))

end Seismic
