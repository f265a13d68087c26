import Seismic.Request

/-!
# Attributes

The quantities that can be asked for of a column of samples.  The three that would name a
position in the column can be requested but have no definition yet.
-/

namespace Seismic

inductive Attribute where
  | value
  | min | max | maxAbs
  | mean | meanAbs | meanPos | meanNeg
  | median
  | rms | var | sd
  | sumPos | sumNeg
  | minAt | maxAt | maxAbsAt
  deriving DecidableEq, Repr

namespace Attribute

def all : List Attribute :=
  [value, min, max, maxAbs, mean, meanAbs, meanPos, meanNeg, median, rms, var, sd,
    sumPos, sumNeg, minAt, maxAt, maxAbsAt]

def name : Attribute → String
  | value => "VALUE"
  | min => "MIN"
  | max => "MAX"
  | maxAbs => "MAXABS"
  | mean => "MEAN"
  | meanAbs => "MEANABS"
  | meanPos => "MEANPOS"
  | meanNeg => "MEANNEG"
  | median => "MEDIAN"
  | rms => "RMS"
  | var => "VAR"
  | sd => "SD"
  | sumPos => "SUMPOS"
  | sumNeg => "SUMNEG"
  | minAt => "MINAT"
  | maxAt => "MAXAT"
  | maxAbsAt => "MAXABSAT"

def isAvailable : Attribute → Bool
  | minAt | maxAt | maxAbsAt => false
  | _ => true

def named? (text : String) : Option Attribute :=
  all.find? fun a => a.name == upperCase text

end Attribute
end Seismic
