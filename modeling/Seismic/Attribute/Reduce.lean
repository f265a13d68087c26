import Seismic.Trace.Segment

/-!
# Reducing a column to an attribute

Sums run from the top of the column to the bottom.  A mean over no values is zero.
-/

namespace Seismic
namespace Column

variable {α : Type} [Scalar α]

def sum (xs : List α) : α := xs.foldl (· + ·) 0

def mean (xs : List α) : α :=
  if xs.isEmpty then 0 else sum xs / Scalar.ofNat xs.length

def positive (xs : List α) : List α := xs.filter fun x => decide (0 < x)

def negative (xs : List α) : List α := xs.filter fun x => decide (x < 0)

def square (x : α) : α := x * x

/-- The mean of the squared distances from the mean. -/
def variance (xs : List α) : α :=
  let mu := mean xs
  mean (xs.map fun x => square (x - mu))

def power (xs : List α) : α := mean (xs.map square)

/-- The greatest absolute value, zero if there is none. -/
def greatestAbs (xs : List α) : α := xs.foldl (fun m x => Scalar.max m (Scalar.abs x)) 0

variable [Limits α]

def least (xs : List α) : α := xs.foldl Scalar.min Limits.posInf

def greatest (xs : List α) : α := xs.foldl Scalar.max Limits.negInf

/-- The middle value in the total order, or half the sum of the two middle ones. -/
def median (xs : List α) : α :=
  let sorted := xs.mergeSort Scalar.totalLe
  let middle := xs.length / 2
  match sorted[middle]? with
  | none => 0
  | some upper =>
    if xs.length % 2 = 1 then upper
    else (greatest (sorted.take middle) + upper) / 2

end Column

namespace Attribute

variable {α : Type} [Scalar α] [Root α] [Limits α]

/-- The value of an attribute over a segment, before it is rounded to a sample.  The value
at the reference is undefined if the segment does not reach it. -/
def reduce (a : Attribute) (s : ResampledSegment α) : Result α α :=
  let xs := s.values.toList
  match a with
  | value => return xs.getD (← s.referenceIndex) Limits.undefined
  | min => return Column.least xs
  | max => return Column.greatest xs
  | maxAbs => return Column.greatestAbs xs
  | mean => return Column.mean xs
  | meanAbs => return Column.mean (xs.map Scalar.abs)
  | meanPos => return Column.mean (Column.positive xs)
  | meanNeg => return Column.mean (Column.negative xs)
  | median => return Column.median xs
  | rms => return Root.sqrt (Column.power xs)
  | var => return Column.variance xs
  | sd => return Root.sqrt (Column.variance xs)
  | sumPos => return Column.sum (Column.positive xs)
  | sumNeg => return Column.sum (Column.negative xs)
  | minAt | maxAt | maxAbsAt => throw (.unavailableAttribute a)

end Attribute
end Seismic
