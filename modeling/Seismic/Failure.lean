import Seismic.Attribute.Basic
import Seismic.Decimal.Text

/-!
# Failures

Every way in which an operation can refuse its arguments.  A failure is a cause, with the
values that a message about it names; `Failure.message` is its wording and
`Failure.category` says which party has to act on it.

A `Fault` is a failure of the machine rather than of the request: a count or sample number
outside 64 bits, or an index past the end of a sequence.  It has no message.
-/

namespace Seismic

inductive Category where
  | nullPointer | badRequest | outOfRange | runtime | io | serialization
  deriving DecidableEq, Repr

/-- Which party has to act: the holder of a handle, the author of the request, or whoever
runs the environment. -/
inductive Responsibility where
  | nullPointer | badRequest | runtime
  deriving DecidableEq, Repr

def Category.responsibility : Category → Responsibility
  | nullPointer => .nullPointer
  | badRequest | outOfRange | serialization => .badRequest
  | runtime | io => .runtime

inductive Fault where
  /-- A count or sample number outside the range of its 64-bit type. -/
  | overflow
  /-- An index past the end of a sequence. -/
  | pastEnd
  /-- A sequence too long to be addressed. -/
  | capacity
  deriving DecidableEq, Repr

/-- Three counts, one for each axis of a volume. -/
structure Extent where
  inline : Nat
  crossline : Nat
  sample : Nat
  deriving DecidableEq, Repr

/-- Causes of failure in computations over scalars `α`.  Samples are named by their
values. -/
inductive Failure (α : Type) where
  /-- A failure stated by another party, such as a store of samples. -/
  | reported (category : Category) (text : String)
  | fault (fault : Fault)
  | unreadableText
  | brokenSample
  | unknownDirection (text : String)
  | unknownCoordinateSystem (text : String)
  | unknownInterpolation (text : String)
  | unknownAttribute (text : String)
  | unavailableAttribute (kind : Attribute)
  | noAttributes
  | badStepsize (stepsize : α)
  | badPartitionSize
  | offAxis (position : α) (axis : String) (nsamples : Nat)
  | unknownLine (line first last step : α)
  | unknownIndex (line : α) (last : Nat)
  | noSuchAxis (dimension : Nat)
  | wrongUnit (direction : Direction) (unit : String)
  | notInvertible
  | parallelSpacing
  | offGrid (row col nrows ncols : Nat)
  | pastGrid (index size : Nat)
  | offSurface (row col nrows ncols : Nat)
  | surfaceCount (count expected nrows ncols : Nat)
  | shapeOverflow
  | tooFewValues
  | tooManyValues
  | wrongShape (actual expected : Extent)
  | alignedPlane
  | surfacesIntersect (row col : Nat)
  | surfaceSizes
  | surfacePlanes
  | unordered (row col : Nat) (top reference bottom : α)
  | verticalBounds (row col : Nat) (top bottom topSample bottomSample first last : α)
  | nodeCount (positions values : Nat)
  | tooFewNodes (count : Nat)
  | unsortedNodes
  | nothingFitted
  | outsideNodes (position first last : α)
  | invalidBox (lower upper : Extent)
  | boxOutside (lower upper shape : Extent)
  | boxBuffer (held needed : Nat)
  | traceBuffer (held traces needed : Nat)
  | offVolume (x y : α)
  | unsupportedInterpolation (method : Interpolation)
  | pointOutside (x y : α) (dimension : Nat)
  | traceCount
  | pastCells (index count : Nat)
  | outsidePartition (index lower upper : Nat)
  | aboveFirstSample (position first : α)
  | outsideBuffer (kind : Attribute) (index lower upper bytes : Nat)
  | cellRange (lower upper count : Nat)
  | outputCount (attributes outputs : Nat)
  | outputLength (held expected : Nat)
  | negativeWindow (above below : α)

namespace Failure

/-- The category of a failure; a fault has none. -/
def category? {α : Type} : Failure α → Option Category
  | reported category _ => some category
  | fault _ => none
  | unreadableText => some .serialization
  | offAxis .. | offGrid .. | pastGrid .. | offSurface .. | boxOutside .. | offVolume ..
  | pastCells .. | outsidePartition .. | aboveFirstSample .. | outsideBuffer .. =>
    some .outOfRange
  | notInvertible | unordered .. | nodeCount .. | tooFewNodes .. | unsortedNodes
  | nothingFitted | outsideNodes .. | traceCount => some .runtime
  | _ => some .badRequest

private def triple (e : Extent) : String :=
  s!"[{e.inline}, {e.crossline}, {e.sample}]"

/-- A sample in a message has the digits that identify it among samples. -/
private def sampleText (x : Float) : String := (Single.ofDouble x).text

/-- The wording of a failure. -/
def message : Failure Float → String
  | reported .nullPointer text => s!"Null pointer: {text}"
  | reported .io text => s!"IO error: {text}"
  | reported .serialization text => s!"Serialization error: {text}"
  | reported _ text => text
  | fault _ => ""
  | unreadableText => ""
  | brokenSample => "Byte length not aligned with sample size"
  | unknownDirection text => s!"Invalid direction: {text}"
  | unknownCoordinateSystem text => s!"Invalid coordinate system: {text}"
  | unknownInterpolation text => s!"Invalid interpolation method: {text}"
  | unknownAttribute text => s!"Invalid attribute: {text}"
  | unavailableAttribute a => s!"Attribute not implemented: {a.name}"
  | noAttributes => "No attributes requested"
  | badStepsize x => s!"Stepsize must be a positive number, got {Double.text x}"
  | badPartitionSize => "Partition size must be positive"
  | offAxis x axis n =>
    s!"Index out of range: {Double.text x} on axis {axis} with {n} samples"
  | unknownLine line first last step =>
    s!"Invalid lineno: {Double.text line}, valid range: " ++
      s!"[{Double.text first}:{Double.text last}:{Double.text step}]"
  | unknownIndex line last =>
    s!"Invalid lineno: {Double.text line}, valid range: [0:{last}:1]"
  | noSuchAxis d => s!"Invalid dimension: {d}"
  | wrongUnit direction unit =>
    s!"Unable to use {direction.label} on cube with depth units: {unit}"
  | notInvertible => "Affine transformation is not invertible"
  | parallelSpacing => "Inline and crossline spacing vectors must not be parallel"
  | offGrid row col nrows ncols =>
    s!"Index out of range: row {row} col {col} on a {nrows}x{ncols} grid"
  | pastGrid index size => s!"Index out of range: {index} on a grid of {size} cells"
  | offSurface row col nrows ncols =>
    s!"Index out of range: row {row} col {col} on a {nrows}x{ncols} surface"
  | surfaceCount count expected nrows ncols =>
    s!"Surface data has {count} values, expected {expected} ({nrows} rows x {ncols} cols)"
  | shapeOverflow => "Invalid shape: ShapeError/Overflow: arithmetic overflow"
  | tooFewValues => "Invalid shape: ShapeError/OutOfBounds: out of bounds indexing"
  | tooManyValues => "Invalid shape: ShapeError/IncompatibleShape: incompatible shapes"
  | wrongShape actual expected =>
    s!"Data shape {triple actual} does not match metadata shape {triple expected}"
  | alignedPlane => "Expected aligned surface to have the same plane as the primary surface"
  | surfacesIntersect row col => s!"Surfaces intersect at primary surface point ({row}, {col})"
  | surfaceSizes => "Expected surfaces to have the same size"
  | surfacePlanes => "Expected surfaces to have the same plane"
  | unordered row col top reference bottom =>
    s!"Planes are not ordered as top <= reference <= bottom at row: {row}, col: {col} " ++
      s!"(top: {sampleText top}, reference: {sampleText reference}, " ++
      s!"bottom: {sampleText bottom})"
  | verticalBounds row col top bottom topSample bottomSample first last =>
    s!"Vertical window is out of vertical bounds at row: {row}, col: {col}. " ++
      s!"Request: [{sampleText top}, {sampleText bottom}] " ++
      s!"(with margin [{Double.text topSample}, {Double.text bottomSample}]). " ++
      s!"Seismic bounds: [{Double.text first}, {Double.text last}]"
  | nodeCount positions values =>
    s!"Interpolation requires as many positions as values, got {positions} and {values}"
  | tooFewNodes count => s!"Interpolation requires at least 2 samples, got {count}"
  | unsortedNodes => "Interpolation positions must be strictly increasing"
  | nothingFitted => "Interpolation requires at least 2 samples, got none fitted"
  | outsideNodes x first last =>
    s!"Requested position {Double.text x} is outside of interpolation range " ++
      s!"[{Double.text first}, {Double.text last}]"
  | invalidBox lower upper =>
    s!"Invalid subcube: lower bound {triple lower} must be below upper bound {triple upper}"
  | boxOutside lower upper shape =>
    s!"Index out of range: subcube {triple lower}..{triple upper} " ++
      s!"outside volume of shape {triple shape}"
  | boxBuffer held needed => s!"Buffer holds {held} values, subcube has {needed}"
  | traceBuffer held traces needed =>
    s!"Buffer holds {held} values, {traces} traces need {needed}"
  | offVolume x y =>
    s!"Index out of range: trace position ({Double.text x}, {Double.text y})"
  | unsupportedInterpolation method =>
    s!"Interpolation method {method.label} is not supported by the in-memory data source"
  | pointOutside x y dimension =>
    s!"Coordinate ({Double.text x}, {Double.text y}) is out of boundaries " ++
      s!"in dimension {dimension}."
  | traceCount => "Fence trace count mismatch"
  | pastCells index count => s!"Index out of range: cell {index} of {count}"
  | outsidePartition index lower upper =>
    s!"Index out of range: cell {index} outside partition [{lower}, {upper})"
  | aboveFirstSample position first =>
    s!"Index out of range: sample position {Double.text position} " ++
      s!"above the first sample {Double.text first}"
  | outsideBuffer a index lower upper bytes =>
    s!"Attempting to write outside of buffer: {a.name} attribute for cell {index}, " ++
      s!"buffer covers cells [{lower}, {upper}) ({bytes} bytes)"
  | cellRange lower upper count =>
    s!"Invalid cell range [{lower}, {upper}) for subvolume with {count} cells"
  | outputCount attributes outputs =>
    s!"Expected one output buffer per attribute, got {attributes} attributes " ++
      s!"and {outputs} buffers"
  | outputLength held expected => s!"Output buffer holds {held} values, expected {expected}"
  | negativeWindow above below =>
    s!"Above and below must be non-negative, got above: {sampleText above}, " ++
      s!"below: {sampleText below}"

end Failure

/-- A computation over scalars `α` that may fail. -/
abbrev Result (α β : Type) := Except (Failure α) β

/-- The sum of two counts, which has to fit 64 bits. -/
def addCounts {α : Type} (m n : Nat) : Result α Nat :=
  if m + n < countBound then .ok (m + n) else .error (.fault .overflow)

def mulCounts {α : Type} (m n : Nat) : Result α Nat :=
  if m * n < countBound then .ok (m * n) else .error (.fault .overflow)

/-- A sample number, which has to fit a signed 64-bit integer. -/
def sampleNumber {α : Type} (n : Int) : Result α Int :=
  if -(signedBound : Int) ≤ n ∧ n < signedBound then .ok n else .error (.fault .overflow)

end Seismic
