import Seismic.Shape
import Seismic.Subvolume.Basic
import Seismic.Volume.Box

/-!
# Volumes

A survey together with a sample at every index, ordered by inline, then crossline, then
sample.  Samples are read a box at a time.
-/

namespace Seismic

structure Volume (α σ : Type) where
  survey : Survey α
  values : Array σ
  values_size : values.size = survey.shape.count

namespace Volume

variable {α σ : Type}

/-- A volume from its samples, stated to have a certain shape. -/
def ofArray (survey : Survey α) (values : Array σ) (shape : Extent) :
    Result α (Volume α σ) :=
  if !Shape.isAddressable [shape.inline, shape.crossline, shape.sample] then
    .error .shapeOverflow
  else if few : values.size < shape.count then .error .tooFewValues
  else if many : shape.count < values.size then .error .tooManyValues
  else if h : shape = survey.shape then .ok ⟨survey, values, by rw [← h]; omega⟩
  else .error (.wrongShape shape survey.shape)

/-- A volume whose samples are given by a function of inline, crossline and sample index. -/
def ofFn (survey : Survey α) (f : Nat → Nat → Nat → σ) : Result α (Volume α σ) :=
  let shape := survey.shape
  if Shape.isAddressable [shape.inline, shape.crossline, shape.sample] &&
      Shape.fitsMemory 4 shape.count then
    .ok
      { survey
        values := Array.ofFn fun t : Fin shape.count =>
          f (t / (shape.crossline * shape.sample)) (t / shape.sample % shape.crossline)
            (t % shape.sample)
        values_size := by simp [shape] }
  else .error (.fault .capacity)

def shape (v : Volume α σ) : Extent := v.survey.shape

def traceStart (v : Volume α σ) (inline crossline : Nat) : Nat :=
  (inline * v.shape.crossline + crossline) * v.shape.sample

/-- The sample at an index, which has to be one of the volume. -/
def sampleAt (v : Volume α σ) (index : Extent) : Result α σ :=
  if index.inline < v.shape.inline ∧ index.crossline < v.shape.crossline ∧
      index.sample < v.shape.sample then
    match v.values[v.traceStart index.inline index.crossline + index.sample]? with
    | some s => .ok s
    | none => .error (.fault .pastEnd)
  else .error (.fault .pastEnd)

def trace (v : Volume α σ) (inline crossline : Nat) : Result α (Array σ) :=
  if inline < v.shape.inline ∧ crossline < v.shape.crossline then
    let start := v.traceStart inline crossline
    .ok (v.values.extract start (start + v.shape.sample))
  else .error (.fault .pastEnd)

def boxBytes (b : Box) : Result α Nat := do mulCounts (← b.count) 4

/-- Reads the samples of a box into a buffer that holds exactly as many. -/
def read (v : Volume α σ) (buffer : Array σ) (b : Box) : Result α (Array σ) := do
  if !b.fits v.shape then throw (.boxOutside b.lower b.upper v.shape)
  let count ← b.count
  if buffer.size ≠ count then throw (.boxBuffer buffer.size count)
  return overwrite buffer 0 (← b.indices.mapM v.sampleAt)

/-- Stores the samples at some indices in a buffer, from place `p` on, until the indices or the
places run out or a sample is not found. -/
def storeSamples (v : Volume α σ) : List Extent → Nat → Array σ → Result α Unit × Array σ
  | [], _, buffer => (.ok (), buffer)
  | e :: es, p, buffer =>
    if p < buffer.size then
      match v.sampleAt e with
      | .error failure => (.error failure, buffer)
      | .ok s => v.storeSamples es (p + 1) (buffer.setIfInBounds p s)
    else (.ok (), buffer)

/-- Reads a box in place.  Beside the outcome there is the buffer as it was left. -/
def readInto (v : Volume α σ) (b : Box) (buffer : Array σ) : Result α Unit × Array σ :=
  if b.fits v.shape then
    match (b.count : Result α Nat) with
    | .error failure => (.error failure, buffer)
    | .ok count =>
      if buffer.size = count then v.storeSamples b.indices 0 buffer
      else (.error (.boxBuffer buffer.size count), buffer)
  else (.error (.boxOutside b.lower b.upper v.shape), buffer)

end Volume
end Seismic
