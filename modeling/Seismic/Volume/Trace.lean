import Seismic.Volume.Basic

/-!
# Reading traces

A trace is read at a fractional inline and crossline index, as the nearest recorded trace or
as the bilinear mean of the traces around the position.  Within half a step beyond the
outermost traces the outermost ones count.
-/

namespace Seismic

/-- The indices on both sides of a position, and the weight of the upper one. -/
structure Bracket (α : Type) where
  lower : Nat
  upper : Nat
  weight : α

/-- The bracket of a position among `n` indices.  Positions beyond the ends are moved to the
ends. -/
def bracket {α : Type} [Scalar α] (position : α) (n : Nat) : Bracket α :=
  let last := n - 1
  let clamped := Scalar.clamp position 0 (Scalar.ofNat last)
  let lower := Scalar.toCount (Scalar.floor clamped)
  ⟨lower, Min.min (lower + 1) last, clamped - Scalar.ofNat lower⟩

/-- The four corners of a pair of brackets with their weights. -/
def corners {α : Type} [Scalar α] (i j : Bracket α) : List (Nat × Nat × α) :=
  [(i.lower, j.lower, (1 - i.weight) * (1 - j.weight)),
    (i.upper, j.lower, i.weight * (1 - j.weight)),
    (i.lower, j.upper, (1 - i.weight) * j.weight),
    (i.upper, j.upper, i.weight * j.weight)]

namespace Volume

variable {α σ : Type} [Scalar α] [Sampled σ α]

/-- A sum with the weighted samples of one more trace.  A trace without weight is not
read. -/
def accumulate (v : Volume α σ) (sum : Array σ) (corner : Nat × Nat × α) :
    Result α (Array σ) := do
  let (i, j, weight) := corner
  if weight == 0 then return sum
  return sum.zipWith (fun s t => Sampled.add s (Sampled.mul (Sampled.narrow weight) t))
    (← v.trace i j)

def traceAt (v : Volume α σ) (position : Point α) (method : Interpolation) :
    Result α (Array σ) := do
  let iline := v.survey.iline
  let xline := v.survey.xline
  match method with
  | .nearest => v.trace (← iline.nearestSample position.x) (← xline.nearestSample position.y)
  | .linear =>
    if !v.survey.holdsTrace position then throw (.offVolume position.x position.y)
    (corners (bracket position.x iline.nsamples) (bracket position.y xline.nsamples)).foldlM
      v.accumulate (Array.replicate v.shape.sample Sampled.zero)
  | other => throw (.unsupportedInterpolation other)

def tracesBytes (v : Volume α σ) (traces : Nat) : Result α Nat := do
  mulCounts (← mulCounts traces v.shape.sample) 4

/-- Reads the traces at several positions, one after the other, into a buffer that holds
exactly as many samples.  Traces without samples are not looked up. -/
def readTraces (v : Volume α σ) (buffer : Array σ) (positions : List (Point α))
    (method : Interpolation) : Result α (Array σ) := do
  let needed ← mulCounts positions.length v.shape.sample
  if buffer.size ≠ needed then throw (.traceBuffer buffer.size positions.length needed)
  if v.shape.sample = 0 then return buffer
  let traces ← positions.mapM fun position => v.traceAt position method
  return overwrite buffer 0 (traces.flatMap Array.toList)

end Volume
end Seismic
