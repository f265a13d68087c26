import Seismic.Sample.Bytes
import Seismic.Volume.Trace

/-!
# Fences

A fence is a sequence of whole traces at points of a path.  Points are given in any of the
coordinate systems of the survey.  Where there is no trace, a fill value takes the place of
every sample, or the request fails if it names none.
-/

namespace Seismic

/-- The inline and crossline index of a point given in a coordinate system. -/
def Transformer.indexOf {α : Type} [Scalar α] (t : Transformer α) (point : Point α) :
    CoordinateSystem → Point α
  | .index => point
  | .annotated => t.indexOfAnnotation point
  | .world => t.indexOfWorld point

namespace Volume

variable {α σ : Type} [Scalar α] [Sampled σ α]

/-- The position of a point if a trace is there.  Other points are accepted only if they can
be filled. -/
def locate (v : Volume α σ) (system : CoordinateSystem) (canFill : Bool) (point : Point α) :
    Result α (Option (Point α)) :=
  let position := v.survey.transformer.indexOf point system
  if v.survey.holdsTrace position then .ok (some position)
  else if canFill then .ok none
  else
    let dimension := if v.survey.iline.holdsIndex position.x then 1 else 0
    .error (.pointOutside point.x point.y dimension)

/-- Puts traces in the places where there is one, and fill values elsewhere. -/
def join (samples : Nat) (fill : σ) : List (Option (Point α)) → List σ → Result α (List σ)
  | [], _ => .ok []
  | some _ :: rest, traces =>
    if traces.isEmpty then .error .traceCount
    else return traces.take samples ++ (← join samples fill rest (traces.drop samples))
  | none :: rest, traces =>
    return List.replicate samples fill ++ (← join samples fill rest traces)

/-- The traces at the points of a path, one after the other. -/
def fence (v : Volume α σ) (system : CoordinateSystem) (points : List (Point α))
    (method : Interpolation) (fill? : Option σ) : Result α (Array σ) := do
  let places ← points.mapM (v.locate system fill?.isSome)
  let positions := places.filterMap id
  let blank := Array.replicate ((← v.tracesBytes positions.length) / 4) Sampled.zero
  let traces ← if positions.isEmpty then pure blank else v.readTraces blank positions method
  let needed ← mulCounts points.length v.shape.sample
  if !Shape.fitsMemory 4 needed then throw (.fault .capacity)
  return (← join v.shape.sample (fill?.getD Sampled.zero) places traces.toList).toArray

end Volume
end Seismic
