import Seismic.Trace.Segment
import Seismic.Trace.Spline

/-!
# Resampling

A raw segment is resampled by a spline through its samples, evaluated at the positions of a
resampled segment.  One spline serves many segments; what it was fitted to before has no
influence.
-/

namespace Seismic
namespace Spline

variable {α σ : Type} [Scalar α] [Sampled σ α]

/-- The values of a fitted spline at the positions of a segment. -/
def evalAll (s : Spline α) (dst : ResampledSegment α) : Result α (ResampledSegment α) := do
  let values ← (← dst.positions).mapM s.eval
  return { dst with values }

/-- Fits a spline to a raw segment and evaluates it over a resampled one.  The spline comes
back for the next use. -/
def resample (s : Spline α) (src : RawSegment α σ) (dst : ResampledSegment α) :
    Result α (ResampledSegment α) × Spline α :=
  match src.positions with
  | .error f => (.error f, s)
  | .ok x =>
    match s.fit x (src.values.map Sampled.widen) with
    | (.error f, s) => (.error f, s)
    | (.ok _, s) => (s.evalAll dst, s)

end Spline

/-- Resampling with a new spline. -/
def resample {α σ : Type} [Scalar α] [Sampled σ α] (src : RawSegment α σ)
    (dst : ResampledSegment α) : Result α (ResampledSegment α) :=
  (Spline.resample {} src dst).1

end Seismic
