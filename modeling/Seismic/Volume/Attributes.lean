import Seismic.Horizon.Align
import Seismic.Subvolume.Reduce
import Seismic.Volume.Fetch

/-!
# Attributes along horizons

The attributes of the window around a horizon, or between two horizons, one sample per cell
of the horizon.  Cells without data get its fill value.
-/

namespace Seismic

/-- The horizon moved downwards.  Cells without a depth stay without one. -/
def Horizon.shifted {α σ : Type} [Scalar α] [Sampled σ α] (h : Horizon α σ) (distance : σ) :
    Horizon α σ :=
  h.map fun value => if h.isFill value then value else Sampled.add value distance

namespace Volume

variable {α σ : Type} [Scalar α] [Sampled σ α] [Root α] [Limits α]

/-- The attributes of the window between two horizons around a third. -/
def attributesBetween (v : Volume α σ) (reference top bottom : Horizon α σ)
    (options : Options α) : Result α (List (Array σ)) := do
  options.validate
  let spacing ← ResampledSpacing.ofStepsize (options.stepsizeFor v.survey)
  let subvolume ← Subvolume.between v.survey reference top bottom
  let (done, subvolume) := v.fetch subvolume options.partitionSize
  done
  let blank := Array.replicate subvolume.layout.cells Sampled.zero
  subvolume.reduce spacing options.attributes (options.attributes.map fun _ => blank)
    options.partitionSize

/-- The attributes of the window that reaches from `above` a horizon to `below` it. -/
def along (v : Volume α σ) (reference : Horizon α σ) (above below : σ) (options : Options α) :
    Result α (List (Array σ)) := do
  let up := Sampled.widen above
  let down := Sampled.widen below
  if ¬ (0 ≤ up ∧ 0 ≤ down) then throw (.negativeWindow up down)
  v.attributesBetween reference (reference.shifted (Sampled.neg above))
    (reference.shifted below) options

/-- The attributes of the window between two horizons that do not cross.  The first one is
the reference, and the other is brought onto its grid. -/
def between (v : Volume α σ) (primary secondary : Horizon α σ) (options : Options α) :
    Result α (List (Array σ)) := do
  let (aligned, above) ← primary.align secondary (primary.map fun _ => primary.fill)
  if above then v.attributesBetween primary primary aligned options
  else v.attributesBetween primary aligned primary options

end Volume
end Seismic
