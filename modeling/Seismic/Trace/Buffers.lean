import Seismic.Trace.Resample

/-!
# Resampling in place

A worker keeps its memory from one cell to the next: the positions, values, slopes and derivatives
of a spline, and the samples of a resampled segment.  Each of them is emptied and filled again, or
written entry by entry.  Here resampling is written with that memory.
-/

namespace Seismic

variable {α σ : Type} [Scalar α]

/-! ## One buffer -/

/-- A buffer without its entries. -/
def emptied (xs : Array α) : Array α := xs.take 0

/-- A buffer brought to a size: entries are cut off at the end, or zeros are added there. -/
def resized (xs : Array α) (count : Nat) : Array α :=
  xs.take count ++ Array.replicate (count - xs.size) 0

/-- Computes entries one after the other and stores each in its place, up to the first that cannot
be computed. -/
def storeEach (f : Nat → Result α α) : List Nat → Array α → Result α Unit × Array α
  | [], xs => (.ok (), xs)
  | k :: ks, xs =>
    match f k with
    | .error e => (.error e, xs)
    | .ok v => storeEach f ks (xs.setIfInBounds k v)

/-! ## The four buffers of a spline -/

namespace Spline

/-- What a spline keeps.  Beside the nodes and the derivatives these are the slopes, two more than
intervals on each side, which are read only while a fit goes on. -/
structure Buffers (α : Type) where
  positions : Array α := #[]
  values : Array α := #[]
  slopes : Array α := #[]
  derivatives : Array α := #[]

namespace Buffers

/-- The spline that is evaluated. -/
def spline (b : Buffers α) : Spline α := ⟨b.positions, b.values, b.derivatives⟩

/-- Stores the slopes of the intervals from the third place on. -/
def storeSecants (x y m : Array α) : Array α :=
  (List.range (x.size - 1)).foldl (fun m k => m.setIfInBounds (k + 2) (secant x y k)) m

/-- Stores the slope before and the slope after those of the intervals, and then one more at each
end, out of entries that have been stored. -/
def storeEnds (n : Nat) (m : Array α) : Array α :=
  let first := m.getD 2 0
  let second := if 2 < n then m.getD 3 0 else first
  let m := m.setIfInBounds 1 (extend first second)
  let m := m.setIfInBounds 0 (extend (m.getD 1 0) first)
  let last := m.getD n 0
  let beforeLast := if 2 < n then m.getD (n - 1) 0 else last
  let m := m.setIfInBounds (n + 1) (extend last beforeLast)
  m.setIfInBounds (n + 2) (extend (m.getD (n + 1) 0) last)

/-- The derivatives at `n` nodes, read off the slopes. -/
def blends (n : Nat) (m : Array α) : Array α :=
  Array.ofFn fun i : Fin n =>
    blend (m.getD i 0) (m.getD (i + 1) 0) (m.getD (i + 2) 0) (m.getD (i + 3) 0)

/-- Fits in place.  The nodes are taken before they are looked at. -/
def fit (b : Buffers α) (x y : Array α) : Result α Unit × Buffers α :=
  let taken : Buffers α :=
    { b with positions := emptied b.positions ++ x, values := emptied b.values ++ y }
  let n := taken.positions.size
  if n ≠ taken.values.size then (.error (.nodeCount n taken.values.size), taken)
  else if n < 2 then (.error (.tooFewNodes n), taken)
  else if !increasing taken.positions.toList then (.error .unsortedNodes, taken)
  else
    let slopes := storeEnds n
      (storeSecants taken.positions taken.values (resized (emptied taken.slopes) (n + 3)))
    (.ok (), { taken with slopes, derivatives := emptied taken.derivatives ++ blends n slopes })

variable [Sampled σ α]

/-- Fits the buffers to a raw segment and stores the samples of a resampled one, from its top to its
bottom.  A failure on the way leaves the samples above it stored. -/
def resample (b : Buffers α) (src : RawSegment α σ) (dst : ResampledSegment α) :
    Result α Unit × ResampledSegment α × Buffers α :=
  match src.positions with
  | .error e => (.error e, dst, b)
  | .ok x =>
    match b.fit x (src.values.map Sampled.widen) with
    | (.error e, b) => (.error e, dst, b)
    | (.ok _, b) =>
      match dst.topSample with
      | .error e => (.error e, dst, b)
      | .ok top =>
        let stored := storeEach
          (fun k => b.spline.eval (top + Scalar.ofNat k * dst.spacing.spacing.stepsize))
          (List.range dst.values.size) dst.values
        (stored.1, { dst with values := stored.2 }, b)

end Buffers
end Spline

/-! ## The samples of a segment -/

/-- Gives a segment other bounds in place. -/
def ResampledSegment.resetInPlace (s : ResampledSegment α) (bounds : Bounds α) :
    Result α (ResampledSegment α) := do
  let count ← s.spacing.count bounds.reference bounds.top bounds.bottom
  if !Shape.fitsMemory 8 count then throw (.fault .capacity)
  return { s with bounds, values := resized (emptied s.values) count }

end Seismic
