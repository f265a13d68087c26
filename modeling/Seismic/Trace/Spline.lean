import Seismic.Failure

/-!
# Modified Akima splines

A piecewise cubic through given nodes.  Its derivative at a node is an average of the slopes
of the two intervals beside the node, each weighted by how much the slopes on the other side
vary, which keeps flat stretches flat.  Beyond the ends the sequence of slopes is continued
by two on each side, linearly from the last two.

A spline is fitted again and again.  A fit that fails has already taken the new nodes, while
the derivatives are those of the last fit that succeeded.
-/

namespace Seismic

structure Spline (α : Type) where
  positions : Array α := #[]
  values : Array α := #[]
  derivatives : Array α := #[]

namespace Spline

variable {α : Type} [Scalar α]

/-- Whether each number is below the next. -/
def increasing : List α → Bool
  | x :: y :: rest => decide (x < y) && increasing (y :: rest)
  | _ => true

/-! ## Derivatives -/

def secant (x y : Array α) (k : Nat) : α :=
  (y.getD (k + 1) 0 - y.getD k 0) / (x.getD (k + 1) 0 - x.getD k 0)

/-- The slope before `first` that continues the step from `second` to `first`. -/
def extend (first second : α) : α := 2 * first - second

/-- The sequence of slopes with two more on each side: slope `k + 2` is that of the interval
after node `k`.  A single interval is continued with its own slope. -/
def slope (x y : Array α) (j : Nat) : α :=
  let n := x.size
  let first := secant x y 0
  let second := if 2 < n then secant x y 1 else first
  let last := secant x y (n - 2)
  let beforeLast := if 2 < n then secant x y (n - 3) else last
  if j = 0 then extend (extend first second) first
  else if j = 1 then extend first second
  else if j ≤ n then secant x y (j - 2)
  else if j = n + 1 then extend last beforeLast
  else extend (extend last beforeLast) last

/-- The weight of the slope on one side, from the two slopes on the other. -/
def weight (far near : α) : α := Scalar.abs (far - near) + Scalar.abs (far + near) / 2

/-- The derivative at a node between the slopes `b` and `c`, with `a` before and `d` after
them.  Where all four vanish there is no average and the derivative is zero. -/
def blend (a b c d : α) : α :=
  let w := weight d c
  let v := weight b a
  let derivative := (w * b + v * c) / (w + v)
  if Scalar.isUndefined derivative then 0 else derivative

def derivative (x y : Array α) (i : Nat) : α :=
  blend (slope x y i) (slope x y (i + 1)) (slope x y (i + 2)) (slope x y (i + 3))

/-- Fits the spline to nodes at increasing positions. -/
def fit (s : Spline α) (x y : Array α) : Result α Unit × Spline α :=
  let taken : Spline α := { s with positions := x, values := y }
  if x.size ≠ y.size then (.error (.nodeCount x.size y.size), taken)
  else if x.size < 2 then (.error (.tooFewNodes x.size), taken)
  else if !increasing x.toList then (.error .unsortedNodes, taken)
  else (.ok (), { taken with derivatives := Array.ofFn fun i : Fin x.size => derivative x y i })

/-! ## Evaluation -/

/-- Halves a range of `size` indices from `base` on until one is left, going on with the
upper half where `holds` is true of its first index. -/
def bisect (holds : Nat → Bool) (size base : Nat) : Nat :=
  if 1 < size then
    let half := size / 2
    bisect holds (size - half) (if holds (base + half) then base + half else base)
  else base
termination_by size

/-- The number of indices below `size` for which `holds` is true, if it is true of an
initial range of them. -/
def countWhile (holds : Nat → Bool) (size : Nat) : Nat :=
  if size = 0 then 0
  else
    let base := bisect holds size 0
    if holds base then base + 1 else base

/-- The node that starts the interval of a position, which has to be one of the first
`n - 1`. -/
def interval (x : Array α) (position : α) : Nat :=
  let upTo := countWhile (fun i => decide (x.getD i 0 ≤ position)) x.size
  Min.min (upTo - 1) (x.size - 2)

/-- The cubic on an interval of length `h` with values `y`, `y'` and derivatives `d`, `d'` at
its ends, at the fraction `t` of its length. -/
def cubic (h t y y' d d' : α) : α :=
  let t2 := t * t
  let t3 := t2 * t
  (2 * t3 - 3 * t2 + 1) * y + (t3 - 2 * t2 + t) * h * d + (-2 * t3 + 3 * t2) * y' +
    (t3 - t2) * h * d'

def element (xs : Array α) (i : Nat) : Result α α :=
  match xs[i]? with
  | some x => .ok x
  | none => .error (.fault .pastEnd)

/-- The value at a position between the first and the last node. -/
def eval (s : Spline α) (position : α) : Result α α := do
  let x := s.positions
  let n := x.size
  if n < 2 then throw .nothingFitted
  let first := x.getD 0 0
  let last := x.getD (n - 1) 0
  if !(decide (first ≤ position) && decide (position ≤ last)) then
    throw (.outsideNodes position first last)
  let k := interval x position
  let h := x.getD (k + 1) 0 - x.getD k 0
  let t := (position - x.getD k 0) / h
  return cubic h t (← element s.values k) (← element s.values (k + 1))
    (← element s.derivatives k) (← element s.derivatives (k + 1))

end Spline
end Seismic
