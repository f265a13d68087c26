import Seismic.Proofs.Double.Arithmetic
import Seismic.Proofs.Exact.Scalar
import Seismic.Proofs.Interval

/-!
# Nodes in order

The nodes of a spline are compared in floating point, where an undefined value is comparable with
nothing, as well as in exact arithmetic.  A few laws of the comparisons hold in both, and they are
enough for the search: it finds the interval that a position lies in, and the last interval for the
last node.
-/

namespace Seismic

/-- Comparisons can be chained, and what is below a number is not above it. -/
class OrderLaws (α : Type) [Scalar α] : Prop where
  lt_trans {x y z : α} : x < y → y < z → x < z
  le_trans {x y z : α} : x ≤ y → y ≤ z → x ≤ z
  le_of_lt {x y : α} : x < y → x ≤ y
  not_le_of_lt {x y : α} : x < y → ¬ y ≤ x

instance : OrderLaws Float where
  lt_trans h h' := by
    rw [Double.lt_iff] at *
    exact ⟨h.1, h'.2.1, h.2.2.trans h'.2.2⟩
  le_trans h h' := Double.le_trans h h'
  le_of_lt h := by
    rw [Double.lt_iff] at h
    exact Double.le_iff.mpr ⟨h.1, h.2.1, h.2.2.le⟩
  not_le_of_lt h h' := (Double.lt_iff.mp h).2.2.not_ge (Double.le_iff.mp h').2.2

instance {K : Type} [Field K] [LinearOrder K] [FloorRing K] : OrderLaws (Exact K) where
  lt_trans h h' := h.trans h'
  le_trans h h' := h.trans h'
  le_of_lt h := h.le
  not_le_of_lt h := not_le_of_gt h

namespace Spline

variable {α : Type} [Scalar α] {x y : Array α} {p : α} {i j k : Nat}

theorem getD_of_getElem? {a : α} (h : x[i]? = some a) : i < x.size ∧ x.getD i 0 = a := by
  obtain ⟨hi, -⟩ := Array.getElem?_eq_some_iff.mp h
  exact ⟨hi, by rw [Array.getD_eq_getD_getElem?, h, Option.getD_some]⟩

theorem piece_eq_cubic {a b u u' : α} (ha : x[k]? = some a) (hb : x[k + 1]? = some b)
    (hu : y[k]? = some u) (hu' : y[k + 1]? = some u') : piece x y k p =
      cubic (b - a) ((p - a) / (b - a)) u u' (derivative x y k) (derivative x y (k + 1)) := by
  rw [piece, (getD_of_getElem? ha).2, (getD_of_getElem? hb).2, (getD_of_getElem? hu).2,
    (getD_of_getElem? hu').2]

theorem getElem?_eq_getD (hi : i < x.size) : x[i]? = some (x.getD i 0) := by
  rw [Array.getD_eq_getD_getElem?, Array.getElem?_eq_getElem hi, Option.getD_some]

theorem getD_map {β : Type} [Scalar β] (f : α → β) (hi : i < x.size) :
    (x.map f).getD i 0 = f (x.getD i 0) := by
  rw [Array.getD_eq_getD_getElem?, Array.getElem?_map, getElem?_eq_getD hi, Option.map_some,
    Option.getD_some]

theorem getD_reverse (h : i + j + 1 = x.size) : x.reverse.getD i 0 = x.getD j 0 := by
  rw [Array.getD_eq_getD_getElem?, Array.getD_eq_getD_getElem?,
    Array.getElem?_reverse (by omega), show x.size - 1 - i = j by omega]

theorem lt_of_increasing {xs : List α} (h : increasing xs = true) {a b : α}
    (ha : xs[i]? = some a) (hb : xs[i + 1]? = some b) : a < b := by
  induction xs generalizing i with
  | nil => cases ha
  | cons u xs ih =>
    cases xs with
    | nil => cases hb
    | cons v rest =>
      rw [increasing, Bool.and_eq_true, decide_eq_true_iff] at h
      cases i with
      | zero =>
        cases ha
        cases hb
        exact h.1
      | succ i => exact ih h.2 ha hb

theorem node_lt_succ (h : increasing x.toList = true) (hk : k + 1 < x.size) :
    x.getD k 0 < x.getD (k + 1) 0 :=
  lt_of_increasing h (Array.getElem?_toList.trans (getElem?_eq_getD (Nat.lt_of_succ_lt hk)))
    (Array.getElem?_toList.trans (getElem?_eq_getD hk))

theorem increasing_of_lt_succ
    (h : ∀ k, k + 1 < x.size → x.getD k 0 < x.getD (k + 1) 0) : increasing x.toList = true := by
  refine increasing_of_getElem? fun k a b ha hb => ?_
  obtain ⟨-, rfl⟩ := getD_of_getElem? (Array.getElem?_toList.symm.trans ha)
  obtain ⟨hk, rfl⟩ := getD_of_getElem? (Array.getElem?_toList.symm.trans hb)
  exact h k hk

variable [OrderLaws α]

theorem node_lt (h : increasing x.toList = true) (hij : i < j) (hj : j < x.size) :
    x.getD i 0 < x.getD j 0 := by
  induction j, hij using Nat.le_induction with
  | base => exact node_lt_succ h hj
  | succ k _ ih => exact OrderLaws.lt_trans (ih (Nat.lt_of_succ_lt hj)) (node_lt_succ h hj)

/-- A position is not before the nodes that come before one at or below it. -/
theorem node_le (h : increasing x.toList = true) (hij : i ≤ j) (hj : j < x.size)
    (hp : x.getD j 0 ≤ p) : x.getD i 0 ≤ p := by
  rcases Nat.lt_or_eq_of_le hij with hlt | rfl
  · exact OrderLaws.le_trans (OrderLaws.le_of_lt (node_lt h hlt hj)) hp
  · exact hp

/-- A position at or below a node is not after the nodes that come after it. -/
theorem le_node (h : increasing x.toList = true) (hij : i ≤ j) (hj : j < x.size)
    (hp : p ≤ x.getD i 0) : p ≤ x.getD j 0 := by
  rcases Nat.lt_or_eq_of_le hij with hlt | rfl
  · exact OrderLaws.le_trans hp (OrderLaws.le_of_lt (node_lt h hlt hj))
  · exact hp

/-- The search finds the interval of a position between two nodes, the first of them included,
and the last interval for any position from its first node on. -/
theorem interval_eq_of_mem (h : increasing x.toList = true) (hk : k + 1 < x.size)
    (h₁ : x.getD k 0 ≤ p) (h₂ : k + 2 = x.size ∨ p < x.getD (k + 1) 0) : interval x p = k := by
  obtain ⟨hlow, hhigh⟩ := interval_spec (by omega) (fun i j hij hj => node_le h hij hj)
    (node_le h (Nat.zero_le k) (Nat.lt_of_succ_lt hk) h₁)
  have hlast := interval_add_one_lt p (by omega : 2 ≤ x.size)
  refine Nat.le_antisymm (Nat.not_lt.mp fun hlt => ?_) (Nat.not_lt.mp fun hlt => ?_)
  · rcases h₂ with h₂ | h₂
    · omega
    · exact OrderLaws.not_le_of_lt h₂ (node_le h hlt (by omega) hlow)
  · rcases hhigh with hend | hbelow
    · omega
    · exact hbelow (node_le h hlt (Nat.lt_of_succ_lt hk) h₁)

end Spline
end Seismic
