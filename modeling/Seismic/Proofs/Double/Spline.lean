import Seismic.Binary.Single
import Seismic.Proofs.Double.Integers
import Seismic.Proofs.Nodes
import Seismic.Proofs.Resampled

/-!
# Splines at their nodes

A node is evaluated as the start of its interval, and the last one as the end of the last
interval.  So the fraction of the interval is zero or one, without an error, and the factors of
the values and derivatives in the cubic are integers.  That of the value at the node is one, and
all others are zero.  What is finite vanishes with a factor of zero.
-/

namespace Seismic
namespace Double

open Spline

variable {h t y y' d d' : Float} {n : ℤ}

/-! ## Cubics at their ends -/

/-- The factors of a cubic where the fraction is zero or one. -/
theorem factors (ht : IsInteger t n) (hn : n = 0 ∨ n = 1) :
    IsInteger (Float.ofInt 2 * (t * t * t) - Float.ofInt 3 * (t * t) + Float.ofInt 1) (1 - n) ∧
      IsInteger (t * t * t - Float.ofInt 2 * (t * t) + t) 0 ∧
      IsInteger (-Float.ofInt 2 * (t * t * t) + Float.ofInt 3 * (t * t)) n ∧
      IsInteger (t * t * t - t * t) 0 := by
  have hsmall : ∀ {k : ℤ}, -9 ≤ k ∧ k ≤ 9 → |k| ≤ 2 ^ 53 := fun h =>
    abs_le.mpr ⟨by omega, by omega⟩
  have hsquare : n * n = n := by rcases hn with rfl | rfl <;> rfl
  have h1 : IsInteger (Float.ofInt 1) 1 := isInteger_ofInt (by norm_num)
  have h2 : IsInteger (Float.ofInt 2) 2 := isInteger_ofInt (by norm_num)
  have h3 : IsInteger (Float.ofInt 3) 3 := isInteger_ofInt (by norm_num)
  have ht2 : IsInteger (t * t) n := hsquare ▸ ht.mul ht (hsmall (by omega))
  have ht3 : IsInteger (t * t * t) n := hsquare ▸ ht2.mul ht (hsmall (by omega))
  have h2t2 := h2.mul ht2 (hsmall (by omega))
  have h2t3 := h2.mul ht3 (hsmall (by omega))
  have h3t2 := h3.mul ht2 (hsmall (by omega))
  have hn2t3 := h2.neg.mul ht3 (hsmall (by omega))
  refine ⟨?_, ?_, ?_, ?_⟩
  · have h := (h2t3.sub h3t2 (hsmall (by omega))).add h1 (hsmall (by omega))
    rwa [show 2 * n - 3 * n + 1 = 1 - n by ring] at h
  · have h := (ht3.sub h2t2 (hsmall (by omega))).add ht (hsmall (by omega))
    rwa [show n - 2 * n + n = 0 by ring] at h
  · have h := hn2t3.add h3t2 (hsmall (by omega))
    rwa [show -2 * n + 3 * n = n by ring] at h
  · have h := ht3.sub ht2 (hsmall (by omega))
    rwa [Int.sub_self] at h

theorem cubic_zero (ht : IsInteger t 0) (hh : IsFinite h) (hy : IsFinite y) (hy' : IsFinite y')
    (hd : IsFinite d) (hd' : IsFinite d') : Same (cubic h t y y' d d') y := by
  obtain ⟨hfirst, hd₀, hlast, hd₁⟩ := factors ht (Or.inl rfl)
  exact (((Same.one_mul hfirst hy).add_zero ((hd₀.zero_mul hh).zero_mul hd)).add_zero
    (hlast.zero_mul hy')).add_zero ((hd₁.zero_mul hh).zero_mul hd')

theorem cubic_one (ht : IsInteger t 1) (hh : IsFinite h) (hy : IsFinite y) (hy' : IsFinite y')
    (hd : IsFinite d) (hd' : IsFinite d') : Same (cubic h t y y' d d') y' := by
  obtain ⟨hfirst, hd₀, hlast, hd₁⟩ := factors ht (Or.inr rfl)
  have hstart := (hfirst.zero_mul hy).add ((hd₀.zero_mul hh).zero_mul hd) (by norm_num)
  exact (Same.zero_add hstart (Same.one_mul hlast hy')).add_zero ((hd₁.zero_mul hh).zero_mul hd')

end Double

namespace Spline

open Double (IsFinite Same)

variable {x y : Array Float} {a b u u' : Float} {i k : ℕ}

/-- The values at nodes, the distances between them and the derivatives at them are finite. -/
structure FiniteNodes (x y : Array Float) : Prop where
  value : ∀ u ∈ y, u.isFinite = true
  distance : ∀ (i : ℕ) a b, x[i]? = some a → x[i + 1]? = some b → (b - a).isFinite = true
  derivative : ∀ i < x.size, (derivative x y i).isFinite = true

namespace FiniteNodes

theorem of_fit {s : Spline Float} (ha : Accepts (x, y)) (hvalue : ∀ u ∈ y, u.isFinite = true)
    (hdistance : ∀ (i : ℕ) a b, x[i]? = some a → x[i + 1]? = some b → (b - a).isFinite = true)
    (hderivative : ∀ d ∈ (s.fit x y).2.derivatives, d.isFinite = true) : FiniteNodes x y := by
  refine ⟨hvalue, hdistance, fun i hi => ?_⟩
  rw [fit_snd, if_pos ha] at hderivative
  rw [← getD_derivativesOf hi]
  exact hderivative _ (Array.mem_of_getElem? (getElem?_eq_getD
    (show i < (derivativesOf (x, y)).size from Array.size_ofFn ▸ hi)))

/-- The cubic on an interval goes through the nodes at its ends. -/
theorem piece_ends (h : FiniteNodes x y) (hinc : increasing x.toList = true)
    (ha : x[k]? = some a) (hb : x[k + 1]? = some b) (hu : y[k]? = some u)
    (hu' : y[k + 1]? = some u') : Same (piece x y k a) u ∧ Same (piece x y k b) u' := by
  have hk : k + 1 < x.size := (getD_of_getElem? hb).1
  have hlt : a < b := lt_of_increasing hinc (Array.getElem?_toList.trans ha)
    (Array.getElem?_toList.trans hb)
  have hf : IsFinite (b - a) := h.distance k a b ha hb
  have h0 : Double.toReal (b - a) ≠ 0 := (Double.toReal_sub_pos hlt hf).ne'
  have hy : IsFinite u := h.value u (Array.mem_of_getElem? hu)
  have hy' : IsFinite u' := h.value u' (Array.mem_of_getElem? hu')
  have hd : IsFinite (Spline.derivative x y k) := h.derivative k (Nat.lt_of_succ_lt hk)
  have hd' : IsFinite (Spline.derivative x y (k + 1)) := h.derivative _ hk
  rw [piece_eq_cubic ha hb hu hu', piece_eq_cubic ha hb hu hu']
  exact ⟨Double.cubic_zero ((Double.isInteger_sub_self hf.of_sub.2).zero_div hf h0)
      hf hy hy' hd hd',
    Double.cubic_one (Double.isInteger_div_self hf h0) hf hy hy' hd hd'⟩

theorem isFinite_node (h : FiniteNodes x y) (h2 : 2 ≤ x.size) (ha : x[i]? = some a) :
    IsFinite a := by
  obtain ⟨hi, rfl⟩ := getD_of_getElem? ha
  rcases Nat.lt_or_ge (i + 1) x.size with hlt | hge
  · exact (IsFinite.of_sub (h.distance i _ _ ha (getElem?_eq_getD hlt))).2
  · obtain ⟨k, rfl⟩ := Nat.exists_eq_add_one_of_ne_zero (show i ≠ 0 by omega)
    exact (IsFinite.of_sub (h.distance k _ _ (getElem?_eq_getD (Nat.lt_of_succ_lt hi)) ha)).1

/-- The spline goes through its nodes. -/
theorem exists_eval (h : FiniteNodes x y) (s : Spline Float) (hxy : Accepts (x, y))
    (ha : x[i]? = some a) (hu : y[i]? = some u) :
    ∃ v, (s.fit x y).2.eval a = .ok v ∧ (v == u) = true := by
  have hsize := hxy.size_eq
  have h2 := hxy.two_le
  have hinc := hxy.in_order
  have hy : IsFinite u := h.value u (Array.mem_of_getElem? hu)
  have hself : a ≤ a := Double.le_refl (h.isFinite_node h2 ha).isNumber
  obtain ⟨hi, rfl⟩ := getD_of_getElem? ha
  refine ⟨_, eval_fit s hxy (node_le hinc (Nat.zero_le i) hi hself)
    (le_node hinc (show i ≤ x.size - 1 by omega) (by omega) hself), ?_⟩
  rcases Nat.lt_or_ge (i + 1) x.size with hlt | hge
  · rw [interval_eq_of_mem hinc hlt hself (Or.inr (node_lt_succ hinc hlt))]
    exact (h.piece_ends hinc ha (getElem?_eq_getD hlt) hu (getElem?_eq_getD (hsize ▸ hlt))).1.beq
      hy
  · -- the last node is the end of the last interval
    obtain ⟨k, rfl⟩ := Nat.exists_eq_add_one_of_ne_zero (show i ≠ 0 by omega)
    have hk : k < x.size := Nat.lt_of_succ_lt hi
    rw [interval_eq_of_mem hinc hi (OrderLaws.le_of_lt (node_lt_succ hinc hi))
      (Or.inl (by omega))]
    exact (h.piece_ends hinc (getElem?_eq_getD hk) ha (getElem?_eq_getD (hsize ▸ hk)) hu).2.beq hy

end FiniteNodes
end Spline

open Spline

/-- After a fit that was accepted, through values, distances and derivatives that are finite, the
spline has at each node the value there.  So the value of a raw segment at the position of a sample
is that sample. -/
theorem eval_node :
    (∀ (s : Spline Float) (x y : Array Float), (s.fit x y).1 = .ok () →
      (∀ u ∈ y, u.isFinite = true) →
      (∀ (i : ℕ) a b, x[i]? = some a → x[i + 1]? = some b → (b - a).isFinite = true) →
      (∀ d ∈ (s.fit x y).2.derivatives, d.isFinite = true) →
      ∀ (i : ℕ) a u, x[i]? = some a → y[i]? = some u →
        ∃ v, (s.fit x y).2.eval a = .ok v ∧ (v == u) = true) ∧
    ∀ (src : RawSegment Float Single) (dst c : ResampledSegment Float) (x q : Array Float),
      src.positions = .ok x → dst.positions = .ok q → resample src dst = .ok c →
      (∀ t ∈ src.values, (Sampled.widen t).isFinite = true) →
      (∀ (i : ℕ) a b, x[i]? = some a → x[i + 1]? = some b → (b - a).isFinite = true) →
      (∀ d ∈ (fit {} x (src.values.map Sampled.widen)).2.derivatives, d.isFinite = true) →
      ∀ (i j : ℕ) a t, x[i]? = some a → src.values[i]? = some t → q[j]? = some a →
        ∃ v, c.values[j]? = some v ∧ (v == Sampled.widen t) = true := by
  constructor
  · intro s x y hfit hvalue hdistance hderivative i a u ha hu
    have hnodes : FiniteNodes x y := .of_fit (fit_ok_iff.mp hfit) hvalue hdistance hderivative
    exact hnodes.exists_eval s (fit_ok_iff.mp hfit) ha hu
  · intro src dst c x q hx hq hc hvalue hdistance hderivative i j a t ha ht hj
    obtain ⟨haccepts, hall⟩ := (resample_eq_ok_iff hx).mp hc
    have hvalue' : ∀ u ∈ src.values.map Sampled.widen, u.isFinite = true := by
      intro u hu
      obtain ⟨t, ht, rfl⟩ := Array.mem_map.mp hu
      exact hvalue t ht
    have hnodes := FiniteNodes.of_fit haccepts hvalue' hdistance hderivative
    have hu : (src.values.map Sampled.widen)[i]? = some (Sampled.widen t) := by
      rw [Array.getElem?_map, ht, Option.map_some]
    obtain ⟨v, hv, heval⟩ := getElem?_evalAll hq hall hj
    obtain ⟨w, hw, hsame⟩ := hnodes.exists_eval {} haccepts ha hu
    cases heval.symm.trans hw
    exact ⟨v, hv, hsame⟩

/-- A segment with a spike at the position 3. -/
def spike : RawSegment Float Single :=
  .unit ((#[0, 1, 0, 7, 0, 1, 0, 1] : Array Float).map Single.ofDouble)

/-- The last of three nodes, and a spike that is resampled where it is. -/
theorem eval_node_of_three :
    (∃ v : Float, (fit {} #[0, 1, 3] #[2, 0, 5]).2.eval 3 = .ok v ∧ (v == 5) = true) ∧
    ∃ c : ResampledSegment Float, resample spike ResampledSegment.halves = .ok c ∧
      ∃ v, c.values[2]? = some v ∧ (v == (Single.ofDouble 7).toDouble) = true := by
  constructor
  · have hdistance : ∀ i < 2, (((#[0, 1, 3] : Array Float)[i + 1]?.getD 0) -
        (#[0, 1, 3] : Array Float)[i]?.getD 0).isFinite = true := by decide +kernel
    refine eval_node.1 {} #[0, 1, 3] #[2, 0, 5] (by decide +kernel) (by decide +kernel)
      (fun i a b ha hb => ?_) (by decide +kernel) 2 3 5 (by decide +kernel) (by decide +kernel)
    have h := hdistance i (Nat.lt_of_succ_lt_succ (getD_of_getElem? hb).1)
    rwa [ha, hb] at h
  · obtain ⟨x, hx, hsize, hnode, hdistance, hderivative⟩ : ∃ x, spike.positions = .ok x ∧
        x.size = 8 ∧ x[3]? = some 3 ∧
        (∀ i < 7, (x[i + 1]?.getD 0 - x[i]?.getD 0).isFinite = true) ∧
        ∀ d ∈ (fit {} x (spike.values.map Sampled.widen)).2.derivatives, d.isFinite = true := by
      decide +kernel
    obtain ⟨q, hq, hposition⟩ : ∃ q : Array Float, ResampledSegment.halves.positions = .ok q ∧
        q[2]? = some 3 := by decide +kernel
    obtain ⟨c, hc, -⟩ : ∃ c, resample spike ResampledSegment.halves = .ok c ∧
        c.values.size = 7 := by decide +kernel
    refine ⟨c, hc, eval_node.2 spike _ c x q hx hq hc (by decide +kernel) (fun i a b ha hb => ?_)
      hderivative 3 2 3 _ hnode (by decide +kernel) hposition⟩
    have h := hdistance i (by have := (getD_of_getElem? hb).1; omega)
    rwa [ha, hb] at h

end Seismic
