import Seismic.Binary.Single
import Seismic.Proofs.Resampled
import Seismic.Proofs.Slopes

/-!
# Locality of splines

The cubic on an interval is computed from the two nodes at its ends, two more before them and two
more after them.  The search looks at other nodes as well, but what it finds depends on their order
only.  So two splines that share these nodes have the same values on the interval, to the last bit.
A bad sample leaves a resampled trace as it is from three nodes away on.
-/

namespace Seismic
namespace Spline

variable {α : Type} [Scalar α] {x y x' y' : Array α} {s s' : Spline α} {p : α} {i j k m : ℕ}

/-- The positions and the values around an interval, from two nodes before it to two nodes after
it, are the same. -/
def SharedAround (k : ℕ) (x y x' y' : Array α) : Prop :=
  ∀ i, k ≤ i + 2 → i ≤ k + 3 → x[i]? = x'[i]? ∧ y[i]? = y'[i]?

namespace SharedAround

theorem getD (h : SharedAround k x y x' y') (hi : k ≤ i + 2) (hi' : i ≤ k + 3) :
    x.getD i 0 = x'.getD i 0 ∧ y.getD i 0 = y'.getD i 0 := by
  obtain ⟨hx, hy⟩ := h i hi hi'
  simp only [Array.getD_eq_getD_getElem?, hx, hy, and_self]

theorem secant_eq (h : SharedAround k x y x' y') (hi : k ≤ i + 2) (hi' : i ≤ k + 2) :
    secant x y i = secant x' y' i := by
  obtain ⟨hx, hy⟩ := h.getD hi (by omega)
  obtain ⟨hx', hy'⟩ := h.getD (i := i + 1) (by omega) (by omega)
  rw [secant, secant, hx, hy, hx', hy']

/-- The slopes beyond an end continue slopes that are shared. -/
theorem slope_eq (h : SharedAround k x y x' y') (hsize : x'.size = x.size)
    (hk : k + 1 < x.size) (hj : k ≤ j) (hj' : j ≤ k + 4) (hn : j ≤ x.size + 2) :
    slope x y j = slope x' y' j := by
  have hinner : ∀ i, k ≤ i → i ≤ k + 4 → 2 ≤ i → i ≤ x.size → slope x y i = slope x' y' i := by
    intro i hi hi' h2 hin
    rw [slope_inner_sub h2 hin, slope_inner_sub h2 (by omega), h.secant_eq (by omega) (by omega)]
  have hcontinued := continued_slope (x := x') (y := y') (by omega)
  rw [hsize] at hcontinued
  exact (continued_slope (by omega)).agree hcontinued hk hinner hj hj' hn

theorem derivative_eq (h : SharedAround k x y x' y') (hsize : x'.size = x.size)
    (hk : k + 1 < x.size) (hi : k ≤ i) (hi' : i ≤ k + 1) :
    derivative x y i = derivative x' y' i := by
  unfold derivative
  rw [h.slope_eq hsize hk hi (by omega) (by omega),
    h.slope_eq hsize hk (j := i + 1) (by omega) (by omega) (by omega),
    h.slope_eq hsize hk (j := i + 2) (by omega) (by omega) (by omega),
    h.slope_eq hsize hk (j := i + 3) (by omega) (by omega) (by omega)]

theorem piece_eq (h : SharedAround k x y x' y') (hsize : x'.size = x.size)
    (hk : k + 1 < x.size) : piece x y k p = piece x' y' k p := by
  obtain ⟨hx, hy⟩ := h.getD (i := k) (by omega) (by omega)
  obtain ⟨hx', hy'⟩ := h.getD (i := k + 1) (by omega) (by omega)
  rw [piece, piece, hx, hy, hx', hy', h.derivative_eq hsize hk le_rfl (by omega),
    h.derivative_eq hsize hk (by omega) le_rfl]

/-- A position has the same value in two splines that share the nodes around its interval. -/
theorem eval_eq (h : SharedAround (interval x p) x y x' y') (ha : Accepts (x, y))
    (ha' : Accepts (x', y')) (hsize : x'.size = x.size) (hk : interval x' p = interval x p)
    (h₁ : x.getD 0 0 ≤ p) (h₂ : p ≤ x.getD (x.size - 1) 0)
    (h₁' : x'.getD 0 0 ≤ p) (h₂' : p ≤ x'.getD (x'.size - 1) 0) :
    (s.fit x y).2.eval p = (s'.fit x' y').2.eval p := by
  rw [eval_fit s ha h₁ h₂, eval_fit s' ha' h₁' h₂', hk,
    h.piece_eq hsize (interval_add_one_lt p ha.two_le)]

end SharedAround

variable [OrderLaws α]

/-- A position from the first node of an interval on and before its second one is in range. -/
theorem range_of_mem (h : increasing x.toList = true) (hk : k + 1 < x.size)
    (h₁ : x.getD k 0 ≤ p) (h₂ : p < x.getD (k + 1) 0) :
    x.getD 0 0 ≤ p ∧ p ≤ x.getD (x.size - 1) 0 :=
  ⟨node_le h (Nat.zero_le k) (Nat.lt_of_succ_lt hk) h₁,
    le_node h (show k + 1 ≤ x.size - 1 by omega) (by omega) (OrderLaws.le_of_lt h₂)⟩

theorem SharedAround.exists_eval (h : SharedAround k x y x' y') (ha : Accepts (x, y))
    (ha' : Accepts (x', y')) (hsize : x'.size = x.size) (hk : k + 1 < x.size)
    (h₁ : x.getD k 0 ≤ p) (h₂ : p < x.getD (k + 1) 0) :
    ∃ v, (s.fit x y).2.eval p = .ok v ∧ (s'.fit x' y').2.eval p = .ok v := by
  have hx := (h.getD (i := k) (by omega) (by omega)).1
  have hx' := (h.getD (i := k + 1) (by omega) (by omega)).1
  have hinterval : interval x p = k := interval_eq_of_mem ha.in_order hk h₁ (Or.inr h₂)
  obtain ⟨hlow, hhigh⟩ := range_of_mem ha.in_order hk h₁ h₂
  rw [hx] at h₁
  rw [hx'] at h₂
  rw [← hsize] at hk
  have hinterval' : interval x' p = k := interval_eq_of_mem ha'.in_order hk h₁ (Or.inr h₂)
  obtain ⟨hlow', hhigh'⟩ := range_of_mem ha'.in_order hk h₁ h₂
  have heq : (s.fit x y).2.eval p = (s'.fit x' y').2.eval p :=
    SharedAround.eval_eq (hinterval.symm ▸ h) ha ha' hsize (hinterval'.trans hinterval.symm)
      hlow hhigh hlow' hhigh'
  exact ⟨_, eval_fit s ha hlow hhigh, heq ▸ eval_fit s ha hlow hhigh⟩

/-! ## A bad sample -/

/-- The third node before node `m` comes after the position, or the third node after it comes
before the position. -/
def Beyond (x : Array α) (m : ℕ) (p : α) : Prop :=
  (∃ i a, i + 3 = m ∧ x[i]? = some a ∧ p < a) ∨ ∃ a, x[m + 3]? = some a ∧ a < p

/-- The interval of such a position is computed without the node. -/
theorem Beyond.interval (hb : Beyond x m p) (h : increasing x.toList = true) (h2 : 2 ≤ x.size)
    (h₁ : x.getD 0 0 ≤ p) (h₂ : p ≤ x.getD (x.size - 1) 0) :
    m + 3 ≤ interval x p ∨ interval x p + 3 < m := by
  have hlast := interval_add_one_lt p h2
  obtain ⟨hlow, hhigh⟩ := interval_spec h2 (fun i j hij hj => node_le h hij hj) h₁
  rcases hb with ⟨i, a, rfl, ha, hp⟩ | ⟨a, ha, hp⟩
  · obtain ⟨hi, rfl⟩ := getD_of_getElem? ha
    refine Or.inr (Nat.add_lt_add_right (Nat.not_le.mp fun hle => ?_) 3)
    exact OrderLaws.not_le_of_lt hp (node_le h hle (by omega) hlow)
  · obtain ⟨hi, rfl⟩ := getD_of_getElem? ha
    refine Or.inl (Nat.not_lt.mp fun hlt => ?_)
    rcases hhigh with hend | hbelow
    · -- the interval is the last one, and the third node after `m` is the last node
      rw [show x.size - 1 = m + 3 by omega] at h₂
      exact OrderLaws.not_le_of_lt hp h₂
    · exact hbelow (node_le h hlt hi (OrderLaws.le_of_lt hp))

end Spline

open Spline

variable {α σ : Type} [Scalar α] [Sampled σ α] [OrderLaws α]
variable {src : RawSegment α σ} {dst c : ResampledSegment α} {x q : Array α}

omit [Sampled σ α] [OrderLaws α] in
theorem positions_setIfInBounds (src : RawSegment α σ) (m : ℕ) (bad : σ) :
    RawSegment.positions { src with values := src.values.setIfInBounds m bad } =
      src.positions := by
  unfold RawSegment.positions RawSegment.topSample
  rw [Array.size_setIfInBounds]

/-- Another value of one sample keeps the resampled values beyond three nodes. -/
theorem exists_resample_setIfInBounds (hx : src.positions = .ok x) (hq : dst.positions = .ok q)
    (h : resample src dst = .ok c) (m : ℕ) (bad : σ) :
    ∃ c', resample { src with values := src.values.setIfInBounds m bad } dst = .ok c' ∧
      ∀ (j : ℕ) (p : α), q[j]? = some p → Beyond x m p → c'.values[j]? = c.values[j]? := by
  have hx' := (positions_setIfInBounds src m bad).trans hx
  have hrange := (exists_resample hx hq).mp ⟨c, h⟩
  obtain ⟨c', h'⟩ := (exists_resample hx' hq).mpr
    ⟨by rw [Array.size_setIfInBounds, hrange.1], hrange.2⟩
  refine ⟨c', h', fun j p hj hb => ?_⟩
  obtain ⟨ha, heval⟩ := (resample_eq_ok_iff hx).mp h
  obtain ⟨ha', heval'⟩ := (resample_eq_ok_iff hx').mp h'
  obtain ⟨v, hv, hvalue⟩ := getElem?_evalAll hq heval hj
  obtain ⟨v', hv', hvalue'⟩ := getElem?_evalAll hq heval' hj
  obtain ⟨h₁, h₂⟩ := hrange.2.2.2 p (Array.mem_of_getElem? hj)
  have haway := hb.interval ha.in_order ha.two_le h₁ h₂
  have hshared : SharedAround (interval x p) x (src.values.map Sampled.widen) x
      ((src.values.setIfInBounds m bad).map Sampled.widen) := by
    intro i hi hi'
    rw [Array.getElem?_map, Array.getElem?_map, Array.getElem?_setIfInBounds_ne (by omega)]
    exact ⟨rfl, rfl⟩
  have hsame : (fit {} x (src.values.map Sampled.widen)).2.eval p =
      (fit {} x ((src.values.setIfInBounds m bad).map Sampled.widen)).2.eval p :=
    hshared.eval_eq ha ha' rfl rfl h₁ h₂ h₁ h₂
  rw [hv, hv', Except.ok.inj (hvalue.symm.trans (hsame.trans hvalue'))]

/-- After two fits that were accepted, of as many nodes, the splines have one and the same value at
every position of an interval whose nodes are shared, from two before it to two after it.  A
trace with another value of one sample is resampled if the trace is, with the same values at all
positions that are more than three nodes away. -/
theorem eval_local :
    (∀ (s s' : Spline Float) (x y x' y' : Array Float) (k : ℕ) (a b p : Float),
      (s.fit x y).1 = .ok () → (s'.fit x' y').1 = .ok () → x'.size = x.size →
      (∀ i, k ≤ i + 2 → i ≤ k + 3 → x[i]? = x'[i]? ∧ y[i]? = y'[i]?) →
      x[k]? = some a → x[k + 1]? = some b → a ≤ p → p < b →
      ∃ v, (s.fit x y).2.eval p = .ok v ∧ (s'.fit x' y').2.eval p = .ok v) ∧
    ∀ (src : RawSegment Float Single) (dst c : ResampledSegment Float) (x q : Array Float),
      src.positions = .ok x → dst.positions = .ok q → resample src dst = .ok c →
      ∀ (m : ℕ) (bad : Single),
        ∃ c', resample { src with values := src.values.setIfInBounds m bad } dst = .ok c' ∧
          ∀ (j : ℕ) (p : Float), q[j]? = some p → Beyond x m p → c'.values[j]? = c.values[j]? := by
  refine ⟨fun s s' x y x' y' k a b p h h' hsize hshared ha hb h₁ h₂ => ?_,
    fun src dst c x q hx hq h m bad => exists_resample_setIfInBounds hx hq h m bad⟩
  obtain ⟨-, rfl⟩ := getD_of_getElem? ha
  obtain ⟨hk, rfl⟩ := getD_of_getElem? hb
  exact SharedAround.exists_eval hshared (fit_ok_iff.mp h) (fit_ok_iff.mp h') hsize hk h₁ h₂

/-- Six nodes of which the last two are moved, and a trace of eight samples of which the last one
is bad.  The position 2.5 comes before the third node from it, which is at 4. -/
theorem eval_local_of_six :
    (∃ v : Float, (fit {} #[0, 1, 2, 3, 4, 5] #[0, 1, 0, 2, 0, 1]).2.eval (1 / 2) = .ok v ∧
      (fit {} #[0, 1, 2, 3, 7, 9] #[0, 1, 0, 2, 8, 8]).2.eval (1 / 2) = .ok v) ∧
    ∀ bad : Single, ∃ c c' : ResampledSegment Float,
      resample (RawSegment.unit (Array.replicate 8 (Sampled.zero : Single)))
        ResampledSegment.halves = .ok c ∧
      resample (RawSegment.unit ((Array.replicate 8 (Sampled.zero : Single)).setIfInBounds 7 bad))
        ResampledSegment.halves = .ok c' ∧ c'.values[1]? = c.values[1]? := by
  have hshared : ∀ i ≤ 3, (#[0, 1, 2, 3, 4, 5] : Array Float)[i]? = #[0, 1, 2, 3, 7, 9][i]? ∧
      (#[0, 1, 0, 2, 0, 1] : Array Float)[i]? = #[0, 1, 0, 2, 8, 8][i]? := by decide +kernel
  refine ⟨eval_local.1 {} {} _ _ _ _ 0 0 1 (1 / 2) (by decide +kernel) (by decide +kernel)
    (by decide) (fun i _ hi => hshared i hi) (by decide +kernel) (by decide +kernel)
    (by decide +kernel) (by decide +kernel), fun bad => ?_⟩
  · obtain ⟨x, hx, hnode⟩ : ∃ x : Array Float, (RawSegment.unit (Array.replicate 8
        (Sampled.zero : Single))).positions = .ok x ∧ x[4]? = some 4 := by decide +kernel
    obtain ⟨q, hq, hposition⟩ : ∃ q : Array Float, ResampledSegment.halves.positions = .ok q ∧
        q[1]? = some (5 / 2) := by decide +kernel
    obtain ⟨c, hc, -⟩ : ∃ c : ResampledSegment Float, resample (RawSegment.unit (Array.replicate 8
        (Sampled.zero : Single))) ResampledSegment.halves = .ok c ∧ c.values.size = 7 := by
      decide +kernel
    obtain ⟨c', hc', hkept⟩ := eval_local.2 _ _ c x q hx hq hc 7 bad
    exact ⟨c, c', hc, hc', hkept 1 (5 / 2) hposition
      (Or.inl ⟨4, 4, rfl, hnode, by decide +kernel⟩)⟩

end Seismic
