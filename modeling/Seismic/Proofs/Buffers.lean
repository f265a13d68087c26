import Seismic.Proofs.Resampled
import Seismic.Proofs.Slopes
import Seismic.Trace.Buffers

/-!
# Buffers that are kept

A worker keeps its memory from one cell to the next: the positions, values, slopes and derivatives
of a spline, and the samples of a resampled segment.  Each of them is emptied and filled again in
place, or written entry by entry, so what is left of an earlier cell has to be overwritten before it
is read.  It always is: whatever the buffers hold, a spline and a segment come out of them as they
would out of new ones.
-/

namespace Seismic

variable {α σ : Type} [Scalar α]

/-! ## One buffer -/

omit [Scalar α] in
@[simp] theorem emptied_append (xs ys : Array α) : emptied xs ++ ys = ys := by
  simp [emptied]

@[simp] theorem resized_emptied (xs : Array α) (count : Nat) :
    resized (emptied xs) count = Array.replicate count 0 := by
  simp [resized, emptied]

omit [Scalar α] in
/-- Either all entries are computed, and stored from `a` on, or the first failure is reported. -/
theorem storeEach_range' (f : Nat → Result α α) (a m : Nat) (xs : Array α) (h : a + m ≤ xs.size) :
    (∃ vs, (List.range' a m).mapM f = .ok vs ∧ ∃ ys, storeEach f (List.range' a m) xs = (.ok (), ys) ∧
      ∀ i, ys[i]? = if a ≤ i ∧ i < a + m then vs[i - a]? else xs[i]?) ∨
    ∃ e, (List.range' a m).mapM f = .error e ∧ (storeEach f (List.range' a m) xs).1 = .error e := by
  induction m generalizing a xs with
  | zero =>
    refine Or.inl ⟨[], rfl, xs, rfl, ?_⟩
    intro i
    rw [if_neg (by omega)]
  | succ m ih =>
    rw [List.range'_succ, List.mapM_cons]
    cases hv : f a with
    | error e => exact Or.inr ⟨e, rfl, by simp [storeEach, hv]⟩
    | ok v =>
      simp only [storeEach, hv, ok_bind]
      have hsize : (a + 1) + m ≤ (xs.setIfInBounds a v).size := by
        rw [Array.size_setIfInBounds]
        omega
      rcases ih (a + 1) _ hsize with ⟨vs, hvs, ys, hys, hget⟩ | ⟨e, he, herr⟩
      · refine Or.inl ⟨v :: vs, by rw [hvs]; rfl, ys, hys, ?_⟩
        intro i
        rw [hget i]
        by_cases hi : i = a
        · subst hi
          rw [if_neg (by omega), if_pos (by omega), Array.getElem?_setIfInBounds_self_of_lt (by omega),
            Nat.sub_self, List.getElem?_cons_zero]
        · rw [Array.getElem?_setIfInBounds_ne (fun h => hi h.symm)]
          by_cases hin : a + 1 ≤ i ∧ i < a + 1 + m
          · rw [if_pos hin, if_pos (by omega), show i - a = (i - (a + 1)) + 1 by omega,
              List.getElem?_cons_succ]
          · rw [if_neg hin, if_neg (by omega)]
      · exact Or.inr ⟨e, by rw [he]; rfl, herr⟩

omit [Scalar α] in
/-- Entries computed for a whole buffer are those of a new one, however it was filled before. -/
theorem storeEach_range (f : Nat → Result α α) (xs : Array α) :
    (∃ vs, (List.range xs.size).mapM f = .ok vs ∧
      storeEach f (List.range xs.size) xs = (.ok (), vs.toArray)) ∨
    ∃ e, (List.range xs.size).mapM f = .error e ∧
      (storeEach f (List.range xs.size) xs).1 = .error e := by
  rw [List.range_eq_range']
  rcases storeEach_range' f 0 xs.size xs (by omega) with ⟨vs, hvs, ys, hys, hget⟩ | h
  · refine Or.inl ⟨vs, hvs, ?_⟩
    have hlen : vs.length = xs.size := by
      rw [← (List.forall₂_iff_get.mp (mapM_eq_ok.mp hvs)).1, List.length_range']
    rw [hys]
    congr 1
    apply Array.ext_getElem?
    intro i
    rw [hget i, show vs.toArray[i]? = vs[i]? from List.getElem?_toArray ..]
    by_cases hi : i < xs.size
    · rw [if_pos (by omega), Nat.sub_zero]
    · rw [if_neg (by omega), Array.getElem?_eq_none (by omega), List.getElem?_eq_none (by omega)]
  · exact Or.inr h

/-! ## The four buffers of a spline -/

namespace Spline
namespace Buffers

variable {b : Buffers α} {x y m : Array α} {j k n : Nat}

omit [Scalar α] in
theorem getD_set_self {v z : α} (hj : j < m.size) : (m.setIfInBounds j v).getD j z = v := by
  simp [hj]

omit [Scalar α] in
theorem getD_set_ne {v z : α} (h : k ≠ j) : (m.setIfInBounds k v).getD j z = m.getD j z := by
  simp [h]

/-- The slopes of the first intervals are in place, and nothing else has changed. -/
theorem getD_foldl_secant (hj : j < m.size) (n : Nat) :
    ((List.range n).foldl (fun m k => m.setIfInBounds (k + 2) (secant x y k)) m).size = m.size ∧
    ((List.range n).foldl (fun m k => m.setIfInBounds (k + 2) (secant x y k)) m).getD j 0 =
      if 2 ≤ j ∧ j < n + 2 then secant x y (j - 2) else m.getD j 0 := by
  induction n with
  | zero =>
    refine ⟨rfl, ?_⟩
    rw [if_neg (by omega)]
    rfl
  | succ n ih =>
    rw [List.range_succ, List.foldl_append]
    simp only [List.foldl_cons, List.foldl_nil]
    refine ⟨by rw [Array.size_setIfInBounds, ih.1], ?_⟩
    by_cases hn : n + 2 = j
    · subst hn
      rw [getD_set_self (by omega), if_pos (by omega), Nat.add_sub_cancel]
    · rw [getD_set_ne hn, ih.2]
      by_cases hin : 2 ≤ j ∧ j < n + 2
      · rw [if_pos hin, if_pos (by omega)]
      · rw [if_neg hin, if_neg (by omega)]

/-- The ends continue what is between them, and that stays. -/
theorem continued_storeEnds (h2 : 2 ≤ n) (hm : m.size = n + 3) :
    Continued n (fun j => (storeEnds n m).getD j 0) ∧
      ∀ j, 2 ≤ j → j ≤ n → (storeEnds n m).getD j 0 = m.getD j 0 := by
  have hkept : ∀ j, 2 ≤ j → j ≤ n → (storeEnds n m).getD j 0 = m.getD j 0 := by
    intro j hj hjn
    simp (disch := omega) only [storeEnds, getD_set_ne]
  have hfirst : (storeEnds n m).getD 1 0 =
      extend (m.getD 2 0) (if 2 < n then m.getD 3 0 else m.getD 2 0) := by
    simp (disch := first | omega | (simp only [Array.size_setIfInBounds]; omega)) only
      [storeEnds, getD_set_ne, getD_set_self]
  have hlast : (storeEnds n m).getD (n + 1) 0 =
      extend (m.getD n 0) (if 2 < n then m.getD (n - 1) 0 else m.getD n 0) := by
    simp (disch := first | omega | (simp only [Array.size_setIfInBounds]; omega)) only
      [storeEnds, getD_set_ne, getD_set_self]
  refine ⟨⟨?_, ?_, ?_, ?_⟩, hkept⟩
  · show (storeEnds n m).getD 1 0 = _
    rw [hfirst, hkept 2 le_rfl h2, hkept (min 3 n) (by omega) (by omega)]
    by_cases h3 : 2 < n
    · rw [if_pos h3, Nat.min_eq_left h3]
    · rw [if_neg h3, show min 3 n = 2 by omega]
  · show (storeEnds n m).getD 0 0 = extend ((storeEnds n m).getD 1 0) ((storeEnds n m).getD 2 0)
    rw [hfirst, hkept 2 le_rfl h2]
    simp (disch := first | omega | (simp only [Array.size_setIfInBounds]; omega)) only
      [storeEnds, getD_set_ne, getD_set_self]
  · show (storeEnds n m).getD (n + 1) 0 = _
    rw [hlast, hkept n h2 le_rfl, hkept (max 2 (n - 1)) (by omega) (by omega)]
    by_cases h3 : 2 < n
    · rw [if_pos h3, show max 2 (n - 1) = n - 1 by omega]
    · rw [if_neg h3, show max 2 (n - 1) = n by omega]
  · show (storeEnds n m).getD (n + 2) 0 =
      extend ((storeEnds n m).getD (n + 1) 0) ((storeEnds n m).getD n 0)
    rw [hlast, hkept n h2 le_rfl]
    simp (disch := first | omega | (simp only [Array.size_setIfInBounds]; omega)) only
      [storeEnds, getD_set_ne, getD_set_self]

/-- The slopes that a fit stores, in a buffer of zeros. -/
theorem getD_slopes (h2 : 2 ≤ x.size) (hj : j ≤ x.size + 2) :
    (storeEnds x.size (storeSecants x y (Array.replicate (x.size + 3) 0))).getD j 0 =
      slope x y j := by
  have hsecants : ∀ j, j ≤ x.size + 2 →
      (storeSecants x y (Array.replicate (x.size + 3) 0)).size = x.size + 3 ∧
      (2 ≤ j → j ≤ x.size →
        (storeSecants x y (Array.replicate (x.size + 3) 0)).getD j 0 = secant x y (j - 2)) := by
    intro j hj
    have h := getD_foldl_secant (x := x) (y := y) (m := Array.replicate (x.size + 3) 0) (j := j)
      (by rw [Array.size_replicate]; omega) (x.size - 1)
    refine ⟨by rw [storeSecants, h.1, Array.size_replicate], ?_⟩
    intro h2j hjn
    rw [storeSecants, h.2, if_pos (by omega)]
  have hends := continued_storeEnds h2 (hsecants 0 (by omega)).1
  refine hends.1.ext (continued_slope h2) h2 ?_ hj
  intro j h2j hjn
  show (storeEnds x.size _).getD j 0 = _
  rw [hends.2 j h2j hjn, (hsecants j (by omega)).2 h2j hjn, slope_inner_sub h2j hjn]

theorem blends_slopes (h2 : 2 ≤ x.size) :
    blends x.size (storeEnds x.size (storeSecants x y (Array.replicate (x.size + 3) 0))) =
      derivativesOf (x, y) := by
  refine congrArg Array.ofFn (funext fun i => ?_)
  have hi := i.isLt
  rw [getD_slopes h2 (by omega), getD_slopes h2 (by omega), getD_slopes h2 (by omega),
    getD_slopes h2 (by omega), ← derivative]

/-- Fitting in place is fitting, whatever is in the buffers. -/
theorem fit_spline (b : Buffers α) (x y : Array α) :
    ((b.fit x y).1, (b.fit x y).2.spline) = b.spline.fit x y := by
  simp only [fit, Spline.fit, emptied_append, resized_emptied]
  by_cases hsize : x.size = y.size
  · rw [if_neg (not_not_intro hsize), if_neg (not_not_intro hsize)]
    by_cases h2 : x.size < 2
    · rw [if_pos h2, if_pos h2]
      rfl
    · rw [if_neg h2, if_neg h2]
      by_cases hinc : increasing x.toList = true
      · rw [hinc, Bool.not_true, if_neg Bool.false_ne_true, if_neg Bool.false_ne_true,
          blends_slopes (Nat.not_lt.mp h2)]
        rfl
      · rw [Bool.not_eq_true] at hinc
        rw [hinc, Bool.not_false, if_pos rfl, if_pos rfl]
        rfl
  · rw [if_pos hsize, if_pos hsize]
    rfl

/-- A fit that succeeds leaves the same entries in all four buffers, whatever was in them. -/
theorem fit_cases (b c : Buffers α) (x y : Array α) :
    (∃ e, (b.fit x y).1 = .error e ∧ (c.fit x y).1 = .error e) ∨
      ((b.fit x y).1 = .ok () ∧ b.fit x y = c.fit x y) := by
  simp only [fit, emptied_append, resized_emptied]
  split_ifs
  · exact Or.inl ⟨_, rfl, rfl⟩
  · exact Or.inl ⟨_, rfl, rfl⟩
  · exact Or.inl ⟨_, rfl, rfl⟩
  · exact Or.inr ⟨rfl, rfl⟩

/-! ## Resampling in place -/

variable [Sampled σ α] {src : RawSegment α σ} {dst : ResampledSegment α}

/-- The buffers after one segment has been resampled after the other. -/
def resampleAll (b : Buffers α) (calls : List (RawSegment α σ × ResampledSegment α)) : Buffers α :=
  calls.foldl (fun b call => (b.resample call.1 call.2).2.2) b

/-- What the buffers hold has no influence on the outcome of a call and on the samples it stores. -/
theorem resample_congr (b c : Buffers α) (src : RawSegment α σ) (dst : ResampledSegment α) :
    (b.resample src dst).1 = (c.resample src dst).1 ∧
    (b.resample src dst).2.1 = (c.resample src dst).2.1 ∧
    ((b.resample src dst).1 = .ok () →
      (b.resample src dst).2.2 = (c.resample src dst).2.2) := by
  unfold resample
  cases src.positions with
  | error e => exact ⟨rfl, rfl, fun h => (nomatch h)⟩
  | ok x =>
    dsimp only
    rcases fit_cases b c x (src.values.map Sampled.widen) with ⟨e, hb, hc⟩ | ⟨-, heq⟩
    · cases hb' : b.fit x (src.values.map Sampled.widen)
      cases hc' : c.fit x (src.values.map Sampled.widen)
      rw [hb'] at hb
      rw [hc'] at hc
      cases hb
      cases hc
      exact ⟨rfl, rfl, fun h => (nomatch h)⟩
    · rw [heq]
      exact ⟨rfl, rfl, fun _ => rfl⟩

omit [Sampled σ α] in
theorem toList_samplePositions (top stepsize : α) (n : Nat) :
    (samplePositions top stepsize n).toList =
      (List.range n).map fun k => top + Scalar.ofNat k * stepsize := by
  unfold samplePositions
  rw [Array.toList_ofFn]
  exact List.ext_getElem (by simp) (by simp)

omit [Sampled σ α] in
/-- The positions of a segment are visited from its top to its bottom. -/
theorem evalAll_of_topSample {s : Spline α} {top : α} (h : dst.topSample = .ok top) :
    s.evalAll dst = (fun vs => { dst with values := vs.toArray }) <$>
      (List.range dst.values.size).mapM fun k =>
        s.eval (top + Scalar.ofNat k * dst.spacing.spacing.stepsize) := by
  unfold evalAll ResampledSegment.positions
  rw [h, ok_bind, pure_bind, Array.mapM_eq_mapM_toList, toList_samplePositions, List.mapM_map]
  simp only [Function.comp_def]
  cases (List.range dst.values.size).mapM fun k =>
    s.eval (top + Scalar.ofNat k * dst.spacing.spacing.stepsize) with
  | error e => rfl
  | ok vs => rfl

/-- A call succeeds in place if resampling does, and then it stores the same samples. -/
theorem resample_eq (b : Buffers α) (src : RawSegment α σ) (dst : ResampledSegment α) :
    (∃ c, Seismic.resample src dst = .ok c ∧ (b.resample src dst).1 = .ok () ∧
      (b.resample src dst).2.1 = c) ∨
    ∃ e, Seismic.resample src dst = .error e ∧ (b.resample src dst).1 = .error e := by
  rw [← Spline.resample_eq b.spline src dst]
  unfold resample Spline.resample
  cases src.positions with
  | error e => exact Or.inr ⟨e, rfl, rfl⟩
  | ok x =>
    dsimp only
    rw [← fit_spline b x (src.values.map Sampled.widen)]
    cases hfit : b.fit x (src.values.map Sampled.widen) with
    | mk r b' =>
      cases r with
      | error e => exact Or.inr ⟨e, rfl, rfl⟩
      | ok u =>
        dsimp only
        cases htop : dst.topSample with
        | error e =>
          refine Or.inr ⟨e, ?_, rfl⟩
          unfold evalAll ResampledSegment.positions
          rw [htop]
          rfl
        | ok top =>
          dsimp only
          rw [evalAll_of_topSample htop]
          rcases storeEach_range (fun k =>
            b'.spline.eval (top + Scalar.ofNat k * dst.spacing.spacing.stepsize)) dst.values with
            ⟨vs, hvs, hstored⟩ | ⟨e, he, hstored⟩
          · rw [hvs, hstored]
            exact Or.inl ⟨_, rfl, rfl, rfl⟩
          · rw [he]
            exact Or.inr ⟨e, rfl, hstored⟩

end Buffers

/-- The spline after one segment has been resampled after the other. -/
def resampleAll [Sampled σ α] (s : Spline α)
    (calls : List (RawSegment α σ × ResampledSegment α)) : Spline α :=
  calls.foldl (fun s call => (s.resample call.1 call.2).2) s

end Spline

/-! ## One segment for many windows -/

namespace ResampledSegment

/-- The segment after it has been given one pair of bounds after the other.  In between its samples
are written to, in whatever way. -/
def resetAll (s : ResampledSegment α) (visits : List (Bounds α × (Array α → Array α))) :
    ResampledSegment α :=
  visits.foldl (fun s visit =>
    let next := (s.resetInPlace visit.1).toOption.getD s
    { next with values := visit.2 next.values }) s

variable {s c : ResampledSegment α} {bounds : Bounds α}

theorem resetInPlace_eq (s : ResampledSegment α) (bounds : Bounds α) :
    s.resetInPlace bounds = s.reset bounds := by
  simp only [resetInPlace, reset, resized_emptied]

theorem values_of_reset (h : s.reset bounds = .ok c) :
    c.values = Array.replicate c.values.size 0 := by
  unfold reset at h
  obtain ⟨n, -, h⟩ := bind_eq_ok.mp h
  obtain ⟨-, h⟩ := check_eq_ok.mp h
  cases pure_eq_ok.mp h
  simp

theorem spacing_resetAll (s : ResampledSegment α)
    (visits : List (Bounds α × (Array α → Array α))) : (s.resetAll visits).spacing = s.spacing := by
  unfold resetAll
  induction visits generalizing s with
  | nil => rfl
  | cons visit visits ih =>
    rw [List.foldl_cons, ih]
    show ((s.resetInPlace visit.1).toOption.getD s).spacing = s.spacing
    rw [resetInPlace_eq]
    cases h : s.reset visit.1 with
    | error e => rfl
    | ok c => exact (reset_eq_ok h).1

end ResampledSegment

open Spline

/-- A worker that has resampled any segments before, whether this succeeded or not, resamples a
segment as a new one does: with the answer of `resample`, in memory that is kept as well as without.
The samples it stores are those that a new one stores, and if it succeeds they are those of
`resample`, and all four buffers of the spline are what they would be in a new one.  A segment that
has been given any bounds before, and been written to, is made by further bounds what a new segment
would be: as many zeros as its window has samples, and nothing else. -/
theorem resample_reused [Sampled σ α] (calls : List (RawSegment α σ × ResampledSegment α))
    (src : RawSegment α σ) (dst : ResampledSegment α) (spacing : ResampledSpacing α)
    (visits : List (Bounds α × (Array α → Array α))) (bounds : Bounds α) :
    ((resampleAll {} calls).resample src dst).1 = resample src dst ∧
    ((Buffers.resampleAll {} calls).resample src dst).1 =
      (Buffers.resample {} src dst).1 ∧
    ((Buffers.resampleAll {} calls).resample src dst).2.1 = (Buffers.resample {} src dst).2.1 ∧
    (∀ e, ((Buffers.resampleAll {} calls).resample src dst).1 = .error e ↔
      resample src dst = .error e) ∧
    (∀ c, resample src dst = .ok c ↔
      ((Buffers.resampleAll {} calls).resample src dst).1 = .ok () ∧
        ((Buffers.resampleAll {} calls).resample src dst).2.1 = c) ∧
    (((Buffers.resampleAll {} calls).resample src dst).1 = .ok () →
      ((Buffers.resampleAll {} calls).resample src dst).2.2 = (Buffers.resample {} src dst).2.2) ∧
    (((ResampledSegment.unset spacing).resetAll visits).resetInPlace bounds =
      (ResampledSegment.unset spacing).reset bounds) ∧
    ∀ c, ((ResampledSegment.unset spacing).resetAll visits).resetInPlace bounds = .ok c →
      spacing.count bounds.reference bounds.top bounds.bottom = .ok c.values.size ∧
        c.values = Array.replicate c.values.size 0 := by
  obtain ⟨hanswer, hstored, hbuffers⟩ :=
    Buffers.resample_congr (Buffers.resampleAll {} calls) {} src dst
  have hreset : ((ResampledSegment.unset spacing).resetAll visits).resetInPlace bounds =
      (ResampledSegment.unset spacing).reset bounds := by
    rw [ResampledSegment.resetInPlace_eq, ResampledSegment.reset_eq_unset,
      ResampledSegment.spacing_resetAll]
    rfl
  refine ⟨Spline.resample_eq _ src dst, hanswer, hstored, ?_, ?_, hbuffers, hreset, ?_⟩
  · intro e
    rcases Buffers.resample_eq (Buffers.resampleAll {} calls) src dst with
      ⟨c, hc, hok, -⟩ | ⟨e', he, herr⟩
    · simp [hc, hok]
    · simp [he, herr]
  · intro c
    rcases Buffers.resample_eq (Buffers.resampleAll {} calls) src dst with
      ⟨c', hc, hok, hdst⟩ | ⟨e', he, herr⟩
    · simp [hc, hok, hdst]
    · simp [he, herr]
  · intro c hc
    rw [hreset] at hc
    exact ⟨(ResampledSegment.reset_eq_ok hc).2.2, ResampledSegment.values_of_reset hc⟩

end Seismic
