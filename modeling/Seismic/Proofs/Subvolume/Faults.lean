import Seismic.Proofs.Subvolume.Refusals
import Seismic.Proofs.Volume.Fetch

/-!
# Faults of a layout

A layout ends in a fault for one of two reasons only.  A boundary is so far away that its
sample number is clamped, and then the margin overflows.  Or the windows together hold more
samples than can be addressed.  A boundary that is not as far away is refused as soon as it
reaches an end of the vertical axis.
-/

namespace Seismic

open Double

variable {σ : Type} [Sampled σ Float] {survey : Survey Float}
variable {reference top bottom : Horizon Float σ} {spacing : RawSpacing Float} {index : Nat}
variable {bounds : Bounds Float} {f : Fault}

namespace Layout

theorem Offends.not_fault {e : Failure Float}
    (h : Offends survey reference top bottom spacing index e) : e ≠ .fault f := by
  intro he
  cases h <;> cases he

theorem reached_succ {n : Nat} (hr : Reached survey reference top bottom spacing n)
    (hp : Passes survey reference top bottom spacing n) :
    Reached survey reference top bottom spacing (n + 1) := by
  intro i hi
  rcases Nat.lt_succ_iff_lt_or_eq.mp hi with hlt | rfl
  · exact hr i hlt
  · exact hp

/-- The two reasons for a fault. -/
def Excessive (survey : Survey Float) (reference top bottom : Horizon Float σ)
    (spacing : RawSpacing Float) : Prop :=
  (∃ i < reference.size, Reached survey reference top bottom spacing i ∧
    Unnumbered survey reference top bottom spacing i) ∨
  ∃ n ≤ reference.size, Reached survey reference top bottom spacing n ∧
    2 ^ 61 ≤ lengthBefore (wanted survey reference top bottom spacing) n

theorem Comparable.excessive_of_offsets (h : Comparable survey reference top bottom spacing)
    (he : offsetsOf (windowSize survey reference top bottom spacing) reference.size =
      .error (.fault f)) : Excessive survey reference top bottom spacing := by
  obtain ⟨i, hi, offsets, ho, hcell⟩ := of_offsetsOf_eq_error he
  obtain ⟨hr, -, hback⟩ := h.reached_of_offsets hi.le ho
  by_cases hu : Unnumbered survey reference top bottom spacing i
  · exact Or.inl ⟨i, hi, hr, hu⟩
  have hnone : ∀ e, ¬ Offends survey reference top bottom spacing i e := by
    intro e hoff
    rw [windowSize_of_offends hoff] at hcell
    rcases hcell with hc | ⟨k, hk, -⟩
    · exact hoff.not_fault (Except.error.inj hc)
    · cases hk
  have hp : Passes survey reference top bottom spacing i := ⟨hnone, hu⟩
  refine Or.inr ⟨i + 1, hi, reached_succ hr hp, ?_⟩
  rw [lengthBefore_succ]
  rcases hcell with hc | ⟨k, hk, hge, -⟩
  · rw [h.windowSize_eq hi hp] at hc
    split_ifs at hc with hlt
    unfold signedBound at hlt
    omega
  · obtain ⟨-, rfl⟩ := h.passes_of_windowSize hi hk
    unfold countBound at hge
    omega

end Layout

namespace Subvolume

open Layout

theorem excessive_of_fault (hsmall : reference.size < countBound)
    (h : between survey reference top bottom = .error (.fault f)) :
    Excessive survey reference top bottom survey.lattice := by
  by_cases hs : SameSizes reference top bottom
  swap
  · rw [between_of_layout_error (between_of_sizes hs)] at h
    cases h
  by_cases hg : SameGrids reference top bottom
  swap
  · have hl : Layout.between survey reference top bottom = .error .surfacePlanes := by
      rw [between_eq hs, if_neg hg]
    rw [between_of_layout_error hl] at h
    cases h
  by_cases hstep : Options.isStepsize survey.sample.step = true
  swap
  · have hl : Layout.between survey reference top bottom =
        .error (.badStepsize survey.sample.step) := by
      rw [between_eq hs, if_pos hg, Survey.through_eq, if_neg hstep]
      rfl
    rw [between_of_layout_error hl] at h
    cases h
  have hc : Comparable survey reference top bottom survey.lattice :=
    ⟨hs, hg, by rw [Survey.through_eq, if_pos hstep], hsmall⟩
  cases ho : offsetsOf (windowSize survey reference top bottom survey.lattice) reference.size with
  | error e =>
    rw [between_of_comparable hc, ho] at h
    cases h
    exact hc.excessive_of_offsets ho
  | ok offsets =>
    obtain ⟨hr, -⟩ := hc.reached_of_offsets le_rfl ho
    refine Or.inr ⟨_, le_rfl, hr, ?_⟩
    by_contra hlt
    obtain ⟨s, hok⟩ := (between_of_reached hc hr).1 (Nat.not_le.mp hlt)
    rw [hok] at h
    cases h

/-- A cell with data whose boundaries reach an end of the vertical axis offends. -/
theorem offends_of_end
    (hl : RawSpacing.through survey.sample.step survey.sample.first = .ok spacing)
    (hres : survey.sample.Resolved) (hdata : HasData survey reference top bottom index bounds)
    (ho : bounds.Ordered) (hc : Countable spacing bounds)
    (hend : bounds.top ≤ survey.sample.first ∨ survey.sample.last ≤ bounds.bottom) :
    ∃ first last, Offends survey reference top bottom spacing index
      (.verticalBounds (index / reference.ncols) (index % reference.ncols) bounds.top
        bounds.bottom first last survey.sample.first survey.sample.last) := by
  obtain ⟨first, last, hf, hlast, -⟩ := windowOf_of_countable hl ho hc
  refine ⟨first, last, .verticalBounds hdata ho hf hlast ?_⟩
  rcases hend with htop | hbottom
  · exact Or.inl (RawSpacing.topSample_lt hl hres htop hf)
  · exact Or.inr (RawSpacing.lt_bottomSample hl hres hbottom hlast)

/-- When laying out ends in a fault, whatever the depths are.  The first cell at which a
boundary is clamped to 64 bits is a fault, although its boundary lies beyond the vertical axis.
Other cells with a boundary at an end of the axis or beyond it are refused, if the steps of the
axis are longer than two tolerances. -/
theorem fault_of_between (hsmall : reference.size < countBound) :
    (∀ f, between survey reference top bottom = .error (.fault f) →
      Excessive survey reference top bottom survey.lattice) ∧
    (SameSizes reference top bottom → SameGrids reference top bottom →
      Options.isStepsize survey.sample.step = true →
      ∀ i < reference.size, Reached survey reference top bottom survey.lattice i →
      Addressed (wanted survey reference top bottom survey.lattice) i →
      ∀ bounds, HasData survey reference top bottom i bounds → bounds.Ordered →
        (¬ Countable survey.lattice bounds →
          between survey reference top bottom = .error (.fault .overflow)) ∧
        (Countable survey.lattice bounds → survey.sample.Resolved →
          bounds.top ≤ survey.sample.first ∨ survey.sample.last ≤ bounds.bottom →
          ∃ first last, between survey reference top bottom =
            .error (.verticalBounds (i / reference.ncols) (i % reference.ncols) bounds.top
              bounds.bottom first last survey.sample.first survey.sample.last))) := by
  refine ⟨fun f h => excessive_of_fault hsmall h, ?_⟩
  intro hs hg hstep i hi hr ha bounds hdata ho
  have hl : RawSpacing.through survey.sample.step survey.sample.first = .ok survey.lattice := by
    rw [Survey.through_eq, if_pos hstep]
  have hc : Comparable survey reference top bottom survey.lattice := ⟨hs, hg, hl, hsmall⟩
  constructor
  · intro hn
    exact between_of_windowSize_error hc hi hr ha
      (windowSize_of_unnumbered hl ⟨bounds, hdata, ho, hn⟩)
  · intro hcount hres hend
    obtain ⟨first, last, hoff⟩ := offends_of_end hl hres hdata ho hcount hend
    exact ⟨first, last, between_of_windowSize_error hc hi hr ha (windowSize_of_offends hoff)⟩

/-- Windows within the survey, and one that begins at the first sample. -/
theorem fault_of_small :
    (¬ ∃ f, between .small (.ofInts [16, 18]) (.ofInts [12, -999]) (.ofInts [20, 18]) =
      .error (.fault f)) ∧
    ∃ first last, between .small (.ofInts [16]) (.ofInts [0]) (.ofInts [20]) =
      .error (.verticalBounds 0 0 (Single.ofInt 0).toDouble (Single.ofInt 20).toDouble first last
        (Float.ofInt 0) (Float.ofInt 36)) := by
  constructor
  · rintro ⟨f, hf⟩
    have hnum : ∀ i < 2, ¬ Unnumbered .small (.ofInts [16, 18]) (.ofInts [12, -999])
        (.ofInts [20, 18]) Survey.small.lattice i := by decide +kernel
    have htotal : lengthBefore (wanted .small (.ofInts [16, 18]) (.ofInts [12, -999])
        (.ofInts [20, 18]) Survey.small.lattice) 2 = 7 := by decide +kernel
    obtain ⟨h, -⟩ := @fault_of_between Single _ .small (.ofInts [16, 18]) (.ofInts [12, -999])
      (.ofInts [20, 18]) (by decide)
    rcases h f hf with ⟨i, hi, -, hu⟩ | ⟨n, hn, -, hge⟩
    · exact hnum i hi hu
    · have hle := lengthBefore_mono (wanted .small (.ofInts [16, 18]) (.ofInts [12, -999])
        (.ofInts [20, 18]) Survey.small.lattice) hn
      have := (hge.trans hle).trans htotal.le
      omega
  · have hdata : HasData .small (.ofInts [16]) (.ofInts [0]) (.ofInts [20]) 0 _ :=
      ⟨⟨_, _, _, rfl, rfl, rfl, by decide +kernel, by decide +kernel, by decide +kernel, rfl⟩, _,
        rfl, by decide +kernel⟩
    obtain ⟨-, h⟩ := @fault_of_between Single _ .small (.ofInts [16]) (.ofInts [0])
      (.ofInts [20]) (by decide)
    exact (h (by decide) (by decide +kernel) (by decide +kernel) 0 (by decide)
      (fun j hj => absurd hj (Nat.not_lt_zero j)) (.of_lt (by decide)) _ hdata
      (by decide +kernel)).2
      (by decide +kernel) Survey.small_resolved (Or.inl (by decide +kernel))

/-- A top that is far away, as undefined depths often are. -/
theorem fault_of_far : ¬ ∀ (survey : Survey Float) (reference top bottom : Horizon Float Single),
    reference.size < countBound → ∀ f, between survey reference top bottom ≠ .error (.fault f) := by
  intro hall
  have hfault : between .small (.ofInts [16]) (.ofInts [-10 ^ 30]) (.ofInts [20]) =
      .error (.fault .overflow) := by
    have hdata : HasData .small (.ofInts [16]) (.ofInts [-10 ^ 30]) (.ofInts [20]) 0 _ :=
      ⟨⟨_, _, _, rfl, rfl, rfl, by decide +kernel, by decide +kernel, by decide +kernel, rfl⟩, _,
        rfl, by decide +kernel⟩
    have hwindow : windowSize .small (.ofInts [16]) (.ofInts [-10 ^ 30]) (.ofInts [20])
        Survey.small.lattice 0 = .error (.fault .overflow) :=
      windowSize_of_unnumbered (by rw [Survey.through_eq, if_pos (by decide +kernel)])
        ⟨_, hdata, by decide +kernel, by decide +kernel⟩
    exact between_of_windowSize_error
      ⟨by decide, by decide +kernel, by rw [Survey.through_eq, if_pos (by decide +kernel)],
        by decide⟩ (by decide) (fun j hj => absurd hj (Nat.not_lt_zero j)) (.of_lt (by decide))
      hwindow
  exact hall .small (.ofInts [16]) (.ofInts [-10 ^ 30]) (.ofInts [20]) (by decide) .overflow hfault

end Subvolume
end Seismic
