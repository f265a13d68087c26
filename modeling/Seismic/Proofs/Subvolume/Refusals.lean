import Seismic.Proofs.Subvolume.Offsets
import Seismic.Proofs.Subvolume.Verdicts

/-!
# What a layout is refused for

The horizons have to have the same cells.  Then the first cell that offends decides, whatever
comes after it.  If none does, the samples of all windows have to be addressable.
-/

namespace Seismic

open Double

variable {σ : Type}

namespace Layout

variable {α : Type}

/-! ## Horizons with the same cells -/

def SameSizes (reference top bottom : Horizon α σ) : Prop :=
  (top.nrows = reference.nrows ∧ top.ncols = reference.ncols) ∧
    bottom.nrows = reference.nrows ∧ bottom.ncols = reference.ncols

instance (reference top bottom : Horizon α σ) : Decidable (SameSizes reference top bottom) :=
  inferInstanceAs (Decidable (_ ∧ _))

variable {reference top bottom : Horizon α σ}

theorem sameSizes_iff : (((top.nrows == reference.nrows && top.ncols == reference.ncols) &&
    (bottom.nrows == reference.nrows && bottom.ncols == reference.ncols))) = true ↔
      SameSizes reference top bottom := by
  simp only [Bool.and_eq_true, beq_iff_eq]
  exact Iff.rfl

theorem exists_valueAt {h : Horizon α σ} {index : Nat} (hn : h.size < countBound)
    (hi : index < h.size) : ∃ v, h.valueAt index = .ok v := by
  refine ⟨h.values[index], Horizon.valueAt_eq_ok.mpr ⟨?_, Array.getElem?_eq_getElem hi⟩⟩
  rw [← h.values_size]
  exact hn

theorem SameSizes.size_eq (hs : SameSizes reference top bottom) :
    top.size = reference.size ∧ bottom.size = reference.size := by
  obtain ⟨⟨htr, htc⟩, hbr, hbc⟩ := hs
  unfold Horizon.size
  rw [top.values_size, bottom.values_size, reference.values_size]
  exact ⟨congrArg₂ _ htr htc, congrArg₂ _ hbr hbc⟩

variable [Scalar α]

/-- Grids are compared as the numbers in them are. -/
def SameGrids (reference top bottom : Horizon α σ) : Prop :=
  (reference.grid == top.grid) = true ∧ (reference.grid == bottom.grid) = true

instance (reference top bottom : Horizon α σ) : Decidable (SameGrids reference top bottom) :=
  inferInstanceAs (Decidable (_ ∧ _))

variable [Sampled σ α] {survey : Survey α}

theorem between_of_sizes (h : ¬ SameSizes reference top bottom) :
    between survey reference top bottom = .error .surfaceSizes := by
  refine if_pos ?_
  rw [Bool.not_eq_true', ← Bool.not_eq_true, sameSizes_iff]
  exact h

theorem between_eq (hs : SameSizes reference top bottom) : between survey reference top bottom =
    if SameGrids reference top bottom then do
      let spacing ← RawSpacing.through survey.sample.step survey.sample.first
      let offsets ← offsetsOf (windowSize survey reference top bottom spacing) reference.size
      return ⟨reference, top, bottom, spacing, offsets⟩
    else .error .surfacePlanes := by
  unfold between
  dsimp only
  rw [sameSizes_iff.mpr hs]
  refine (if_neg (by decide)).trans ?_
  by_cases hg : SameGrids reference top bottom
  · rw [if_pos hg]
    refine if_neg ?_
    unfold bne
    rw [hg.1, hg.2]
    decide
  · rw [if_neg hg]
    refine if_pos ?_
    unfold SameGrids at hg
    unfold bne
    rw [← Bool.not_and, Bool.not_eq_true', Bool.and_eq_false_iff]
    simp only [← Bool.not_eq_true]
    exact not_and_or.mp hg

end Layout

/-! ## Runs of cells -/

namespace Layout

variable [Sampled σ Float] {survey : Survey Float} {reference top bottom : Horizon Float σ}
variable {spacing : RawSpacing Float} {index n : Nat}

/-- Horizons with the same cells, which can be counted, over a survey whose step is accepted. -/
structure Comparable (survey : Survey Float) (reference top bottom : Horizon Float σ)
    (spacing : RawSpacing Float) : Prop where
  sizes : SameSizes reference top bottom
  grids : SameGrids reference top bottom
  lattice : RawSpacing.through survey.sample.step survey.sample.first = .ok spacing
  small : reference.size < countBound

/-- Every cell before one passes. -/
def Reached (survey : Survey Float) (reference top bottom : Horizon Float σ)
    (spacing : RawSpacing Float) (n : Nat) : Prop :=
  ∀ i < n, Passes survey reference top bottom spacing i

namespace Comparable

theorem windowSize_eq (h : Comparable survey reference top bottom spacing)
    (hi : index < reference.size) (hp : Passes survey reference top bottom spacing index) :
    windowSize survey reference top bottom spacing index =
      if wanted survey reference top bottom spacing index < signedBound then
        .ok (wanted survey reference top bottom spacing index)
      else .error (.fault .overflow) := by
  obtain ⟨htop, hbottom⟩ := h.sizes.size_eq
  have hn := h.small
  obtain ⟨r, hr⟩ := exists_valueAt hn hi
  obtain ⟨t, ht⟩ := exists_valueAt (htop ▸ hn) (htop ▸ hi)
  obtain ⟨b, hb⟩ := exists_valueAt (hbottom ▸ hn) (hbottom ▸ hi)
  exact windowSize_of_passes h.lattice hr ht hb hp

/-- A cell whose window is sized passes, and its window has the size it should. -/
theorem passes_of_windowSize (h : Comparable survey reference top bottom spacing)
    (hi : index < reference.size) {k : Nat}
    (hk : windowSize survey reference top bottom spacing index = .ok k) :
    Passes survey reference top bottom spacing index ∧
      k = wanted survey reference top bottom spacing index := by
  have hp : Passes survey reference top bottom spacing index := by
    refine ⟨fun e he => ?_, fun hu => ?_⟩
    · rw [windowSize_of_offends he] at hk
      cases hk
    · rw [windowSize_of_unnumbered h.lattice hu] at hk
      cases hk
  rw [h.windowSize_eq hi hp] at hk
  split_ifs at hk
  exact ⟨hp, (Except.ok.inj hk).symm⟩

theorem exists_offsets (h : Comparable survey reference top bottom spacing)
    (hn : n ≤ reference.size) (hr : Reached survey reference top bottom spacing n)
    (ha : Addressed (wanted survey reference top bottom spacing) n) :
    ∃ offsets, offsetsOf (windowSize survey reference top bottom spacing) n = .ok offsets ∧
      offsets.back?.getD 0 = lengthBefore (wanted survey reference top bottom spacing) n := by
  refine offsetsOf_eq_ok (fun i hi => ?_) ha.total
  rw [h.windowSize_eq (by omega) (hr i hi)]
  exact if_pos (ha.each i hi)

theorem reached_of_offsets (h : Comparable survey reference top bottom spacing)
    (hn : n ≤ reference.size) {offsets : Array Nat}
    (ho : offsetsOf (windowSize survey reference top bottom spacing) n = .ok offsets) :
    Reached survey reference top bottom spacing n ∧
      Addressed (wanted survey reference top bottom spacing) n ∧
      offsets.back?.getD 0 = lengthBefore (wanted survey reference top bottom spacing) n := by
  obtain ⟨hsizes, htotal, hback⟩ := of_offsetsOf_eq_ok ho fun i hi k hk =>
    (h.passes_of_windowSize (by omega) hk).2
  have hr : Reached survey reference top bottom spacing n := fun i hi =>
    (h.passes_of_windowSize (by omega) (hsizes i hi)).1
  refine ⟨hr, ⟨fun i hi => ?_, htotal⟩, hback⟩
  have hsize := hsizes i hi
  rw [h.windowSize_eq (by omega) (hr i hi)] at hsize
  split_ifs at hsize with hlt
  exact hlt

/-- Windows that pass and cannot be counted end the layout, whatever comes after them. -/
theorem offsetsOf_of_not_addressed (h : Comparable survey reference top bottom spacing)
    (hn : n ≤ reference.size) (hr : Reached survey reference top bottom spacing n)
    (ha : ¬ Addressed (wanted survey reference top bottom spacing) n) :
    offsetsOf (windowSize survey reference top bottom spacing) reference.size =
      .error (.fault .overflow) := by
  cases ho : offsetsOf (windowSize survey reference top bottom spacing) reference.size with
  | ok offsets => exact absurd ((h.reached_of_offsets le_rfl ho).2.1.mono hn) ha
  | error e =>
    obtain ⟨i, hi, offsets, hbefore, he | ⟨k, -, -, rfl⟩⟩ := of_offsetsOf_eq_error ho
    · have hin : i < n := by
        by_contra hge
        exact ha ((h.reached_of_offsets hi.le hbefore).2.1.mono (Nat.not_lt.mp hge))
      rw [h.windowSize_eq hi (hr i hin)] at he
      split_ifs at he
      cases he
      rfl
    · rfl

end Comparable
end Layout

/-! ## Subvolumes -/

namespace Subvolume

open Layout

variable [Sampled σ Float] {survey : Survey Float} {reference top bottom : Horizon Float σ}
variable {spacing : RawSpacing Float} {index : Nat} {e : Failure Float}

theorem between_of_layout_error (h : Layout.between survey reference top bottom = .error e) :
    between survey reference top bottom = .error e := by
  unfold between
  rw [h]
  rfl

theorem between_of_comparable (h : Comparable survey reference top bottom spacing) :
    between survey reference top bottom =
      (do
        let offsets ← offsetsOf (windowSize survey reference top bottom spacing) reference.size
        ofLayout ⟨reference, top, bottom, spacing, offsets⟩) := by
  unfold between
  rw [between_eq h.sizes, if_pos h.grids, h.lattice, ok_bind]
  cases offsetsOf (windowSize survey reference top bottom spacing) reference.size <;> rfl

theorem between_of_windowSize_error (h : Comparable survey reference top bottom spacing)
    (hi : index < reference.size) (hr : Reached survey reference top bottom spacing index)
    (ha : Addressed (wanted survey reference top bottom spacing) index)
    (he : windowSize survey reference top bottom spacing index = .error e) :
    between survey reference top bottom = .error e := by
  obtain ⟨offsets, ho, -⟩ := h.exists_offsets (by omega) hr ha
  rw [between_of_comparable h, offsetsOf_eq_error hi ho he]
  rfl

theorem between_of_not_addressed (h : Comparable survey reference top bottom spacing)
    (hi : index ≤ reference.size) (hr : Reached survey reference top bottom spacing index)
    (ha : ¬ Addressed (wanted survey reference top bottom spacing) index) :
    between survey reference top bottom = .error (.fault .overflow) := by
  rw [between_of_comparable h, h.offsetsOf_of_not_addressed hi hr ha]
  rfl

/-- Windows that pass are laid out, if the samples of all of them can be addressed. -/
theorem between_of_reached (h : Comparable survey reference top bottom spacing)
    (hr : Reached survey reference top bottom spacing reference.size) :
    (lengthBefore (wanted survey reference top bottom spacing) reference.size < 2 ^ 61 →
      ∃ s, between survey reference top bottom = .ok s) ∧
    (2 ^ 61 ≤ lengthBefore (wanted survey reference top bottom spacing) reference.size →
      ∃ f, between survey reference top bottom = .error (.fault f)) := by
  constructor
  · intro hlt
    have ha : Addressed (wanted survey reference top bottom spacing) reference.size :=
      .of_lt (hlt.trans (by decide))
    obtain ⟨offsets, ho, hback⟩ := h.exists_offsets le_rfl hr ha
    rw [between_of_comparable h]
    refine ⟨_, bind_eq_ok.mpr ⟨offsets, ho, if_pos (decide_eq_true ?_)⟩⟩
    rw [Layout.total, hback]
    unfold signedBound
    omega
  · intro hge
    by_cases ha : Addressed (wanted survey reference top bottom spacing) reference.size
    · obtain ⟨offsets, ho, hback⟩ := h.exists_offsets le_rfl hr ha
      rw [between_of_comparable h, ho]
      refine ⟨.capacity, if_neg fun hfits => ?_⟩
      have hlt := of_decide_eq_true hfits
      rw [Layout.total, hback] at hlt
      unfold signedBound at hlt
      omega
    · exact ⟨.overflow, between_of_not_addressed h le_rfl hr ha⟩

theorem between_of_other_sizes (hs : ¬ SameSizes reference top bottom) :
    between survey reference top bottom = .error .surfaceSizes :=
  between_of_layout_error (between_of_sizes hs)

theorem between_of_other_grids (hs : SameSizes reference top bottom)
    (hg : ¬ SameGrids reference top bottom) :
    between survey reference top bottom = .error .surfacePlanes := by
  refine between_of_layout_error ?_
  rw [between_eq hs, if_neg hg]

/-- Only horizons with the same cells are laid out, -/
theorem same_of_between {s : Subvolume Float σ}
    (hok : between survey reference top bottom = .ok s) :
    SameSizes reference top bottom ∧ SameGrids reference top bottom := by
  by_cases hs : SameSizes reference top bottom
  · by_cases hg : SameGrids reference top bottom
    · exact ⟨hs, hg⟩
    · rw [between_of_other_grids hs hg] at hok
      cases hok
  · rw [between_of_other_sizes hs] at hok
    cases hok

/-- and only windows that pass and whose samples can be addressed. -/
theorem reached_of_between (h : Comparable survey reference top bottom spacing)
    {s : Subvolume Float σ} (hok : between survey reference top bottom = .ok s) :
    Reached survey reference top bottom spacing reference.size ∧
      lengthBefore (wanted survey reference top bottom spacing) reference.size < 2 ^ 61 := by
  have ho := hok
  rw [between_of_comparable h] at ho
  obtain ⟨offsets, ho, -⟩ := bind_eq_ok.mp ho
  obtain ⟨hr, -⟩ := h.reached_of_offsets le_rfl ho
  refine ⟨hr, ?_⟩
  by_contra hge
  obtain ⟨f, hf⟩ := (between_of_reached h hr).2 (Nat.not_lt.mp hge)
  rw [hok] at hf
  cases hf

/-- What decides on a layout, if no sample number is clamped to 64 bits.  It succeeds if, and
only if, the horizons have the same cells, no cell offends and the samples of all windows can
be addressed.  If a cell offends, the failure is that of the first one that does, unless the windows
before it are too large to be counted. -/
theorem between_of_numbered (hstep : Options.isStepsize survey.sample.step = true)
    (hsmall : reference.size < countBound)
    (hnum : ∀ i < reference.size, ¬ Unnumbered survey reference top bottom survey.lattice i) :
    ((∃ s, between survey reference top bottom = .ok s) ↔
      SameSizes reference top bottom ∧ SameGrids reference top bottom ∧
      (∀ i < reference.size, ∀ e, ¬ Offends survey reference top bottom survey.lattice i e) ∧
      lengthBefore (wanted survey reference top bottom survey.lattice) reference.size < 2 ^ 61) ∧
    (¬ SameSizes reference top bottom →
      between survey reference top bottom = .error .surfaceSizes) ∧
    (SameSizes reference top bottom → ¬ SameGrids reference top bottom →
      between survey reference top bottom = .error .surfacePlanes) ∧
    (SameSizes reference top bottom → SameGrids reference top bottom →
      (∀ i < reference.size, ∀ e, Offends survey reference top bottom survey.lattice i e →
        (∀ j < i, ∀ e', ¬ Offends survey reference top bottom survey.lattice j e') →
        (Addressed (wanted survey reference top bottom survey.lattice) i →
          between survey reference top bottom = .error e) ∧
        (¬ Addressed (wanted survey reference top bottom survey.lattice) i →
          between survey reference top bottom = .error (.fault .overflow))) ∧
      ((∀ i < reference.size, ∀ e, ¬ Offends survey reference top bottom survey.lattice i e) →
        2 ^ 61 ≤ lengthBefore (wanted survey reference top bottom survey.lattice) reference.size →
        ∃ f, between survey reference top bottom = .error (.fault f))) := by
  have hl : RawSpacing.through survey.sample.step survey.sample.first = .ok survey.lattice := by
    rw [Survey.through_eq, if_pos hstep]
  have hreached : ∀ n ≤ reference.size,
      (∀ j < n, ∀ e, ¬ Offends survey reference top bottom survey.lattice j e) →
        Reached survey reference top bottom survey.lattice n :=
    fun n hn hnone j hj => ⟨hnone j hj, hnum j (by omega)⟩
  have hcomparable (hs : SameSizes reference top bottom) (hg : SameGrids reference top bottom) :
      Comparable survey reference top bottom survey.lattice := ⟨hs, hg, hl, hsmall⟩
  refine ⟨⟨?_, ?_⟩, between_of_other_sizes, between_of_other_grids, fun hs hg => ⟨?_, ?_⟩⟩
  · rintro ⟨s, hok⟩
    obtain ⟨hs, hg⟩ := same_of_between hok
    obtain ⟨hr, hlt⟩ := reached_of_between (hcomparable hs hg) hok
    exact ⟨hs, hg, fun i hi => (hr i hi).not_offends, hlt⟩
  · rintro ⟨hs, hg, hnone, hlt⟩
    exact (between_of_reached (hcomparable hs hg) (hreached _ le_rfl hnone)).1 hlt
  · intro i hi e he hbefore
    have hr := hreached i hi.le hbefore
    exact ⟨fun ha => between_of_windowSize_error (hcomparable hs hg) hi hr ha
      (windowSize_of_offends he), between_of_not_addressed (hcomparable hs hg) hi.le hr⟩
  · intro hnone hge
    exact (between_of_reached (hcomparable hs hg) (hreached _ le_rfl hnone)).2 hge

/-- A cell that is out of order, and one without a depth. -/
theorem between_of_small_unordered :
    (∀ i < 2, ¬ Unnumbered .small (.ofInts [16, 18]) (.ofInts [17, -999]) (.ofInts [20, 18])
      Survey.small.lattice i) ∧
    Subvolume.between .small (.ofInts [16, 18]) (.ofInts [17, -999]) (.ofInts [20, 18]) =
      .error (.unordered 0 0 (Single.ofInt 17).toDouble (Single.ofInt 16).toDouble
        (Single.ofInt 20).toDouble) := by
  have hnum : ∀ i < 2, ¬ Unnumbered .small (.ofInts [16, 18]) (.ofInts [17, -999])
      (.ofInts [20, 18]) Survey.small.lattice i := by decide +kernel
  have hoffends : Offends .small (.ofInts [16, 18]) (.ofInts [17, -999]) (.ofInts [20, 18])
      Survey.small.lattice 0 _ :=
    .unordered ⟨_, _, _, rfl, rfl, rfl, by decide +kernel, by decide +kernel, by decide +kernel,
      rfl⟩ (by decide +kernel)
  obtain ⟨-, -, -, h⟩ := @between_of_numbered Single _ .small (.ofInts [16, 18])
    (.ofInts [17, -999]) (.ofInts [20, 18]) (by decide +kernel) (by decide) hnum
  exact ⟨hnum, ((h (by decide) (by decide +kernel)).1 0 (by decide) _ hoffends
    fun j hj => absurd hj (Nat.not_lt_zero j)).1 (.of_lt (by decide))⟩

end Subvolume

/-- An axis with more samples than memory can hold. -/
def Survey.deep : Survey Float :=
  { Survey.small with sample := .ofInts 0 (2 ^ 62) (2 ^ 62 + 1) }

namespace Subvolume

open Layout

theorem between_unaddressable : ¬ ∀ (survey : Survey Float)
    (reference top bottom : Horizon Float Single),
    Options.isStepsize survey.sample.step = true → reference.size < countBound →
    (∀ i < reference.size, ¬ Unnumbered survey reference top bottom survey.lattice i) →
    ((∃ s, between survey reference top bottom = .ok s) ↔
      SameSizes reference top bottom ∧ SameGrids reference top bottom ∧
      ∀ i < reference.size, ∀ e,
        ¬ Offends survey reference top bottom survey.lattice i e) := by
  intro hall
  have hwindow : windowSize .deep (.ofInts [2]) (.ofInts [2]) (.ofInts [2 ^ 61])
      Survey.deep.lattice 0 = .ok (2 ^ 61 + 3) := by decide +kernel
  have hbetween : (Subvolume.between .deep (.ofInts [2]) (.ofInts [2])
      (.ofInts [2 ^ 61])).isOk = false := by decide +kernel
  obtain ⟨s, hs⟩ := (hall .deep (.ofInts [2]) (.ofInts [2]) (.ofInts [2 ^ 61]) (by decide +kernel)
    (by decide) (by decide +kernel)).mpr ⟨by decide, by decide +kernel, fun i hi e he => by
      obtain rfl : i = 0 := Nat.lt_one_iff.mp hi
      rw [windowSize_of_offends he] at hwindow
      cases hwindow⟩
  rw [hs] at hbetween
  cases hbetween

end Subvolume
end Seismic
