import Seismic.Proofs.Reference
import Seismic.Proofs.Subvolume.Offsets
import Seismic.Proofs.Subvolume.Reduce

/-!
# Attributes of laid-out subvolumes

In a subvolume that has been laid out over a survey every attribute that can be computed has
a value on every column.  So a reduction fails only where a column cannot be resampled, and
its outcome does not depend on how the cells are cut into runs.
-/

namespace Seismic

open Double

variable {survey : Survey Float} {reference top bottom : Horizon Float Single}

namespace Subvolume

variable {s : Subvolume Float Single} {h : Float} {spacing : ResampledSpacing Float}

theorem defined_of_between (hl : Layout.between survey reference top bottom = .ok s.layout)
    (hs : ResampledSpacing.ofStepsize h = .ok spacing) {k : Attribute}
    (hk : k.isAvailable = true) : s.Defined spacing k 0 s.layout.cells := by
  intro i _ hi he c hc
  obtain ⟨heq, hacc⟩ := ResampledSpacing.ofStepsize_eq_ok hs
  obtain ⟨-, -, -, hraw, -⟩ := Layout.between_eq_ok hl
  obtain ⟨bounds, hb, -, hfit⟩ := Layout.fitsSurvey_of_not_isEmpty hl hi he
  obtain ⟨bounds', n, hb', hsp, hbd, hn⟩ := freshColumn_eq_ok hc
  cases hb.symm.trans hb'
  obtain ⟨-, hr, -⟩ := hfit.finite hraw
  obtain ⟨m, hm⟩ := ResampledSpacing.exists_countAbove hacc (by rw [heq]) hr hfit.top_le
    hfit.le_bottom hn
  refine Attribute.exists_reduce hk (n := m) ?_
  unfold ResampledSegment.referenceIndex
  rw [hsp, hbd]
  exact hm

/-- Reducing a laid-out subvolume, whatever its samples are.  It succeeds if, and only if,
the column of every cell with data can be resampled by a new spline into a new segment.
Every output then has the contribution of every cell in its place, so that neither the size
of the partitions nor the other attributes matter.  Reducing a range of cells into whole
outputs stores the same contributions in the range and nothing outside it. -/
theorem reduce_of_between (hl : Layout.between survey reference top bottom = .ok s.layout)
    (hs : ResampledSpacing.ofStepsize h = .ok spacing) {kinds : List Attribute}
    {buffers : List (Array Single)} {size : Nat} (hq : s.WellPosed kinds buffers size) :
    ((∃ outs, s.reduce spacing kinds buffers size = .ok outs) ↔
      ∀ i < s.layout.cells, s.Reducible spacing i) ∧
    (∀ outs, s.reduce spacing kinds buffers size = .ok outs →
      List.Forall₂ (s.Complete spacing s.layout.cells) kinds outs) ∧
    (∀ kinds' buffers' size' outs outs', s.WellPosed kinds' buffers' size' →
      s.reduce spacing kinds buffers size = .ok outs →
      s.reduce spacing kinds' buffers' size' = .ok outs' →
      ∀ (a a' : Nat) k, kinds[a]? = some k → kinds'[a']? = some k → outs[a]? = outs'[a']?) ∧
    ∀ os : List (Output Single), (∀ o ∈ os, o.kind.isAvailable = true ∧ o.offset = 0 ∧
        o.values.size = s.layout.cells) →
      ∀ lower upper, lower ≤ upper → upper ≤ s.layout.cells →
        ((∃ os', s.reduceRange spacing os lower upper = .ok os') ↔
          ∀ i, lower ≤ i → i < upper → s.Reducible spacing i) ∧
        ∀ os', s.reduceRange spacing os lower upper = .ok os' →
          List.Forall₂ (s.Filled spacing lower upper) os os' := by
  have he : ∀ i < s.layout.cells, ∃ e, s.layout.isEmpty i = .ok e :=
    fun i hi => Layout.exists_isEmpty hi
  refine ⟨?_, fun outs => reduce_eq_ok hq, ?_, ?_⟩
  · exact exists_reduce hq he fun k hk => defined_of_between hl hs (hq.available k hk)
  · intro kinds' buffers' size' outs outs' hq' h₁ h₂ a a' k hk hk'
    have hc₁ := List.forall₂_iff_get.mp (reduce_eq_ok hq h₁)
    have hc₂ := List.forall₂_iff_get.mp (reduce_eq_ok hq' h₂)
    obtain ⟨ha, rfl⟩ := List.getElem?_eq_some_iff.mp hk
    obtain ⟨ha', hkk⟩ := List.getElem?_eq_some_iff.mp hk'
    have hx := hc₁.2 a ha (hc₁.1 ▸ ha)
    have hy := hc₂.2 a' ha' (hc₂.1 ▸ ha')
    rw [List.get_eq_getElem, List.get_eq_getElem] at hx hy
    rw [hkk] at hy
    rw [List.getElem?_eq_getElem (hc₁.1 ▸ ha), List.getElem?_eq_getElem (hc₂.1 ▸ ha'),
      hx.unique hy]
  · intro os ho lower upper hlu hu
    refine ⟨exists_reduceRange hlu hu ⟨?_, ?_, ?_⟩, fun os' h' => (reduceRange_eq_ok h').2.2⟩
    · exact fun i _ hi => he i (Nat.lt_of_lt_of_le hi hu)
    · intro o hm i _ hi
      obtain ⟨-, hoff, hsize⟩ := ho o hm
      rw [hoff, hsize]
      exact ⟨Nat.zero_le i, by omega⟩
    · intro o hm i _ hi
      exact defined_of_between hl hs (ho o hm).1 i (Nat.zero_le i) (Nat.lt_of_lt_of_le hi hu)

theorem reduce_of_small : ∃ (s : Subvolume Float Single) (spacing : ResampledSpacing Float)
      (outs : List (Array Single)),
    Layout.between .small (.ofInts [16, 18]) (.ofInts [16, -999]) (.ofInts [16, 18]) =
        .ok s.layout ∧
      ResampledSpacing.ofStepsize (Float.ofInt 4) = .ok spacing ∧
      s.WellPosed [.value, .mean] [#[.ofInt 1, .ofInt 2], #[.ofInt 3, .ofInt 4]] 1 ∧
      s.reduce spacing [.value, .mean] [#[.ofInt 1, .ofInt 2], #[.ofInt 3, .ofInt 4]] 1 =
        .ok outs ∧
      List.Forall₂ (s.Complete spacing 2) [.value, .mean] outs := by
  obtain ⟨l, hl, hcells, outs, ho, -⟩ : ∃ l : Layout Float Single,
      Layout.between .small (.ofInts [16, 18]) (.ofInts [16, -999]) (.ofInts [16, 18]) = .ok l ∧
      l.cells = 2 ∧ ∃ outs, (⟨l, Array.replicate l.total (.ofInt 5)⟩ : Subvolume Float Single).reduce
        ⟨⟨Float.ofInt 4, 0⟩⟩ [.value, .mean] [#[.ofInt 1, .ofInt 2], #[.ofInt 3, .ofInt 4]] 1 =
          .ok outs ∧ True := by
    decide +kernel
  have hs : ResampledSpacing.ofStepsize (Float.ofInt 4) = .ok ⟨⟨Float.ofInt 4, 0⟩⟩ := by rfl
  have hq : (⟨l, Array.replicate l.total (.ofInt 5)⟩ : Subvolume Float Single).WellPosed
      [.value, .mean] [#[.ofInt 1, .ofInt 2], #[.ofInt 3, .ofInt 4]] 1 :=
    ⟨by decide, rfl, by simp [hcells], Nat.one_pos⟩
  refine ⟨_, _, outs, hl, hs, hq, ho, ?_⟩
  rw [← hcells]
  exact (reduce_of_between hl hs hq).2.1 outs ho

end Subvolume
end Seismic
