import Seismic.Binary.Single
import Seismic.Proofs.Subvolume.Bounds
import Seismic.Proofs.Subvolume.Cells

/-!
# The offset table

An empty window stands for a cell without data.  This is sound because a window over a
volume has two further samples at each end: whatever its boundaries are, it holds at least
four samples.
-/

namespace Seismic

/-- A cell of a layout lacks data and has an empty window, or it has data and a window of
at least four samples within the survey. -/
theorem Layout.cell_cases {survey : Survey Float} {reference top bottom : Horizon Float Single}
    {l : Layout Float Single} (h : Layout.between survey reference top bottom = .ok l) {i : Nat}
    (hi : i < reference.size) :
    ∃ first n, l.offsets[i]? = some first ∧ l.offsets[i + 1]? = some (first + n) ∧
      ((Layout.LacksData survey reference top bottom i ∧ n = 0 ∧ l.isEmpty i = .ok true) ∨
        ∃ bounds, Layout.HasData survey reference top bottom i bounds ∧
          Layout.FitsSurvey survey l.spacing bounds ∧
          l.spacing.count bounds.top bounds.bottom = .ok n ∧ 4 ≤ n ∧
          l.isEmpty i = .ok false) := by
  obtain ⟨-, -, -, hs, hc⟩ := Layout.between_eq_ok h
  obtain ⟨first, n, hn, ha, hb⟩ := hc.step i hi
  refine ⟨first, n, ha, hb, ?_⟩
  rw [Layout.isEmpty_of_offsets ha hb]
  rcases Layout.windowSize_eq_ok hn with ⟨hvoid, rfl⟩ | ⟨bounds, hdata, hfit, hcount⟩
  · exact Or.inl ⟨hvoid, rfl, by rw [Nat.add_zero, beq_self_eq_true]⟩
  · have h4 := Layout.four_le_count hs hfit hcount
    exact Or.inr ⟨bounds, hdata, hfit, hcount, h4, by rw [beq_eq_false_iff_ne.mpr (by omega)]⟩

/-- Offsets begin at zero, never decrease and end at the number of samples.  A cell without
data has an empty window.  Any other cell has the window that the raw spacing counts between
its boundaries, which is never empty. -/
theorem Subvolume.offsets_of_between {survey : Survey Float}
    {reference top bottom : Horizon Float Single} {s : Subvolume Float Single}
    (h : Subvolume.between survey reference top bottom = .ok s) :
    RawSpacing.through survey.sample.step survey.sample.first = .ok s.layout.spacing ∧
    s.layout.offsets.size = reference.size + 1 ∧
    s.layout.offsets[0]? = some 0 ∧
    (∀ i j, i ≤ j → j ≤ reference.size →
      s.layout.offsets.getD i 0 ≤ s.layout.offsets.getD j 0) ∧
    s.layout.offsets[reference.size]? = some s.data.size ∧
    ∀ i < reference.size, ∃ first n r t b world,
      s.layout.offsets[i]? = some first ∧ s.layout.offsets[i + 1]? = some (first + n) ∧
      reference.values[i]? = some r ∧ top.values[i]? = some t ∧ bottom.values[i]? = some b ∧
      reference.cellToWorld i = .ok world ∧
      if reference.isFill r || top.isFill t || bottom.isFill b ||
          !survey.holdsTrace (survey.transformer.indexOfWorld world) then
        n = 0 ∧ s.layout.isEmpty i = .ok true
      else
        s.layout.spacing.count t.toDouble b.toDouble = .ok n ∧ 4 ≤ n ∧
          s.layout.isEmpty i = .ok false := by
  obtain ⟨hl, hsize⟩ := Subvolume.between_eq_ok h
  obtain ⟨-, -, -, hs, hc⟩ := Layout.between_eq_ok hl
  refine ⟨hs, hc.size, hc.first, fun i j => hc.mono, ?_, ?_⟩
  · rw [hsize, hc.getElem?_last]
    rfl
  intro i hi
  obtain ⟨first, n, ha, hb, hcases⟩ := Layout.cell_cases hl hi
  rcases hcases with
    ⟨⟨r, t, b, world, hr, ht, hb', hw, hvoid⟩, hn, he⟩ | ⟨bounds, hdata, -, hcount, h4, he⟩
  · refine ⟨first, n, r, t, b, world, ha, hb, (Horizon.valueAt_eq_ok.mp hr).2,
      (Horizon.valueAt_eq_ok.mp ht).2, (Horizon.valueAt_eq_ok.mp hb').2, hw, ?_⟩
    rw [if_pos (by rcases hvoid with hv | hv | hv | hv <;> simp [hv])]
    exact ⟨hn, he⟩
  · obtain ⟨r, t, b, hr, ht, hb', hfr, hft, hfb, rfl⟩ := hdata.depths
    obtain ⟨world, hw, htrace⟩ := hdata.trace
    refine ⟨first, n, r, t, b, world, ha, hb, (Horizon.valueAt_eq_ok.mp hr).2,
      (Horizon.valueAt_eq_ok.mp ht).2, (Horizon.valueAt_eq_ok.mp hb').2, hw, ?_⟩
    rw [if_neg (by simp [hfr, hft, hfb, htrace])]
    exact ⟨hcount, h4, he⟩

/-! ## A small survey -/

def Axis.ofInts (first last : ℤ) (nsamples : Nat) : Axis Float :=
  ⟨Float.ofInt first, Float.ofInt last, nsamples, "", "", 0⟩

def Affine.id : Affine Float :=
  ⟨Float.ofInt 1, Float.ofInt 0, Float.ofInt 0, Float.ofInt 0, Float.ofInt 1, Float.ofInt 0⟩

/-- Nine traces of ten samples, four apart, with world positions that are the indices. -/
def Survey.small : Survey Float where
  iline := .ofInts 1 3 3
  xline := .ofInts 1 3 3
  sample := .ofInts 0 36 10
  crs := ""
  inputFile := ""
  importedAt := none
  transformer := ⟨.id, .id, Float.ofInt 1, Float.ofInt 1, Float.ofInt 1, Float.ofInt 1⟩

def Single.ofInt (n : ℤ) : Single := .ofDouble (Float.ofInt n)

/-- A horizon along the first inline.  Cells without a depth hold `-999`. -/
def Horizon.ofInts (depths : List ℤ) : Horizon Float Single where
  grid := ⟨⟨.id, .id⟩, 1, depths.length⟩
  values := (depths.map Single.ofInt).toArray
  fill := .ofInt (-999)
  values_size := by simp

theorem Subvolume.offsets_of_small : ∃ s,
    Subvolume.between .small (.ofInts [16, 18]) (.ofInts [12, -999]) (.ofInts [20, 18]) = .ok s ∧
      s.layout.offsets.size = 3 ∧ s.layout.offsets[2]? = some s.data.size := by
  obtain ⟨s, hs, -⟩ : ∃ s, Subvolume.between .small (.ofInts [16, 18]) (.ofInts [12, -999])
    (.ofInts [20, 18]) = .ok s ∧ True := by decide +kernel
  obtain ⟨-, hsize, -, -, hlast, -⟩ := Subvolume.offsets_of_between hs
  exact ⟨s, hs, hsize, hlast⟩

end Seismic
