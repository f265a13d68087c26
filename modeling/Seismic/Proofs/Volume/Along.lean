import Seismic.Proofs.Volume.Between
import Seismic.Proofs.Volume.Fetch

/-!
# The window along a horizon

The boundaries of the window along a horizon are the horizon moved by two distances.  A depth
that is moved onto the fill value is lost: the cell then counts as one without a depth.  Every
other cell with a depth over the volume is computed.
-/

namespace Seismic

namespace Horizon

variable {α σ : Type} [Scalar α] [Sampled σ α] {h : Horizon α σ} {distance t : σ} {index : Nat}

theorem valueAt_shifted (ht : (h.shifted distance).valueAt index = .ok t) :
    ∃ r, h.valueAt index = .ok r ∧ t = if h.isFill r then r else Sampled.add r distance := by
  obtain ⟨hb, ht⟩ := valueAt_eq_ok.mp ht
  have hmap : (h.shifted distance).values = h.values.map fun value =>
    if h.isFill value then value else Sampled.add value distance := rfl
  rw [hmap, Array.getElem?_map, Option.map_eq_some_iff] at ht
  obtain ⟨r, hr, rfl⟩ := ht
  exact ⟨r, valueAt_eq_ok.mpr ⟨hb, hr⟩, rfl⟩

/-- A shifted horizon has no depth where there was none, and where the fill value is hit. -/
theorem isFill_shifted {r : σ} : (h.shifted distance).isFill
      (if h.isFill r then r else Sampled.add r distance) =
    (h.isFill r || h.isFill (Sampled.add r distance)) := by
  show h.isFill (if h.isFill r then r else Sampled.add r distance) = _
  cases hr : h.isFill r with
  | true => rw [if_pos rfl, hr, Bool.true_or]
  | false => rw [if_neg Bool.false_ne_true, Bool.false_or]

end Horizon

/-! ## Cells without data -/

variable {v : Volume Float Single} {reference : Horizon Float Single} {above below : Single}

/-- Whether the window along a horizon is taken for one without data, by the depth and the
world position of its cell. -/
def Volume.isBlank (v : Volume Float Single) (reference : Horizon Float Single)
    (above below depth : Single) (world : Point Float) : Bool :=
  reference.isFill depth || !v.survey.holdsTrace (v.survey.transformer.indexOfWorld world) ||
    reference.isFill (Sampled.add depth (Sampled.neg above)) ||
    reference.isFill (Sampled.add depth below)

theorem Layout.isEmpty_along {l : Layout Float Single} {i : Nat}
    (h : Layout.between v.survey reference (reference.shifted (Sampled.neg above))
      (reference.shifted below) = .ok l) (hi : i < reference.size) :
    ∃ r world, reference.values[i]? = some r ∧ reference.cellToWorld i = .ok world ∧
      l.isEmpty i = .ok (v.isBlank reference above below r world) := by
  obtain ⟨_, _, -, -, hcases⟩ := Layout.cell_cases h hi
  rcases hcases with
    ⟨⟨r, t, b, world, hr, ht, hb, hw, hvoid⟩, -, he⟩ | ⟨_, hdata, -, -, -, he⟩
  · obtain ⟨r₁, hr₁, rfl⟩ := Horizon.valueAt_shifted ht
    obtain ⟨r₂, hr₂, rfl⟩ := Horizon.valueAt_shifted hb
    cases hr.symm.trans hr₁
    cases hr.symm.trans hr₂
    rw [Horizon.isFill_shifted, Horizon.isFill_shifted, Bool.or_eq_true, Bool.or_eq_true] at hvoid
    refine ⟨r, world, (Horizon.valueAt_eq_ok.mp hr).2, hw, he.trans (congrArg Except.ok ?_)⟩
    unfold Volume.isBlank
    rcases hvoid with hv | (hv | hv) | (hv | hv) | hv <;> simp [hv]
  · obtain ⟨r, t, b, hr, ht, hb, hfr, hft, hfb, -⟩ := hdata.depths
    obtain ⟨world, hw, htrace⟩ := hdata.trace
    obtain ⟨r₁, hr₁, rfl⟩ := Horizon.valueAt_shifted ht
    obtain ⟨r₂, hr₂, rfl⟩ := Horizon.valueAt_shifted hb
    cases hr.symm.trans hr₁
    cases hr.symm.trans hr₂
    rw [Horizon.isFill_shifted, Bool.or_eq_false_iff] at hft hfb
    refine ⟨r, world, (Horizon.valueAt_eq_ok.mp hr).2, hw, he.trans (congrArg Except.ok ?_)⟩
    simp [Volume.isBlank, hfr, hft.2, hfb.2, htrace]

namespace Subvolume

variable {α σ : Type} [Scalar α] [Sampled σ α] [Root α] [Limits α]
variable {s : Subvolume α σ} {spacing : ResampledSpacing α} {i n : Nat}

theorem Complete.getElem?_of_isEmpty {kind : Attribute} {xs : Array σ}
    (h : s.Complete spacing n kind xs) (hi : i < n) (he : s.layout.isEmpty i = .ok true) :
    xs[i]? = some s.layout.fill := by
  obtain ⟨x, hx, hxs⟩ := h.2 i hi
  cases hx.symm.trans (cellValue_of_empty he)
  exact hxs

theorem Complete.getElem?_of_not_isEmpty {kind : Attribute} {xs : Array σ}
    (h : s.Complete spacing n kind xs) (hi : i < n) (he : s.layout.isEmpty i = .ok false) :
    ∃ c x, s.freshColumn spacing i = .ok c ∧ kind.reduce c = .ok x ∧
      xs[i]? = some (Sampled.narrow x) := by
  obtain ⟨x, hx, hxs⟩ := h.2 i hi
  unfold cellValue at hx
  rw [he, ok_bind, if_neg Bool.false_ne_true] at hx
  obtain ⟨c, hc, hx⟩ := bind_eq_ok.mp hx
  obtain ⟨y, hy, hx⟩ := bind_eq_ok.mp hx
  cases pure_eq_ok.mp hx
  exact ⟨c, y, hc, hy, hxs⟩

end Subvolume

/-- The attributes along a horizon, where they can be computed.  A cell has no data, and the
fill value in every output, if and only if it has no depth, or the volume no trace there, or
one of the distances takes its depth to the fill value.  Every other cell has in each output
the attribute of its column, resampled from what was fetched for it. -/
theorem Volume.along_eq_ok {options : Options Float} {outs : List (Array Single)}
    (h : v.along reference above below options = .ok outs) :
    ∃ (s : Subvolume Float Single) (spacing : ResampledSpacing Float),
      ResampledSpacing.ofStepsize (options.stepsizeFor v.survey) = .ok spacing ∧
      (∃ blank, Subvolume.between v.survey reference (reference.shifted (Sampled.neg above))
        (reference.shifted below) = .ok blank ∧
          v.fetch blank options.partitionSize = (.ok (), s)) ∧
      (∀ xs ∈ outs, xs.size = reference.size) ∧
      ∀ i < reference.size, ∃ r world, reference.values[i]? = some r ∧
        reference.cellToWorld i = .ok world ∧
        s.layout.isEmpty i = .ok (v.isBlank reference above below r world) ∧
        List.Forall₂ (fun kind xs => if v.isBlank reference above below r world then
            xs[i]? = some reference.fill
          else ∃ c x, s.freshColumn spacing i = .ok c ∧ kind.reduce c = .ok x ∧
            xs[i]? = some (Sampled.narrow x)) options.attributes outs := by
  unfold along at h
  obtain ⟨-, h⟩ := check_eq_ok.mp h
  obtain ⟨s, spacing, hr⟩ := exists_reduced h
  have hcells := Layout.cells_eq hr.layout
  have houts := hr.outs
  rw [hcells] at houts
  refine ⟨s, spacing, hr.stepsize, hr.fetched, fun xs hxs => ?_, fun i hi => ?_⟩
  · obtain ⟨kind, -, hc⟩ := exists_of_forall₂ houts hxs
    exact hc.1
  · obtain ⟨r, world, hv, hw, he⟩ := Layout.isEmpty_along hr.layout hi
    refine ⟨r, world, hv, hw, he, houts.imp fun kind xs hc => ?_⟩
    split_ifs with hb
    · rw [hb] at he
      have hfill : s.layout.fill = reference.fill := by
        rw [Layout.fill, (Layout.between_eq_ok hr.layout).1]
      rw [hc.getElem?_of_isEmpty hi he, hfill]
    · rw [Bool.not_eq_true] at hb
      rw [hb] at he
      exact hc.getElem?_of_not_isEmpty hi he

theorem Volume.along_of_single : ∃ outs, (Volume.zeros .small).along
    (.ofInts [16]) (.ofInt 0) (.ofInt 4) { attributes := [.value, .mean] } = .ok outs ∧
      outs.length = 2 ∧ ∀ xs ∈ outs, xs.size = 1 := by
  obtain ⟨outs, h, hlen⟩ : ∃ outs, (Volume.zeros .small).along (.ofInts [16]) (.ofInt 0)
      (.ofInt 4) { attributes := [.value, .mean] } = .ok outs ∧ outs.length = 2 := by
    decide +kernel
  obtain ⟨-, -, -, -, hsize, -⟩ := along_eq_ok h
  exact ⟨outs, h, hlen, hsize⟩

/-- A horizon at the depth 12 with the fill value 20: a window that reaches 8 below it is
taken for one without data. -/
def Horizon.nearFill : Horizon Float Single :=
  { Horizon.ofInts [12] with fill := .ofInt 20 }

theorem Volume.along_blanked : ¬ ∀ (v : Volume Float Single) (reference : Horizon Float Single)
    (above below : Single) (options : Options Float) (outs : List (Array Single))
    (s : Subvolume Float Single), v.along reference above below options = .ok outs →
      Subvolume.between v.survey reference (reference.shifted (Sampled.neg above))
        (reference.shifted below) = .ok s →
      (∀ r ∈ reference.values, Scalar.isUndefined (Sampled.widen r) = false) →
      Scalar.isUndefined (Sampled.widen reference.fill) = false →
      ∀ i r world, reference.values[i]? = some r → reference.cellToWorld i = .ok world →
        (s.layout.isEmpty i = .ok true ↔ reference.isFill r = true ∨
          v.survey.holdsTrace (v.survey.transformer.indexOfWorld world) = false) := by
  intro hall
  obtain ⟨outs, hout, -⟩ : ∃ outs, (Volume.zeros .small).along .nearFill (.ofInt 0) (.ofInt 8)
      { attributes := [.value] } = .ok outs ∧ True := by decide +kernel
  obtain ⟨s, hs, he⟩ : ∃ s, Subvolume.between (Volume.zeros .small).survey .nearFill
      (Horizon.nearFill.shifted (Sampled.neg (.ofInt 0))) (Horizon.nearFill.shifted (.ofInt 8)) =
        .ok s ∧ s.layout.isEmpty 0 = .ok true := by decide +kernel
  obtain ⟨world, hw, htrace⟩ : ∃ world, Horizon.nearFill.cellToWorld 0 = .ok world ∧
      (Volume.zeros .small).survey.holdsTrace
        ((Volume.zeros .small).survey.transformer.indexOfWorld world) = true := by decide +kernel
  have hdefined : ∀ r ∈ Horizon.nearFill.values, Scalar.isUndefined (Sampled.widen r) = false := by
    intro r hr
    rw [show Horizon.nearFill.values = #[Single.ofInt 12] from rfl, Array.mem_singleton] at hr
    rw [hr]
    decide +kernel
  rcases (hall _ _ _ _ _ outs s hout hs hdefined (by decide +kernel) 0 (.ofInt 12) world rfl
    hw).mp he with hfill | hoff
  · exact absurd hfill (by decide +kernel)
  · rw [htrace] at hoff
    cases hoff

end Seismic
