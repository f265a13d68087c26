import Seismic.Proofs.Subvolume.Cells
import Seismic.Proofs.Subvolume.Reduce
import Seismic.Volume.Attributes

/-!
# The window between two horizons

A request for attributes lays out a subvolume, fetches it and reduces it.  If it succeeds, so
does each of these, and every output has the contribution of every cell.
-/

namespace Seismic

variable {α σ : Type} [Scalar α]

/-- Options that can be worked on. -/
structure Options.Valid (o : Options α) : Prop where
  available : ∀ k ∈ o.attributes, k.isAvailable = true
  pos : 0 < o.partitionSize

theorem Options.valid_of_validate {o : Options α} (h : o.validate = .ok ()) : o.Valid := by
  unfold validate at h
  obtain ⟨-, h⟩ := check_eq_ok.mp h
  cases hfind : o.attributes.find? fun a => !a.isAvailable with
  | some a =>
    rw [hfind] at h
    cases h
  | none =>
    rw [List.find?_eq_none] at hfind
    refine ⟨fun k hk => by simpa using hfind k hk, Nat.pos_of_ne_zero fun h0 => ?_⟩
    rw [h0] at h
    simp only [List.find?_eq_none.mpr hfind] at h
    split at h
    · split at h <;> cases h
    · cases h

/-- Options that cannot be worked on are the fault of the request. -/
theorem Options.category_of_validate {o : Options α} {e : Failure α} (h : o.validate = .error e) :
    e.category? = some .badRequest := by
  unfold validate at h
  by_cases hempty : o.attributes.isEmpty = true
  · rw [if_pos hempty] at h
    cases h
    rfl
  rw [if_neg hempty] at h
  cases hfind : o.attributes.find? fun a => !a.isAvailable with
  | some a =>
    rw [hfind] at h
    cases h
    rfl
  | none =>
    simp only [hfind] at h
    split at h
    · split at h
      · cases h
        rfl
      · split at h <;> cases h
        rfl
    · split at h <;> cases h
      rfl

theorem ResampledSpacing.category_of_ofStepsize {x : α} {e : Failure α}
    (h : ofStepsize x = .error e) : e.category? = some .badRequest := by
  unfold ofStepsize Spacing.ofStepsize at h
  split_ifs at h
  · cases h
  · cases h
    rfl

namespace Volume

variable [Sampled σ α]

/-- Fetching changes samples only. -/
theorem layout_fetch (v : Volume α σ) (s : Subvolume α σ) (size : Nat) :
    (v.fetch s size).2.layout = s.layout := by
  unfold fetch
  cases s.partitions size with
  | error f => rfl
  | ok ps => rfl

variable [Root α] [Limits α]

/-- A subvolume that a request has fetched and reduced to its outputs. -/
structure Reduced (v : Volume α σ) (reference top bottom : Horizon α σ) (options : Options α)
    (s : Subvolume α σ) (spacing : ResampledSpacing α) (outs : List (Array σ)) : Prop where
  valid : options.Valid
  stepsize : ResampledSpacing.ofStepsize (options.stepsizeFor v.survey) = .ok spacing
  layout : Layout.between v.survey reference top bottom = .ok s.layout
  fetched : ∃ blank, Subvolume.between v.survey reference top bottom = .ok blank ∧
    v.fetch blank options.partitionSize = (.ok (), s)
  outs : List.Forall₂ (s.Complete spacing s.layout.cells) options.attributes outs

theorem exists_reduced {v : Volume α σ} {reference top bottom : Horizon α σ}
    {options : Options α} {outs : List (Array σ)}
    (h : v.attributesBetween reference top bottom options = .ok outs) :
    ∃ s spacing, Reduced v reference top bottom options s spacing outs := by
  unfold attributesBetween at h
  obtain ⟨⟨⟩, hvalid, h⟩ := bind_eq_ok.mp h
  obtain ⟨spacing, hsp, h⟩ := bind_eq_ok.mp h
  obtain ⟨blank, hb, h⟩ := bind_eq_ok.mp h
  have hlayout := layout_fetch v blank options.partitionSize
  rcases hf : v.fetch blank options.partitionSize with ⟨done, s⟩
  rw [hf] at h hlayout
  obtain ⟨⟨⟩, hdone, h⟩ := bind_eq_ok.mp h
  have hv := Options.valid_of_validate hvalid
  have hq : s.WellPosed options.attributes
      (options.attributes.map fun _ => Array.replicate s.layout.cells Sampled.zero)
      options.partitionSize := by
    refine ⟨hv.available, by rw [List.length_map], ?_, hv.pos⟩
    intro b hm
    obtain ⟨_, -, rfl⟩ := List.mem_map.mp hm
    exact Array.size_replicate
  refine ⟨s, spacing, hv, hsp, ?_, ⟨blank, hb, ?_⟩, Subvolume.reduce_eq_ok hq h⟩
  · rw [hlayout]
    exact (Subvolume.between_eq_ok hb).1
  · rw [hf, hdone]

/-- Horizons on a grid that differs from itself, as undefined numbers do, are refused. -/
theorem attributesBetween_of_planes (v : Volume α σ) {reference top bottom : Horizon α σ}
    (htop : top.grid = reference.grid) (hbottom : bottom.grid = reference.grid)
    (hne : (reference.grid != reference.grid) = true) (options : Options α) :
    ∃ e, v.attributesBetween reference top bottom options = .error e ∧
      e.category? = some .badRequest := by
  unfold attributesBetween
  cases hv : options.validate with
  | error e => exact ⟨e, rfl, Options.category_of_validate hv⟩
  | ok _ =>
    cases hs : ResampledSpacing.ofStepsize (options.stepsizeFor v.survey) with
    | error e => exact ⟨e, rfl, ResampledSpacing.category_of_ofStepsize hs⟩
    | ok spacing =>
      have hlayout : Layout.between v.survey reference top bottom = .error .surfacePlanes := by
        unfold Layout.between Horizon.nrows Horizon.ncols
        simp only [htop, hbottom, beq_self_eq_true, Bool.and_self, Bool.not_true, hne,
          Bool.or_self]
        rfl
      refine ⟨.surfacePlanes, ?_, rfl⟩
      unfold Subvolume.between
      rw [hlayout]
      rfl

end Volume
end Seismic
