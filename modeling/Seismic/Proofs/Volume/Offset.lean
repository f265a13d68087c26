import Seismic.Proofs.Align
import Seismic.Proofs.Single
import Seismic.Proofs.Subvolume.SameBounds
import Seismic.Proofs.Volume.Along

/-!
# Windows between a horizon and the horizon moved

The window along a horizon can be asked for by distances, or as the window between the horizon
and another one that lies at the distance.  The second way brings the other horizon onto the
grid of the first and finds out which of the two lies above.  Both lead to the same depths, and
so to the same answer, also where a sum rounds back to the depth it was added to, and where it
hits the fill value.
-/

namespace Seismic

open Double

/-! ## Horizons at a distance -/

namespace Horizon

variable {reference h : Horizon Float Single} {distance : EReal}

/-- `h` has the grid and the fill value of `reference`, and every depth of `reference` is
taken by `move` to the depth of `h` there. -/
structure MovedTo {α σ : Type} [Scalar α] [Sampled σ α] (reference h : Horizon α σ)
    (move : σ → σ) : Prop where
  grid : h.grid = reference.grid
  fill : h.fill = reference.fill
  value : ∀ (i : Nat) r, reference.values[i]? = some r →
    h.values[i]? = some (if reference.isFill r then reference.fill else move r)

/-- The horizon with its depths moved. -/
def movedBy {α σ : Type} [Scalar α] [Sampled σ α] (reference : Horizon α σ) (move : σ → σ) :
    Horizon α σ :=
  reference.map fun r => if reference.isFill r then reference.fill else move r

theorem movedTo_movedBy {α σ : Type} [Scalar α] [Sampled σ α] (reference : Horizon α σ)
    (move : σ → σ) : reference.MovedTo (reference.movedBy move) move := by
  refine ⟨rfl, rfl, fun i r hr => ?_⟩
  show (reference.values.map _)[i]? = _
  rw [Array.getElem?_map, hr, Option.map_some]

/-- Wherever `reference` has a depth, `h` has the place at a distance from it, be that the
fill value or not. -/
structure Follows (reference h : Horizon Float Single) (distance : EReal) : Prop where
  grid : h.grid = reference.grid
  fill : h.fill = reference.fill
  cell : ∀ (i : Nat) r t, reference.values[i]? = some r → h.values[i]? = some t →
    reference.isFill r = false → t.IsAt (r.moved distance)

theorem isFill_iff {s : Single} {x : EReal} (hs : s.IsAt x) :
    h.isFill s = true ↔ h.fill.IsAt x := by
  refine ⟨fun hf => ?_, fun hf => hs.beq hf⟩
  obtain ⟨-, hn, hv⟩ := beq_iff.mp hf
  exact ⟨hn, hv.symm.trans hs.value⟩

/-- Every depth of the horizon is a finite number. -/
def Finite (h : Horizon Float Single) : Prop :=
  ∀ r ∈ h.values, h.isFill r = false → IsFinite r.toDouble

instance (h : Horizon Float Single) : Decidable h.Finite :=
  inferInstanceAs (Decidable (∀ r ∈ h.values, _ → _ = true))

theorem Finite.of_getElem? (hf : reference.Finite) {i : Nat} {r : Single}
    (hr : reference.values[i]? = some r) (hfill : reference.isFill r = false) :
    IsFinite r.toDouble :=
  hf r (Array.mem_of_getElem? hr) hfill

theorem follows_self (hf : reference.Finite) : reference.Follows reference 0 := by
  refine ⟨rfl, rfl, fun i r t hr ht hfill => ?_⟩
  cases hr.symm.trans ht
  exact Single.isAt_moved_zero (hf.of_getElem? hr hfill).isNumber

theorem follows_shifted (hf : reference.Finite) {d : Single} (hd : d.IsAt distance) :
    reference.Follows (reference.shifted d) distance := by
  refine ⟨rfl, rfl, fun i r t hr ht hfill => ?_⟩
  have hmap : (reference.shifted d).values[i]? = (reference.values[i]?).map fun value =>
    if reference.isFill value then value else Sampled.add value d := Array.getElem?_map
  rw [hmap, hr, Option.map_some, hfill, if_neg Bool.false_ne_true] at ht
  cases ht
  exact Single.isAt_add (hf.of_getElem? hr hfill) hd

theorem MovedTo.follows {move : Single → Single} (hm : reference.MovedTo h move)
    (hf : reference.Finite)
    (hmove : ∀ r, IsFinite r.toDouble → (move r).IsAt (r.moved distance)) :
    reference.Follows h distance := by
  refine ⟨hm.grid, hm.fill, fun i r t hr ht hfill => ?_⟩
  have hv := hm.value i r hr
  rw [ht, hfill, if_neg Bool.false_ne_true, Option.some.injEq] at hv
  rw [hv]
  exact hmove r (hf.of_getElem? hr hfill)

theorem Follows.exists_value (hh : reference.Follows h distance) {i : Nat} {r : Single}
    (hr : reference.values[i]? = some r) : ∃ q, h.values[i]? = some q := by
  obtain ⟨hi, -⟩ := Array.getElem?_eq_some_iff.mp hr
  have hi' : i < h.values.size := by rwa [h.values_size, hh.grid, ← reference.values_size]
  exact ⟨_, Array.getElem?_eq_getElem hi'⟩

/-- A horizon moved downwards lies below, and one moved upwards above. -/
theorem Follows.oriented (hh : reference.Follows h distance) (hf : reference.Finite)
    {above : Bool} (hdir : if above then 0 ≤ distance else distance ≤ 0) :
    reference.Oriented h above := by
  intro i r q hr hq hfill _
  have hat := hh.cell i r q hr hq hfill
  have hn := (hf.of_getElem? hr hfill).isNumber
  cases above with
  | true =>
    have hle := r.moved_mono hdir
    rw [r.moved_zero, ← hat.value] at hle
    rcases hle.lt_or_eq with hlt | heq
    · exact .inr (decide_eq_true (lt_iff.mpr ⟨hn, hat.isNumber, hlt⟩))
    · exact .inl (beq_iff.mpr ⟨hat.isNumber, hn, heq.symm⟩)
  | false =>
    have hle := r.moved_mono hdir
    rw [r.moved_zero, ← hat.value] at hle
    exact .inr (decide_eq_false fun hlt => (lt_iff.mp hlt).2.2.not_ge hle)

variable {aligned : Horizon Float Single} {above : Bool} {found : Option Bool}

/-- Aligning a horizon keeps it at its distance.  A depth that hits the fill value is replaced
by the fill value itself. -/
theorem Follows.of_aligning (hh : reference.Follows h distance)
    (ha : Aligning reference h reference.fill above reference.size aligned found) :
    reference.Follows aligned distance := by
  refine ⟨ha.grid, ha.fill, fun i r t hr ht hfill => ?_⟩
  obtain ⟨hi, -⟩ := Array.getElem?_eq_some_iff.mp hr
  obtain ⟨q, hq⟩ := hh.exists_value hr
  have hat := hh.cell i r q hr hq hfill
  rw [ha.value i hi r q hr hq, hfill, Bool.false_or, Option.some.injEq] at ht
  cases hfillq : h.isFill q with
  | true =>
    rw [hfillq, if_pos rfl] at ht
    rw [← ht, ← hh.fill]
    exact (isFill_iff hat).mp hfillq
  | false =>
    rw [hfillq, if_neg Bool.false_ne_true] at ht
    rwa [← ht]

/-- If no depths were found to differ, those that were aligned are equal. -/
theorem Aligning.beq (hh : reference.Follows h distance)
    (ha : Aligning reference h reference.fill above reference.size aligned none) {i : Nat}
    {r t : Single} (hr : reference.values[i]? = some r) (ht : aligned.values[i]? = some t)
    (hfr : reference.isFill r = false) (hft : aligned.isFill t = false) :
    (t.toDouble == r.toDouble) = true := by
  obtain ⟨hi, -⟩ := Array.getElem?_eq_some_iff.mp hr
  obtain ⟨q, hq⟩ := hh.exists_value hr
  rw [ha.value i hi r q hr hq, hfr, Bool.false_or, Option.some.injEq] at ht
  cases hfq : h.isFill q with
  | true =>
    have hself : aligned.isFill reference.fill = true := by
      obtain ⟨-, hn, -⟩ := beq_iff.mp hfq
      rw [hh.fill] at hn
      exact beq_iff.mpr ⟨hn, ha.fill.symm ▸ hn, by rw [ha.fill]⟩
    rw [hfq, if_pos rfl] at ht
    rw [← ht, hself] at hft
    cases hft
  | false =>
    rw [hfq, if_neg Bool.false_ne_true] at ht
    rw [← ht]
    exact ha.same rfl i hi r q hr hq hfr hfq

variable {top bottom top' bottom' : Horizon Float Single} {x y : EReal}

theorem sameWindows_of_follows (hsize : reference.size < countBound) (hf : reference.Finite)
    (ht : reference.Follows top x) (hb : reference.Follows bottom y)
    (ht' : reference.Follows top' x) (hb' : reference.Follows bottom' y) :
    SameWindows reference top bottom top' bottom' := by
  refine ⟨by rwa [← reference.values_size], ⟨ht.grid, hb.grid, ht'.grid, hb'.grid⟩, ?_⟩
  intro i r t b t' b' hr hit hib hit' hib'
  unfold lacks
  cases hfill : reference.isFill r with
  | true => exact ⟨by rw [Bool.true_or, Bool.true_or, Bool.true_or, Bool.true_or],
      fun hl => nomatch hl⟩
  | false =>
    have hat := ht.cell i r t hr hit hfill
    have hat' := ht'.cell i r t' hr hit' hfill
    have hbt := hb.cell i r b hr hib hfill
    have hbt' := hb'.cell i r b' hr hib' hfill
    have htop : top.isFill t = top'.isFill t' := by
      rw [Bool.eq_iff_iff, isFill_iff hat, isFill_iff hat', ht.fill, ht'.fill]
    have hbottom : bottom.isFill b = bottom'.isFill b' := by
      rw [Bool.eq_iff_iff, isFill_iff hbt, isFill_iff hbt', hb.fill, hb'.fill]
    refine ⟨by rw [htop, hbottom], fun _ => ⟨hf.of_getElem? hr hfill, hat.beq hat', ?_⟩⟩
    exact hbt.beq hbt'

/-- Boundaries that are equal wherever both have a depth can be exchanged. -/
theorem SameWindows.swap (hw : SameWindows reference top bottom top' bottom')
    (heq : ∀ (i : Nat) r t b, reference.values[i]? = some r → top.values[i]? = some t →
      bottom.values[i]? = some b → lacks reference top bottom r t b = false →
        (t.toDouble == b.toDouble) = true) :
    SameWindows reference bottom top top' bottom' := by
  refine ⟨hw.counted, ⟨hw.grids.2.1, hw.grids.1, hw.grids.2.2⟩, ?_⟩
  intro i r b t t' b' hr hib hit hit' hib'
  have hcomm : lacks reference bottom top r b t = lacks reference top bottom r t b :=
    Bool.or_right_comm _ _ _
  obtain ⟨hlacks, hsame⟩ := hw.cell i r t b t' b' hr hit hib hit' hib'
  refine ⟨hcomm.trans hlacks, fun hl => ?_⟩
  rw [hcomm] at hl
  obtain ⟨hf, htt, hbb⟩ := hsame hl
  obtain ⟨hnt, hnb, hv⟩ := beq_iff.mp (heq i r t b hr hit hib hl)
  obtain ⟨-, hnt', hvt⟩ := beq_iff.mp htt
  obtain ⟨-, hnb', hvb⟩ := beq_iff.mp hbb
  exact ⟨hf, beq_iff.mpr ⟨hnb, hnt', hv.symm.trans hvt⟩,
    beq_iff.mpr ⟨hnt, hnb', hv.trans hvb⟩⟩

end Horizon

/-! ## Two ways to ask for a window -/

namespace Volume

open Horizon

variable {v : Volume Float Single} {reference h : Horizon Float Single} {distance : EReal}

/-- The window between a horizon and another that lies at a distance from it. -/
theorem between_agree (options : Options Float) (above : Bool) (hsize : reference.size < countBound)
    (hf : reference.Finite) (hr : reference.grid.RoundTrips)
    (hh : reference.Follows h distance) (hdir : if above then 0 ≤ distance else distance ≤ 0)
    {top bottom : Horizon Float Single}
    (htop : reference.Follows top (if above then 0 else distance))
    (hbottom : reference.Follows bottom (if above then distance else 0)) :
    Agree Eq (v.between reference h options)
      (v.attributesBetween reference top bottom options) := by
  unfold between
  cases hne : reference.grid != reference.grid with
  | true =>
    obtain ⟨e, he, hcat⟩ := v.attributesBetween_of_planes htop.grid hbottom.grid hne options
    rw [align_of_planes (reference.map fun _ => reference.fill) hne, he]
    exact .error hcat.symm
  | false =>
    obtain ⟨aligned, found, halign, ha⟩ := exists_align
      (reference.map fun _ => reference.fill) hh.grid rfl hne hsize hr (hh.oriented hf hdir)
    have hself := follows_self hf
    rw [halign, ok_bind]
    dsimp only
    cases above with
    | true =>
      have hw := sameWindows_of_follows hsize hf hself (hh.of_aligning ha) htop hbottom
      have habove : found.getD true = true := by
        rcases ha.side with rfl | rfl <;> rfl
      rw [habove, if_pos rfl]
      exact v.attributesBetween_agree hw options
    | false =>
      have hw := sameWindows_of_follows hsize hf (hh.of_aligning ha) hself htop hbottom
      rcases ha.side with rfl | rfl
      · -- No depths differ, and the horizon that counts as the upper one is the wrong one.
        refine v.attributesBetween_agree (hw.swap fun i r t b hr ht hb hl => ?_) options
        cases hr.symm.trans hb
        unfold lacks at hl
        rw [Bool.or_eq_false_iff, Bool.or_eq_false_iff] at hl
        exact ha.beq hh hr ht hl.1.1 hl.1.2
      · exact v.attributesBetween_agree hw options

theorem along_of_nonneg {above below : Single} (options : Options Float)
    (habove : Float.ofInt 0 ≤ above.toDouble) (hbelow : Float.ofInt 0 ≤ below.toDouble) :
    v.along reference above below options = v.attributesBetween reference
      (reference.shifted (Sampled.neg above)) (reference.shifted below) options := by
  unfold along
  exact if_neg (not_not.mpr ⟨habove, hbelow⟩)

/-- The window from a horizon to a distance below it is answered like the window between the
horizon and one that lies at the distance below, and likewise above: with the same outputs,
or with failures of one category.  The number of cells is one of 64 bits, as it is for every
horizon that can be stored, and neither the distance nor the fill value has to be finite. -/
theorem between_agree_along (v : Volume Float Single)
    {reference lower upper : Horizon Float Single} {d : Single} (options : Options Float)
    (hsize : reference.size < countBound) (hf : reference.Finite)
    (hr : reference.grid.RoundTrips) (hd : Float.ofInt 0 ≤ d.toDouble)
    (hlower : reference.MovedTo lower fun r => Sampled.add r d)
    (hupper : reference.MovedTo upper fun r =>
      Sampled.narrow (Sampled.widen r - Sampled.widen d)) :
    Agree Eq (v.between reference lower options) (v.along reference Sampled.zero d options) ∧
      Agree Eq (v.between reference upper options) (v.along reference d Sampled.zero options) := by
  obtain ⟨-, hnd, hvd⟩ := le_iff.mp hd
  obtain ⟨hf₀, hv₀⟩ := ofInt_zero
  rw [value_of_isFinite hf₀, hv₀, EReal.coe_zero] at hvd
  have hat : d.IsAt (value d.toDouble) := ⟨hnd, rfl⟩
  have hzero := Single.isAt_zero
  have h0 : Float.ofInt 0 ≤ (Sampled.zero : Single).toDouble := by
    refine le_iff.mpr ⟨hf₀.isNumber, hzero.isNumber, ?_⟩
    rw [hzero.value, value_of_isFinite hf₀, hv₀, EReal.coe_zero]
  have hnegzero : (Sampled.neg (Sampled.zero : Single)).IsAt 0 := by
    have h := Single.isAt_neg hzero.isNumber
    rwa [hzero.value, neg_zero] at h
  have hdown : -value d.toDouble ≤ 0 := by
    have h := EReal.neg_le_neg_iff.mpr hvd
    rwa [neg_zero] at h
  constructor
  · rw [along_of_nonneg options h0 hd]
    exact between_agree options true hsize hf hr
      (hlower.follows hf fun r hr => Single.isAt_add hr hat) hvd (follows_shifted hf hnegzero)
      (follows_shifted hf hat)
  · rw [along_of_nonneg options hd h0]
    exact between_agree options false hsize hf hr
      (hupper.follows hf fun r hr => Single.isAt_sub hr hat) hdown
      (follows_shifted hf (Single.isAt_neg hnd)) (follows_shifted hf hzero)

/-- The horizon at the depth 16, with a cell beside it that has no depth. -/
theorem between_agree_along_of_pair : ∃ outs outs',
    (Volume.zeros .small).between (.ofInts [16, -999])
        ((Horizon.ofInts [16, -999]).movedBy fun r => Sampled.add r (.ofInt 4))
        { attributes := [.value, .mean] } = .ok outs ∧
      Agree Eq (.ok outs) ((Volume.zeros .small).along (.ofInts [16, -999]) Sampled.zero
        (.ofInt 4) { attributes := [.value, .mean] }) ∧
    (Volume.zeros .small).between (.ofInts [16, -999])
        ((Horizon.ofInts [16, -999]).movedBy fun r =>
          Sampled.narrow (Sampled.widen r - Sampled.widen (Single.ofInt 4)))
        { attributes := [.value, .mean] } = .ok outs' ∧
      Agree Eq (.ok outs') ((Volume.zeros .small).along (.ofInts [16, -999]) (.ofInt 4)
        Sampled.zero { attributes := [.value, .mean] }) := by
  have hlower := movedTo_movedBy (.ofInts [16, -999]) fun r => Sampled.add r (Single.ofInt 4)
  have hupper := movedTo_movedBy (.ofInts [16, -999]) fun r =>
    Sampled.narrow (Sampled.widen r - Sampled.widen (Single.ofInt 4))
  obtain ⟨hbelow, habove⟩ := between_agree_along (Volume.zeros .small)
    { attributes := [.value, .mean] } (by decide) (by decide +kernel) (by decide +kernel)
    (by decide +kernel) hlower hupper
  obtain ⟨outs, h, -⟩ : ∃ outs, (Volume.zeros .small).between (.ofInts [16, -999])
      ((Horizon.ofInts [16, -999]).movedBy fun r => Sampled.add r (.ofInt 4))
      { attributes := [.value, .mean] } = .ok outs ∧ True := by decide +kernel
  obtain ⟨outs', h', -⟩ : ∃ outs, (Volume.zeros .small).between (.ofInts [16, -999])
      ((Horizon.ofInts [16, -999]).movedBy fun r =>
        Sampled.narrow (Sampled.widen r - Sampled.widen (Single.ofInt 4)))
      { attributes := [.value, .mean] } = .ok outs ∧ True := by decide +kernel
  exact ⟨outs, outs', h, h ▸ hbelow, h', h' ▸ habove⟩

end Volume
end Seismic
