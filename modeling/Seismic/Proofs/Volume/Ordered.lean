import Seismic.Proofs.Paired
import Seismic.Proofs.Volume.Offset
import Seismic.Proofs.Volume.Orderly

/-!
# Requests that order their horizons

Both requests for attributes make the horizons they lay out a window between.  The window
along a horizon reaches from a distance above it to a distance below it, and rounding keeps
that order.  The window between two horizons has the orientation that aligning found, and as
aligning refuses horizons that cross, this is their order at every cell that has both depths.
-/

namespace Seismic

open Double

namespace Horizon

variable {primary secondary start aligned reference h : Horizon Float Single}
variable {above : Bool} {i : Nat} {p t : Single} {x y : EReal}

/-- Every depth of the horizon is a number, be it finite or not. -/
def Defined (h : Horizon Float Single) : Prop :=
  ∀ r ∈ h.values, h.isFill r = false → IsNumber r.toDouble

theorem Finite.defined (hf : h.Finite) : h.Defined := fun r hr hfill => (hf r hr hfill).isNumber

/-! ## The horizon that was aligned -/

/-- A cell that has depths of both horizons was paired, for the fill value is a number and so
stands for no depth. -/
theorem Scanned.exists_paired {found : Option Bool} {n : Nat} {blank : Single}
    (hs : Scanned primary secondary blank n aligned found) (hi : i < n)
    (hblank : IsNumber blank.toDouble) (ht : aligned.values[i]? = some t)
    (hft : aligned.isFill t = false) : ∃ p, Paired primary secondary i p t ∧
      (Sampled.same t p = true ∨ found = some (decide (p.toDouble < t.toDouble))) := by
  by_cases hpair : ∃ p q, Paired primary secondary i p q
  · obtain ⟨p, q, hpq⟩ := hpair
    obtain ⟨hq, hcases⟩ := hs.paired i hi p q hpq
    cases ht.symm.trans hq
    exact ⟨p, hpq, hcases⟩
  · rw [hs.unpaired i hi fun p q hpq => hpair ⟨p, q, hpq⟩] at ht
    cases ht
    have hfill : aligned.isFill t = true :=
      beq_iff.mpr ⟨hblank, by rwa [hs.fill], by rw [hs.fill]⟩
    rw [hfill] at hft
    cases hft

/-- Where aligning succeeds, the orientation it found is that of the depths of every cell. -/
theorem ordered_of_align (hstart : start.grid = primary.grid) (hblank : IsNumber start.fill.toDouble)
    (hp : primary.Defined) (hs : secondary.Defined)
    (h : primary.align secondary start = .ok (aligned, above)) (hi : primary.values[i]? = some p)
    (ht : aligned.values[i]? = some t) (hft : aligned.isFill t = false) :
    if above then p.toDouble ≤ t.toDouble else t.toDouble ≤ p.toDouble := by
  obtain ⟨found, rfl, hscan⟩ := align_eq_ok hstart h
  obtain ⟨hlt, -⟩ := Array.getElem?_eq_some_iff.mp hi
  obtain ⟨p', hpaired, hcases⟩ := hscan.exists_paired hlt hblank ht hft
  obtain ⟨hp', hfp, hq, hfq⟩ := hpaired.depths
  cases hi.symm.trans hp'
  have hnp := hp p (Array.mem_of_getElem? hi) hfp
  have hnt := hs t hq hfq
  rcases hcases with hsame | rfl
  · -- Equal depths are ordered either way.
    obtain ⟨-, -, hv⟩ := beq_iff.mp hsame
    have hle : p.toDouble ≤ t.toDouble := le_iff.mpr ⟨hnp, hnt, hv.ge⟩
    have hge : t.toDouble ≤ p.toDouble := le_iff.mpr ⟨hnt, hnp, hv.le⟩
    split_ifs
    · exact hle
    · exact hge
  · by_cases hbelow : p.toDouble < t.toDouble
    · rw [Option.getD_some, if_pos (decide_eq_true hbelow)]
      exact le_iff.mpr ⟨hnp, hnt, (lt_iff.mp hbelow).2.2.le⟩
    · rw [Option.getD_some, if_neg (by rwa [decide_eq_true_iff])]
      refine le_iff.mpr ⟨hnt, hnp, not_lt.mp fun hlt => hbelow ?_⟩
      exact lt_iff.mpr ⟨hnp, hnt, hlt⟩

/-- A horizon and the one that was aligned with it, the upper one as the top. -/
theorem inOrder_of_align (hstart : start.grid = primary.grid)
    (hblank : IsNumber start.fill.toDouble) (hp : primary.Defined) (hs : secondary.Defined)
    (h : primary.align secondary start = .ok (aligned, above)) :
    Layout.InOrder primary (if above then primary else aligned)
      (if above then aligned else primary) := by
  cases above with
  | true =>
    intro i r t b hr ht hb hfr _ hfb
    cases hr.symm.trans ht
    exact ⟨Double.le_refl (hp r (Array.mem_of_getElem? hr) hfr),
      ordered_of_align hstart hblank hp hs h hr hb hfb⟩
  | false =>
    intro i r t b hr ht hb hfr hft _
    cases hr.symm.trans hb
    exact ⟨ordered_of_align hstart hblank hp hs h hr ht hft,
      Double.le_refl (hp r (Array.mem_of_getElem? hr) hfr)⟩

/-! ## The horizon at two distances -/

theorem inOrder_of_follows {top bottom : Horizon Float Single} (hf : reference.Finite)
    (ht : reference.Follows top x) (hb : reference.Follows bottom y) (hx : x ≤ 0) (hy : 0 ≤ y) :
    Layout.InOrder reference top bottom := by
  intro i r t b hr hit hib hfill _ _
  have hn := (hf.of_getElem? hr hfill).isNumber
  have hat := ht.cell i r t hr hit hfill
  have hbt := hb.cell i r b hr hib hfill
  have hup := r.moved_mono hx
  have hdown := r.moved_mono hy
  rw [r.moved_zero, ← hat.value] at hup
  rw [r.moved_zero, ← hbt.value] at hdown
  exact ⟨le_iff.mpr ⟨hat.isNumber, hn, hup⟩, le_iff.mpr ⟨hn, hbt.isNumber, hdown⟩⟩

end Horizon

/-! ## Requests -/

namespace Volume

open Horizon

variable {primary secondary reference : Horizon Float Single}

theorem orderly_between (v : Volume Float Single) (options : Options Float)
    (hp : primary.Defined) (hs : secondary.Defined) (hfill : IsNumber primary.fill.toDouble) :
    Orderly (v.between primary secondary options) := by
  unfold between
  refine failsOnly_bind.mpr ⟨orderly_align _ _ _, fun ⟨aligned, above⟩ h => ?_⟩
  have hstart : (primary.map fun _ => primary.fill).grid = primary.grid := rfl
  have ho := inOrder_of_align hstart hfill hp hs h
  cases above with
  | true => exact orderly_attributesBetween v options ho
  | false => exact orderly_attributesBetween v options ho

theorem orderly_along (v : Volume Float Single) (options : Options Float)
    (hf : reference.Finite) (above below : Single) :
    Orderly (v.along reference above below options) := by
  by_cases hdist : Float.ofInt 0 ≤ above.toDouble ∧ Float.ofInt 0 ≤ below.toDouble
  · rw [along_of_nonneg options hdist.1 hdist.2]
    obtain ⟨hf₀, hv₀⟩ := ofInt_zero
    obtain ⟨-, hna, hva⟩ := le_iff.mp hdist.1
    obtain ⟨-, hnb, hvb⟩ := le_iff.mp hdist.2
    rw [value_of_isFinite hf₀, hv₀, EReal.coe_zero] at hva hvb
    have hup : -value above.toDouble ≤ 0 := by
      have h := EReal.neg_le_neg_iff.mpr hva
      rwa [neg_zero] at h
    exact orderly_attributesBetween v options (inOrder_of_follows hf
      (follows_shifted hf (Single.isAt_neg hna)) (follows_shifted hf ⟨hnb, rfl⟩) hup hvb)
  · have hrefused : v.along reference above below options =
        .error (.negativeWindow (Sampled.widen above) (Sampled.widen below)) := by
      unfold along
      exact if_pos hdist
    rw [hrefused]
    exact failsOnly_error.mpr trivial

/-- Requests for attributes never fail because horizons are not ordered.  If every depth of
two horizons is a number, and the fill value of the first as well, the window between them does
not fail that way, because the orientation found by aligning orders the depths of every cell
that has them.  If every depth of a horizon is finite, no window along it does. -/
theorem not_unordered (v : Volume Float Single) (options : Options Float) :
    (∀ primary secondary : Horizon Float Single, primary.Defined → secondary.Defined →
      IsNumber primary.fill.toDouble →
        (∀ aligned above, primary.align secondary (primary.map fun _ => primary.fill) =
            .ok (aligned, above) → Layout.InOrder primary (if above then primary else aligned)
              (if above then aligned else primary)) ∧
        ∀ row col t r b,
          v.between primary secondary options ≠ .error (.unordered row col t r b)) ∧
    ∀ reference : Horizon Float Single, reference.Finite → ∀ above below row col t r b,
      v.along reference above below options ≠ .error (.unordered row col t r b) := by
  constructor
  · intro primary secondary hp hs hfill
    have hstart : (primary.map fun _ => primary.fill).grid = primary.grid := rfl
    exact ⟨fun aligned above h => inOrder_of_align hstart hfill hp hs h,
      (orderly_between v options hp hs hfill).ne⟩
  · intro reference hf above below
    exact (orderly_along v options hf above below).ne

end Volume

/-- A horizon on a grid of another size.  One of its depths is what others use as fill value,
and its second row is empty. -/
def Horizon.fringed : Horizon Float Single where
  grid := ⟨⟨.id, .id⟩, 2, 3⟩
  values := #[.ofInt 16, .ofInt 12, .ofInt (-999), .ofInt 0, .ofInt 0, .ofInt 0]
  fill := .ofInt 0
  values_size := rfl

/-- The horizons touch at the first cell, and the upper one is found at the second. -/
theorem Volume.not_unordered_of_fringed : ∃ aligned,
    Horizon.align (.ofInts [16, 20, 24, 28]) .fringed
      ((Horizon.ofInts [16, 20, 24, 28]).map fun _ => .ofInt (-999)) = .ok (aligned, false) ∧
    Layout.InOrder (.ofInts [16, 20, 24, 28]) aligned (.ofInts [16, 20, 24, 28]) ∧
    (∀ row col t r b, (Volume.zeros .small).between (.ofInts [16, 20, 24, 28]) .fringed
      { attributes := [.value] } ≠ .error (.unordered row col t r b)) ∧
    ∀ above below row col t r b, (Volume.zeros .small).along .fringed above below
      { attributes := [.value] } ≠ .error (.unordered row col t r b) := by
  have hf : (Horizon.ofInts [16, 20, 24, 28]).Finite := by decide +kernel
  have hf' : Horizon.fringed.Finite := by decide +kernel
  have hfill : IsFinite (Single.ofInt (-999)).toDouble := by
    show Float.isFinite _ = true
    decide +kernel
  obtain ⟨⟨aligned, above⟩, halign, habove⟩ : ∃ found, Horizon.align (.ofInts [16, 20, 24, 28])
    .fringed ((Horizon.ofInts [16, 20, 24, 28]).map fun _ => .ofInt (-999)) = .ok found ∧
      found.2 = false := by decide +kernel
  obtain rfl : above = false := habove
  obtain ⟨hbetween, halong⟩ := Volume.not_unordered (Volume.zeros .small)
    { attributes := [.value] }
  obtain ⟨horder, hnever⟩ := hbetween _ _ hf.defined hf'.defined hfill.isNumber
  exact ⟨aligned, halign, horder aligned false halign, hnever, halong _ hf'⟩

end Seismic
