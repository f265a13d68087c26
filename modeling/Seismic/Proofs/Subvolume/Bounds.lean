import Seismic.Proofs.Axis
import Seismic.Proofs.Layout

/-!
# The bounds of cells with data

The depths of a cell whose window lies within a survey are finite: an infinite boundary has
the least or the greatest sample number, which leaves no room for the margin.
-/

namespace Seismic

open Double

namespace Spacing

variable {s : Spacing Float} {x phase : Float} {n : ℤ}

theorem value_numberOf (hs : s.Accepted) (hp : IsFinite phase) (hx : IsNumber x)
    (hinf : value x = ⊤ ∨ value x = ⊥) : value (s.numberOf x phase) = value x := by
  obtain ⟨hd, hdv⟩ := sub_spec hx hp
  obtain ⟨-, hqv⟩ := div_spec hd hs.finite hs.pos.ne'
  have hpos : (0 : EReal) < toReal s.stepsize := by exact_mod_cast hs.pos
  unfold numberOf
  rw [hqv, hdv, value_of_isFinite hp, value_of_isFinite hs.finite]
  rcases hinf with hv | hv
  · rw [hv, EReal.top_sub_coe, round_top,
      EReal.top_div_of_pos_ne_top hpos (EReal.coe_ne_top _), round_top]
  · rw [hv, EReal.bot_sub, round_bot,
      EReal.bot_div_of_pos_ne_top hpos (EReal.coe_ne_top _), round_bot]

theorem value_ne_bot (hs : s.Accepted) (hm : 0 < s.margin) (hp : IsFinite phase)
    (hx : IsNumber x) (hn : s.firstNumber x phase = .ok n) : value x ≠ ⊥ := by
  intro hv
  obtain ⟨hl, -, -⟩ := firstNumber_eq_ok.mp hn
  rw [innerFirst_eq hs hp hx, value_numberOf hs hp hx (Or.inr hv), hv, clampedBy_bot] at hl
  omega

theorem value_ne_top (hs : s.Accepted) (hm : 0 < s.margin) (hp : IsFinite phase)
    (hx : IsNumber x) (hn : s.lastNumber x phase = .ok n) : value x ≠ ⊤ := by
  intro hv
  obtain ⟨-, hu, -⟩ := lastNumber_eq_ok.mp hn
  rw [innerLast_eq hs hp hx, value_numberOf hs hp hx (Or.inl hv), hv, clampedBy_top] at hu
  omega

end Spacing

namespace Layout

variable {survey : Survey Float} {spacing : RawSpacing Float} {bounds : Bounds Float} {n : Nat}

theorem four_le_count
    (hs : RawSpacing.through survey.sample.step survey.sample.first = .ok spacing)
    (hfit : FitsSurvey survey spacing bounds)
    (hn : spacing.count bounds.top bounds.bottom = .ok n) : 4 ≤ n := by
  obtain ⟨hacc, -, hm, -, hp⟩ := RawSpacing.through_axis hs
  have := Spacing.margins_le_count hacc hp (Double.le_trans hfit.top_le hfit.le_bottom) hn
  rw [hm] at this
  exact this

/-- Depths between which there is a window are finite. -/
theorem FitsSurvey.finite
    (hs : RawSpacing.through survey.sample.step survey.sample.first = .ok spacing)
    (hfit : FitsSurvey survey spacing bounds) :
    IsFinite bounds.top ∧ IsFinite bounds.reference ∧ IsFinite bounds.bottom := by
  obtain ⟨hacc, -, hm, -, hp⟩ := RawSpacing.through_axis hs
  have hm' : 0 < spacing.spacing.margin := by omega
  obtain ⟨first, last, hf, hl, -, -⟩ := hfit.samples
  obtain ⟨_, hnf, -⟩ := Spacing.topSample_eq_ok.mp hf
  obtain ⟨_, hnl, -⟩ := Spacing.bottomSample_eq_ok.mp hl
  obtain ⟨ht, -, htb⟩ := le_iff.mp (Double.le_trans hfit.top_le hfit.le_bottom)
  obtain ⟨-, hb, -⟩ := le_iff.mp hfit.le_bottom
  have hbot := Spacing.value_ne_bot hacc hm' hp ht hnf
  have htop := Spacing.value_ne_top hacc hm' hp hb hnl
  have hft : IsFinite bounds.top :=
    isFinite_iff.mpr ⟨ht, ne_top_of_le_ne_top htop htb, hbot⟩
  have hfb : IsFinite bounds.bottom :=
    isFinite_iff.mpr ⟨hb, htop, ne_bot_of_le_ne_bot hbot htb⟩
  exact ⟨hft, isFinite_of_between hft hfb hfit.top_le hfit.le_bottom, hfb⟩

end Layout
end Seismic
