import Seismic.Proofs.Exact.Scalar
import Seismic.Proofs.Result
import Seismic.Survey.Transformer

/-!
# Coordinates in exact arithmetic

A map whose inverse was computed from its determinant is undone by it.  An annotation is undone
axis by axis, also on an axis without a step, where every line has the annotation of the first.
-/

namespace Seismic

attribute [ext] Point

namespace Transformer

variable {α : Type} [Scalar α] {origin inlineSpacing crosslineSpacing : Point α}
variable {iline xline : Axis α} {t : Transformer α}

theorem ofSpacing_eq_ok (h : ofSpacing origin inlineSpacing crosslineSpacing iline xline = .ok t) :
    (spanning origin inlineSpacing crosslineSpacing).inverse = .ok t.worldToIndex ∧
      t = ⟨spanning origin inlineSpacing crosslineSpacing, t.worldToIndex, iline.first, iline.step,
        xline.first, xline.step⟩ := by
  unfold ofSpacing at h
  dsimp only at h
  split at h
  · cases h
  · cases h
    exact ⟨by assumption, rfl⟩

/-- There is no transformer only if there is no inverse. -/
theorem ofSpacing_eq_error {e : Failure α} :
    ofSpacing origin inlineSpacing crosslineSpacing iline xline = .error e ↔
      e = .parallelSpacing ∧
        ∃ e', (spanning origin inlineSpacing crosslineSpacing).inverse = .error e' := by
  unfold ofSpacing
  dsimp only
  split <;> rename_i h <;> simp [h, eq_comm]

end Transformer

namespace Exact

variable {K : Type} [Field K] [LinearOrder K] [FloorRing K]

/-! ## Affine maps -/

section Affine

variable {t s : Affine (Exact K)}

theorem inverse_eq_ok : t.inverse = .ok s ↔ t.determinant.val ≠ 0 ∧
    s = ⟨t.e / t.determinant, -t.b / t.determinant, (t.b * t.f - t.c * t.e) / t.determinant,
      -t.d / t.determinant, t.a / t.determinant, (t.c * t.d - t.a * t.f) / t.determinant⟩ := by
  have hdet : (t.determinant == 0 || !Scalar.isFinite t.determinant) = true ↔
      t.determinant.val = 0 := by
    rw [Bool.or_eq_true, beq_iff, zero_val]
    exact or_iff_left Bool.false_ne_true
  unfold Affine.inverse
  dsimp only
  split_ifs with h <;> rw [hdet] at h
  · exact ⟨nofun, fun h' => absurd h h'.1⟩
  · rw [Except.ok.injEq, eq_comm]
    exact (and_iff_right h).symm

theorem exists_inverse_eq_error : (∃ e, t.inverse = .error e) ↔ t.determinant.val = 0 := by
  constructor
  · rintro ⟨e, he⟩
    by_contra hd
    cases he.symm.trans (inverse_eq_ok.mpr ⟨hd, rfl⟩)
  · intro hd
    cases h : t.inverse with
    | error e => exact ⟨e, rfl⟩
    | ok s => exact absurd hd (inverse_eq_ok.mp h).1

/-- The inverse of a map undoes it. -/
theorem apply_inverse (h : t.inverse = .ok s) (p : Point (Exact K)) : s.apply (t.apply p) = p := by
  obtain ⟨hd, rfl⟩ := inverse_eq_ok.mp h
  have hdet : t.determinant.val = t.a.val * t.e.val - t.b.val * t.d.val := rfl
  ext
  · show t.e.val / t.determinant.val * (t.a.val * p.x.val + t.b.val * p.y.val + t.c.val) +
      -t.b.val / t.determinant.val * (t.d.val * p.x.val + t.e.val * p.y.val + t.f.val) +
        (t.b.val * t.f.val - t.c.val * t.e.val) / t.determinant.val = p.x.val
    rw [div_mul_eq_mul_div, div_mul_eq_mul_div, ← add_div, ← add_div, div_eq_iff hd, hdet]
    ring
  · show -t.d.val / t.determinant.val * (t.a.val * p.x.val + t.b.val * p.y.val + t.c.val) +
      t.a.val / t.determinant.val * (t.d.val * p.x.val + t.e.val * p.y.val + t.f.val) +
        (t.c.val * t.d.val - t.a.val * t.f.val) / t.determinant.val = p.y.val
    rw [div_mul_eq_mul_div, div_mul_eq_mul_div, ← add_div, ← add_div, div_eq_iff hd, hdet]
    ring

end Affine

/-! ## Axes -/

/-- There is a step between the lines of an axis, unless there is a single one. -/
def Lined (a : Axis (Exact K)) : Prop := a.step.val ≠ 0 ∨ a.nsamples = 1

/-- An annotation counted in steps from the first one is undone, also if no steps are taken. -/
theorem indexOnLine_add_mul {first step x : Exact K} (h : step.val ≠ 0 ∨ x.val = 0) :
    Axis.indexOnLine first step (first + x * step) = x := by
  unfold Axis.indexOnLine
  ext
  by_cases h0 : step.val = 0
  · rw [if_pos (beq_iff.mpr (h0.trans zero_val.symm)), sub_val, add_val, mul_val, h0]
    rw [h.resolve_left (not_not.mpr h0)]
    ring
  · rw [if_neg fun hb => h0 ((beq_iff.mp hb).trans zero_val), div_val, sub_val, add_val, mul_val]
    rw [add_sub_cancel_left, mul_div_cancel_right₀ _ h0]

theorem Lined.indexOnLine_of_lt {a : Axis (Exact K)} (h : Lined a) {i : ℕ} (hi : i < a.nsamples) :
    Axis.indexOnLine a.first a.step (a.first + Scalar.ofNat i * a.step) = Scalar.ofNat i := by
  refine indexOnLine_add_mul (h.imp_right fun h1 => ?_)
  obtain rfl : i = 0 := by omega
  rw [ofNat_val, Nat.cast_zero]

/-! ## Transformers -/

section Transformer

variable {origin inlineSpacing crosslineSpacing : Point (Exact K)} {iline xline : Axis (Exact K)}
variable {t : Transformer (Exact K)}

theorem indexOfWorld_worldOfIndex
    (h : Transformer.ofSpacing origin inlineSpacing crosslineSpacing iline xline = .ok t)
    (p : Point (Exact K)) : t.indexOfWorld (t.worldOfIndex p) = p := by
  obtain ⟨hinverse, ht⟩ := Transformer.ofSpacing_eq_ok h
  rw [ht]
  exact apply_inverse hinverse p

theorem indexOfAnnotation_annotationOfIndex
    (h : Transformer.ofSpacing origin inlineSpacing crosslineSpacing iline xline = .ok t)
    (hi : Lined iline) (hx : Lined xline) {i j : ℕ} (hil : i < iline.nsamples)
    (hjl : j < xline.nsamples) :
    t.indexOfAnnotation (t.annotationOfIndex ⟨Scalar.ofNat i, Scalar.ofNat j⟩) =
      ⟨Scalar.ofNat i, Scalar.ofNat j⟩ := by
  obtain ⟨-, ht⟩ := Transformer.ofSpacing_eq_ok h
  rw [ht]
  exact Point.ext (hi.indexOnLine_of_lt hil) (hx.indexOnLine_of_lt hjl)

end Transformer

end Exact
end Seismic
