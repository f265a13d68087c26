import Mathlib.Tactic.FieldSimp
import Mathlib.Tactic.LinearCombination
import Seismic.Proofs.Exact.Layout
import Seismic.Proofs.Exact.Transformer

/-!
# Conversions of coordinates in exact arithmetic

The inverse that is computed from the determinant of a map has in turn the map as its inverse, so
each of the two undoes the other.  An axis with a step is undone in both directions too.  Then all
conversions of a transformer come in pairs that undo each other.  There is a transformer unless a
combination of the spacing vectors is zero, which is the case if the determinant is.
-/

namespace Seismic

attribute [ext] Affine

namespace Exact

/-! ## Functions that undo each other -/

section Inverses

variable {α β γ : Type}

/-- Two functions of which each undoes the other. -/
def Inverses (f : α → β) (g : β → α) : Prop :=
  Function.LeftInverse g f ∧ Function.LeftInverse f g

variable {f : α → β} {g : β → α}

theorem Inverses.symm (h : Inverses f g) : Inverses g f := And.symm h

theorem Inverses.comp {f' : β → γ} {g' : γ → β} (h' : Inverses f' g') (h : Inverses f g) :
    Inverses (f' ∘ f) (g ∘ g') :=
  ⟨h'.1.comp h.1, h.2.comp h'.2⟩

/-- Coordinates can be converted one by one. -/
theorem Inverses.point {f' : α → β} {g' : β → α} (h : Inverses f g) (h' : Inverses f' g') :
    Inverses (fun p : Point α => Point.mk (f p.x) (f' p.y))
      (fun p : Point β => Point.mk (g p.x) (g' p.y)) :=
  ⟨fun p => Point.ext (h.1 p.x) (h'.1 p.y), fun p => Point.ext (h.2 p.x) (h'.2 p.y)⟩

end Inverses

variable {K : Type} [Field K] [LinearOrder K] [FloorRing K]

/-! ## Affine maps -/

section Affine

variable {t s : Affine (Exact K)}

/-- The map is computed back from its inverse. -/
theorem inverse_inverse (h : t.inverse = .ok s) : s.inverse = .ok t := by
  obtain ⟨hd, hs⟩ := inverse_eq_ok.mp h
  have hdet : t.a.val * t.e.val - t.b.val * t.d.val = t.determinant.val := rfl
  have hsdet : s.determinant.val = 1 / t.determinant.val := by
    rw [hs]
    show t.e.val / t.determinant.val * (t.a.val / t.determinant.val) -
      -t.b.val / t.determinant.val * (-t.d.val / t.determinant.val) = 1 / t.determinant.val
    field_simp
    linear_combination hdet
  refine inverse_eq_ok.mpr ⟨by rw [hsdet]; exact one_div_ne_zero hd, ?_⟩
  -- The quotients cancel by themselves, except in the two entries that move the origin.
  ext <;> simp only [div_val, neg_val, sub_val, mul_val, hsdet] <;> rw [hs] <;>
    simp only [div_val, neg_val, sub_val, mul_val] <;> field_simp
  · linear_combination -t.c.val * hdet
  · linear_combination -t.f.val * hdet

theorem inverses_apply (h : t.inverse = .ok s) : Inverses t.apply s.apply :=
  ⟨apply_inverse h, apply_inverse (inverse_inverse h)⟩

end Affine

/-! ## Axes -/

theorem inverses_indexOf {a : Axis (Exact K)} (h : a.step.val ≠ 0) :
    Inverses a.annotationOf a.indexOf := by
  refine ⟨fun x => indexOnLine_add_mul (Or.inl h), fun x => ?_⟩
  have hstep : ¬ (a.step == 0) = true := fun hb => h ((beq_iff.mp hb).trans zero_val)
  unfold Axis.annotationOf Axis.indexOf Axis.indexOnLine
  rw [if_neg hstep]
  ext
  rw [add_val, mul_val, div_val, sub_val, div_mul_cancel₀ _ h, add_sub_cancel]

/-! ## Spacing vectors -/

/-- Multiples of the two vectors, not both of them by zero, add up to zero. -/
def Parallel (u w : Point (Exact K)) : Prop :=
  ∃ a b : K, (a ≠ 0 ∨ b ≠ 0) ∧ a * u.x.val + b * w.x.val = 0 ∧ a * u.y.val + b * w.y.val = 0

omit [LinearOrder K] [FloorRing K] in
theorem parallel_iff {u w : Point (Exact K)} :
    Parallel u w ↔ u.x.val * w.y.val - w.x.val * u.y.val = 0 := by
  constructor
  · rintro ⟨a, b, ha | hb, hx, hy⟩
    · refine (mul_eq_zero.mp ?_).resolve_left ha
      linear_combination w.y.val * hx - w.x.val * hy
    · refine (mul_eq_zero.mp ?_).resolve_left hb
      linear_combination u.x.val * hy - u.y.val * hx
  · intro hdet
    by_cases hx : w.x.val ≠ 0 ∨ -u.x.val ≠ 0
    · exact ⟨w.x.val, -u.x.val, hx, by ring, by linear_combination -hdet⟩
    by_cases hy : w.y.val ≠ 0 ∨ -u.y.val ≠ 0
    · exact ⟨w.y.val, -u.y.val, hy, by linear_combination hdet, by ring⟩
    · rw [not_or, not_not, not_not, neg_eq_zero] at hx hy
      exact ⟨1, 0, Or.inl one_ne_zero, by rw [hx.2]; ring, by rw [hy.2]; ring⟩

/-! ## Transformers -/

section Transformer

variable {origin inlineSpacing crosslineSpacing : Point (Exact K)} {iline xline : Axis (Exact K)}
variable {t : Transformer (Exact K)}

theorem ofSpacing_eq_error_iff_parallel {e : Failure (Exact K)} :
    Transformer.ofSpacing origin inlineSpacing crosslineSpacing iline xline = .error e ↔
      e = .parallelSpacing ∧ Parallel inlineSpacing crosslineSpacing := by
  rw [Transformer.ofSpacing_eq_error, exists_inverse_eq_error, parallel_iff]
  rfl

theorem inverses_indexOfWorld
    (h : Transformer.ofSpacing origin inlineSpacing crosslineSpacing iline xline = .ok t) :
    Inverses t.worldOfIndex t.indexOfWorld := by
  obtain ⟨hinverse, ht⟩ := Transformer.ofSpacing_eq_ok h
  rw [ht]
  exact inverses_apply hinverse

/-- Annotations are converted by the axes. -/
theorem annotation_of_axes
    (h : Transformer.ofSpacing origin inlineSpacing crosslineSpacing iline xline = .ok t) :
    t.annotationOfIndex = (fun p => ⟨iline.annotationOf p.x, xline.annotationOf p.y⟩) ∧
      t.indexOfAnnotation = fun p => ⟨iline.indexOf p.x, xline.indexOf p.y⟩ := by
  obtain ⟨-, ht⟩ := Transformer.ofSpacing_eq_ok h
  rw [ht]
  exact ⟨rfl, rfl⟩

theorem inverses_indexOfAnnotation
    (h : Transformer.ofSpacing origin inlineSpacing crosslineSpacing iline xline = .ok t)
    (hi : iline.step.val ≠ 0) (hx : xline.step.val ≠ 0) :
    Inverses t.annotationOfIndex t.indexOfAnnotation := by
  rw [(annotation_of_axes h).1, (annotation_of_axes h).2]
  exact (inverses_indexOf hi).point (inverses_indexOf hx)

end Transformer

/-- There is a transformer exactly if the spacing vectors are not parallel.  It counts steps along
them from the origin, and along the axes as these do themselves.  All three pairs of conversions
undo each other, those of annotations if both axes have a step. -/
theorem conversions_of_spacing (origin inlineSpacing crosslineSpacing : Point (Exact K))
    (iline xline : Axis (Exact K)) :
    (∀ e, Transformer.ofSpacing origin inlineSpacing crosslineSpacing iline xline = .error e ↔
      e = .parallelSpacing ∧ Parallel inlineSpacing crosslineSpacing) ∧
    (Parallel inlineSpacing crosslineSpacing ↔ inlineSpacing.x.val * crosslineSpacing.y.val -
      crosslineSpacing.x.val * inlineSpacing.y.val = 0) ∧
    ∀ t, Transformer.ofSpacing origin inlineSpacing crosslineSpacing iline xline = .ok t →
      (∀ p, t.worldOfIndex p =
        ⟨inlineSpacing.x * p.x + crosslineSpacing.x * p.y + origin.x,
          inlineSpacing.y * p.x + crosslineSpacing.y * p.y + origin.y⟩) ∧
      (∀ p, t.annotationOfIndex p = ⟨iline.annotationOf p.x, xline.annotationOf p.y⟩) ∧
      (∀ p, t.indexOfAnnotation p = ⟨iline.indexOf p.x, xline.indexOf p.y⟩) ∧
      t.worldOfAnnotation = t.worldOfIndex ∘ t.indexOfAnnotation ∧
      t.annotationOfWorld = t.annotationOfIndex ∘ t.indexOfWorld ∧
      Inverses t.worldOfIndex t.indexOfWorld ∧
      (iline.step.val ≠ 0 → xline.step.val ≠ 0 →
        Inverses t.annotationOfIndex t.indexOfAnnotation ∧
        Inverses t.worldOfAnnotation t.annotationOfWorld) := by
  refine ⟨fun e => ofSpacing_eq_error_iff_parallel, parallel_iff, fun t ht => ?_⟩
  have hworld := inverses_indexOfWorld ht
  refine ⟨fun p => ?_, congrFun (annotation_of_axes ht).1, congrFun (annotation_of_axes ht).2,
    rfl, rfl, hworld, fun hi hx => ?_⟩
  · rw [(Transformer.ofSpacing_eq_ok ht).2]
    rfl
  · have hlabels := inverses_indexOfAnnotation ht hi hx
    exact ⟨hlabels, hworld.comp hlabels.symm⟩

end Exact

/-- A mirrored survey that is not rectangular, with inlines that are numbered downwards. -/
theorem Transformer.conversions_of_mirrored :
    (Axis.ofRats 5 1 3).step.val ≠ 0 ∧ (Axis.ofRats 7 10 4).step.val ≠ 0 ∧
    ∃ t, ofSpacing ⟨⟨10⟩, ⟨20⟩⟩ ⟨⟨0⟩, ⟨2⟩⟩ ⟨⟨3⟩, ⟨1⟩⟩ (.ofRats 5 1 3) (.ofRats 7 10 4) = .ok t ∧
      t.worldOfAnnotation ⟨⟨3⟩, ⟨8⟩⟩ = ⟨⟨13⟩, ⟨23⟩⟩ ∧
      t.annotationOfWorld ⟨⟨13⟩, ⟨23⟩⟩ = ⟨⟨3⟩, ⟨8⟩⟩ := by
  have hi : (Axis.ofRats 5 1 3).step.val ≠ 0 := by decide +kernel
  have hx : (Axis.ofRats 7 10 4).step.val ≠ 0 := by decide +kernel
  obtain ⟨herror, hparallel, hok⟩ := Exact.conversions_of_spacing (K := ℚ) ⟨⟨10⟩, ⟨20⟩⟩
    ⟨⟨0⟩, ⟨2⟩⟩ ⟨⟨3⟩, ⟨1⟩⟩ (.ofRats 5 1 3) (.ofRats 7 10 4)
  cases ht : ofSpacing (⟨⟨10⟩, ⟨20⟩⟩ : Point (Exact ℚ)) ⟨⟨0⟩, ⟨2⟩⟩ ⟨⟨3⟩, ⟨1⟩⟩ (.ofRats 5 1 3)
      (.ofRats 7 10 4) with
  | error e => exact absurd (hparallel.mp ((herror e).mp ht).2) (by norm_num)
  | ok t =>
    obtain ⟨hworld, -, hindex, -, -, -, hsteps⟩ := hok t ht
    have hplace : t.worldOfAnnotation ⟨⟨3⟩, ⟨8⟩⟩ = ⟨⟨13⟩, ⟨23⟩⟩ := by
      rw [Transformer.worldOfAnnotation, hindex, hworld]
      exact Point.ext (by decide +kernel) (by decide +kernel)
    refine ⟨hi, hx, t, rfl, hplace, ?_⟩
    rw [← hplace]
    exact (hsteps hi hx).2.1 _

end Seismic
