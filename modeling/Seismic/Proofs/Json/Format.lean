import Seismic.Proofs.Json.Parts
import Seismic.Proofs.Result

/-!
# Requests and surveys that read back

The form of a structure is made of the forms of its fields, under names that differ.  It is written
and read under the same names, in the same order, and each field is read as what it was written as.
So options that can be carried out, and surveys of finite numbers without an import time, are
exchanged without loss by any library that does what is expected of it.
-/

namespace Seismic

open Codec (Lawful Written Forms forms_choice forms_list forms_option)
open Double (IsFinite)

variable {V : Type} [Codec V]

theorem Attribute.forms (laws : Lawful V) (depth : Nat) (a : Attribute) :
    Forms depth ofJson? (a.toJson : V) a :=
  forms_choice laws (by cases a <;> decide)

/-! ## Geometry -/

/-- A map with finite entries. -/
structure Affine.IsFinite (t : Affine Float) : Prop where
  a : Double.IsFinite t.a
  b : Double.IsFinite t.b
  c : Double.IsFinite t.c
  d : Double.IsFinite t.d
  e : Double.IsFinite t.e
  f : Double.IsFinite t.f

theorem Affine.forms (laws : Lawful V) {t : Affine Float} (h : t.IsFinite) (depth : Nat) :
    Forms (depth + 3) ofJson? (t.toJson : V) t := by
  refine ⟨.fields (by decide) rfl ?_, ?_⟩
  · have hupper : Written (depth + 1)
        (Codec.ofItems [Codec.ofDouble t.a, Codec.ofDouble t.b, Codec.ofDouble t.c] : V) :=
      .items (by simp [Written.double, h.a, h.b, h.c])
    have hlower : Written (depth + 1)
        (Codec.ofItems [Codec.ofDouble t.d, Codec.ofDouble t.e, Codec.ofDouble t.f] : V) :=
      .items (by simp [Written.double, h.d, h.e, h.f])
    rw [List.forall_mem_singleton]
    exact .items (by simp [hupper, hlower])
  · unfold ofJson? toJson
    rw [laws.fields?_ofFields false (by decide) rfl]
    simp [laws.toItems?_ofItems, laws.toDouble?_ofDouble, h.a, h.b, h.c, h.d, h.e, h.f]

/-! ## Surveys -/

/-- Axes that have a form: with finite ends and counts of 64 bits. -/
structure Axis.Writable (a : Axis Float) : Prop where
  first : IsFinite a.first
  last : IsFinite a.last
  nsamples : a.nsamples < countBound
  dimension : a.dimension < countBound

theorem Axis.forms (laws : Lawful V) {a : Axis Float} (h : a.Writable) (depth : Nat) :
    Forms (depth + 1) ofJson? (a.toJson : V) a := by
  refine ⟨.fields (by decide) rfl ?_, ?_⟩
  · simp [Written.double, Written.count, Written.string, h.first, h.last, h.nsamples, h.dimension]
  · unfold ofJson? toJson
    rw [laws.fields?_ofFields false (by decide) rfl]
    simp [laws.toDouble?_ofDouble, laws.toCount?_ofCount, laws.toString?_ofString, h.first, h.last,
      h.nsamples, h.dimension]

structure Transformer.IsFinite (t : Transformer Float) : Prop where
  indexToWorld : t.indexToWorld.IsFinite
  worldToIndex : t.worldToIndex.IsFinite
  inlineFirst : Double.IsFinite t.inlineFirst
  inlineStep : Double.IsFinite t.inlineStep
  crosslineFirst : Double.IsFinite t.crosslineFirst
  crosslineStep : Double.IsFinite t.crosslineStep

theorem Transformer.forms (laws : Lawful V) {t : Transformer Float} (h : t.IsFinite)
    (depth : Nat) : Forms (depth + 4) ofJson? (t.toJson : V) t := by
  have hforward := Affine.forms laws h.indexToWorld depth
  have hbackward := Affine.forms laws h.worldToIndex depth
  refine ⟨.fields (by decide) rfl ?_, ?_⟩
  · simp [Written.double, hforward.written, hbackward.written, h.inlineFirst, h.inlineStep,
      h.crosslineFirst, h.crosslineStep]
  · unfold ofJson? toJson
    rw [laws.fields?_ofFields false (by decide) rfl]
    simp [laws.toDouble?_ofDouble, hforward.reads, hbackward.reads, h.inlineFirst, h.inlineStep,
      h.crosslineFirst, h.crosslineStep]

/-- Surveys of finite numbers and counts of 64 bits. -/
structure Survey.Writable (s : Survey Float) : Prop where
  iline : s.iline.Writable
  xline : s.xline.Writable
  sample : s.sample.Writable
  transformer : s.transformer.IsFinite

theorem Survey.forms (laws : Lawful V) {s : Survey Float} (h : s.Writable)
    (himported : s.importedAt = none) (depth : Nat) :
    Forms (depth + 5) ofJson? (s.toJson : V) s := by
  obtain ⟨iline, xline, sample, crs, inputFile, importedAt, transformer⟩ := s
  cases himported
  have hiline := Axis.forms laws h.iline (depth + 3)
  have hxline := Axis.forms laws h.xline (depth + 3)
  have hsample := Axis.forms laws h.sample (depth + 3)
  have htransformer := Transformer.forms laws h.transformer depth
  have himported : Written (depth + 4) (Codec.ofOption Moment.toJson none : V) ∧ _ :=
    forms_option laws (depth + 4) Moment.ofJson? Moment.toJson nofun
  refine ⟨.fields (by decide) rfl ?_, ?_⟩
  · simp [Written.string, hiline.written, hxline.written, hsample.written, htransformer.written,
      himported.1]
  · unfold ofJson? toJson
    rw [laws.fields?_ofFields false (by decide) rfl]
    simp [laws.toString?_ofString, hiline.reads, hxline.reads, hsample.reads, htransformer.reads,
      himported.2]

/-! ## Options -/

theorem Options.forms (laws : Lawful V) {o : Options Float}
    (hstep : ∀ x ∈ o.stepsize, IsFinite x) (hsize : o.partitionSize < countBound) (depth : Nat) :
    Forms (depth + 2) ofJson? (o.toJson : V) o := by
  have hattributes := forms_list laws fun a (_ : a ∈ o.attributes) => a.forms laws depth
  have hstepsize := forms_option laws (depth + 1) Codec.toDouble? Codec.ofDouble fun x hx =>
    ⟨⟨.double (hstep x hx), laws.toDouble?_ofDouble (hstep x hx)⟩,
      laws.isNull_ofDouble (hstep x hx)⟩
  refine ⟨.fields (by decide) rfl ?_, ?_⟩
  · simp [Written.count, hattributes.written, hstepsize.1, hsize]
  · unfold ofJson? toJson
    rw [laws.fields?_ofFields true (by decide) rfl]
    simp [Codec.defaulted?, laws.toCount?_ofCount, hattributes.reads, hstepsize.2, hsize]

theorem Options.validate_eq_ok {α : Type} [Scalar α] {o : Options α} :
    o.validate = .ok () ↔ o.attributes ≠ [] ∧ (∀ a ∈ o.attributes, a.isAvailable = true) ∧
      (∀ x ∈ o.stepsize, isStepsize x = true) ∧ o.partitionSize ≠ 0 := by
  unfold validate
  dsimp only
  rw [check_eq_ok]
  refine and_congr (by simp) ?_
  cases havailable : o.attributes.find? fun a => !a.isAvailable with
  | some a =>
    refine iff_of_false (fun h => by cases h) fun h => ?_
    have ha := h.1 a (List.mem_of_find?_eq_some havailable)
    exact absurd (List.find?_some havailable) (by simp [ha])
  | none =>
    have hall : ∀ a ∈ o.attributes, a.isAvailable = true := by simpa using havailable
    rw [iff_true_intro hall, true_and]
    cases o.stepsize with
    | none =>
      dsimp only
      split_ifs <;> simp [*]
    | some x =>
      dsimp only
      rw [check_eq_ok]
      split_ifs <;> simp [*]

theorem Options.ofText_toJson (laws : Lawful V) {o : Options Float} (hvalid : o.validate = .ok ())
    (hsize : o.partitionSize < countBound) :
    ofText V (Codec.render (o.toJson : V)) = .ok o := by
  have hstep : ∀ x ∈ o.stepsize, IsFinite x := fun x hx =>
    (Bool.and_eq_true_iff.mp ((validate_eq_ok.mp hvalid).2.2.1 x hx)).1
  unfold ofText
  rw [(forms laws hstep hsize 0).parse laws (by decide)]
  dsimp only
  rw [hvalid]
  rfl

/-! ## Reading undoes writing -/

/-- Whatever library is used, options that can be carried out read back from their text, and so do
surveys of finite numbers without a time of import. -/
theorem Json.reads_back (laws : Lawful V) :
    (∀ o : Options Float, o.validate = .ok () → o.partitionSize < countBound →
      Options.ofText V (Codec.render (o.toJson : V)) = .ok o) ∧
    ∀ s : Survey Float, s.Writable → s.importedAt = none →
      (Codec.parse? (Codec.render (s.toJson : V)) : Option V).bind Survey.ofJson? = some s :=
  ⟨fun _ hvalid hsize => Options.ofText_toJson laws hvalid hsize,
    fun _ h himported => (Survey.forms laws h himported 0).parse laws (by decide)⟩

/-- A survey of fractions, from a file whose name needs escapes. -/
def Survey.fractional : Survey Float where
  iline := ⟨0.5, 1.5, 2, "Inline", "unitless", 3⟩
  xline := ⟨1.25, 3.25, 3, "Crossline", "unitless", 2⟩
  sample := ⟨0.1, 12.1, 4, "Sample", "ms", 1⟩
  crs := "utm"
  inputFile := "C:\\\"\x00\n"
  importedAt := none
  transformer :=
    { indexToWorld := ⟨0.5, -0.25, 10.5, 0.25, 0.5, 20.5⟩
      worldToIndex := ⟨1.6, 0.8, -33.2, -0.8, 1.6, -24.4⟩
      inlineFirst := 0.5
      inlineStep := 0.5
      crosslineFirst := 1.25
      crosslineStep := 0.5 }

theorem Survey.fractional_writable : Survey.fractional.Writable := by
  refine ⟨⟨?_, ?_, by decide, by decide⟩, ⟨?_, ?_, by decide, by decide⟩,
    ⟨?_, ?_, by decide, by decide⟩, ⟨⟨?_, ?_, ?_, ?_, ?_, ?_⟩, ⟨?_, ?_, ?_, ?_, ?_, ?_⟩,
      ?_, ?_, ?_, ?_⟩⟩
  all_goals
    unfold IsFinite
    decide +kernel

theorem Json.reads_back_of_fractional :
    Options.ofRequest (Codec.render (Options.toJson ⟨[.rms, .sumPos], some 0.1, 7⟩ : Json)) =
        .ok ⟨[.rms, .sumPos], some 0.1, 7⟩ ∧
      (Codec.parse? (Codec.render (Survey.fractional.toJson : Json)) : Option Json).bind
        Survey.ofJson? = some Survey.fractional :=
  ⟨(reads_back lawful).1 _ (by decide +kernel) (by decide),
    (reads_back lawful).2 _ Survey.fractional_writable rfl⟩

end Seismic
