import Seismic.Json.Format
import Seismic.Proofs.Double.Arithmetic

/-!
# What is expected of a library

A library has to bring back what it was given.  A part of a value is read as what it was made of,
and the fields of a structure are found by their names, as long as these differ.  A text is read as
the value it was rendered from, if that is made of finite numbers, counts of 64 bits, texts and
names, and not nested too deep.
-/

namespace Seismic
namespace Codec

open Double (IsFinite)

variable {V : Type} [Codec V] {β : Type}

/-- Values with a text, and how deep they are nested. -/
inductive Written : Nat → V → Prop
  | null {depth : Nat} : Written depth null
  | double {depth : Nat} {x : Float} (h : IsFinite x) : Written depth (ofDouble x)
  | count {depth n : Nat} (h : n < countBound) : Written depth (ofCount n)
  | string {depth : Nat} (s : String) : Written depth (ofString s)
  | name {depth : Nat} (s : String) : Written depth (ofName s)
  | items {depth : Nat} {vs : List V} (h : ∀ v ∈ vs, Written depth v) :
      Written (depth + 1) (ofItems vs)
  | fields {depth : Nat} {names : List String} {vs : List V} (hnames : names.Nodup)
      (hlength : names.length = vs.length) (h : ∀ v ∈ vs, Written depth v) :
      Written (depth + 1) (ofFields names vs)

/-- Texts are not nested deeper. -/
def depthBound : Nat := 128

/-- What is expected of a library. -/
structure Lawful (V : Type) [Codec V] : Prop where
  /-- The digits of a number, the marks of a text and the brackets of a value are read as what they
  were written for. -/
  parse?_render : ∀ {depth : Nat} {v : V}, Written depth v → depth < depthBound →
    parse? (render v) = some v
  toDouble?_ofDouble : ∀ {x : Float}, IsFinite x → toDouble? (ofDouble x : V) = some x
  toCount?_ofCount : ∀ {n : Nat}, n < countBound → toCount? (ofCount n : V) = some n
  toString?_ofString : ∀ s, toString? (ofString s : V) = some s
  toName?_ofName : ∀ s, toName? (ofName s : V) = some s
  toItems?_ofItems : ∀ vs : List V, toItems? (ofItems vs) = some vs
  /-- A value that may be missing is there unless it was written as `null`. -/
  isNull_null : isNull (null : V) = true
  isNull_ofDouble : ∀ {x : Float}, IsFinite x → isNull (ofDouble x : V) = false
  /-- The fields of a structure go by their names. -/
  fields?_ofFields : ∀ {names : List String} {vs : List V} (defaults : Bool), names.Nodup →
    names.length = vs.length → fields? names defaults (ofFields names vs) = some (vs.map some)

/-- A value that has a text and is read as `x`. -/
structure Forms (depth : Nat) (read : V → Option β) (v : V) (x : β) : Prop where
  written : Written depth v
  reads : read v = some x

variable {depth : Nat} {read : V → Option β}

theorem Forms.parse {v : V} {x : β} (h : Forms depth read v x) (laws : Lawful V)
    (hdepth : depth < depthBound) : (parse? (render v) : Option V).bind read = some x := by
  rw [laws.parse?_render h.written hdepth]
  exact h.reads

theorem forms_choice (laws : Lawful V) {all : List β} {name : β → String} {c : β}
    (h : all.find? (fun d => name d == name c) = some c) :
    Forms depth (choice? all name) (ofName (name c) : V) c := by
  refine ⟨.name _, ?_⟩
  unfold choice?
  rw [laws.toName?_ofName]
  exact h

theorem forms_list (laws : Lawful V) {write : β → V} {xs : List β}
    (h : ∀ x ∈ xs, Forms depth read (write x) x) :
    Forms (depth + 1) (list? read) (ofItems (xs.map write)) xs := by
  refine ⟨.items fun v hv => ?_, ?_⟩
  · obtain ⟨x, hx, rfl⟩ := List.mem_map.mp hv
    exact (h x hx).written
  · unfold list?
    rw [laws.toItems?_ofItems]
    show (xs.map write).mapM read = some xs
    induction xs with
    | nil => rfl
    | cons x xs ih =>
      rw [List.map_cons, List.mapM_cons, (h x List.mem_cons_self).reads,
        ih fun y hy => h y (List.mem_cons_of_mem x hy)]
      rfl

/-- A value that may be missing. -/
theorem forms_option (laws : Lawful V) (depth : Nat) (read : V → Option β) (write : β → V)
    {x : Option β} (h : ∀ y ∈ x, Forms depth read (write y) y ∧ isNull (write y) = false) :
    Written depth (ofOption write x) ∧ optional? read (some (ofOption write x)) = some x := by
  cases x with
  | none => exact ⟨.null, if_pos laws.isNull_null⟩
  | some y =>
    obtain ⟨hforms, hnull⟩ := h y rfl
    refine ⟨hforms.written, ?_⟩
    unfold optional? ofOption
    simp only [hnull, hforms.reads]
    rfl

end Codec
end Seismic
