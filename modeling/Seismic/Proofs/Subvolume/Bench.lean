import Seismic.Proofs.Column.Median
import Seismic.Proofs.Subvolume.Columns

/-!
# The median among other attributes

A selection leaves its list rearranged, and the next cell finds in the memory of a copy what an
earlier one has left there.  Neither shows: the copy is emptied and filled again before a value is
selected in it, and the column that the other attributes read is not the copy.  So a run of cells
stores what it stores where the median is that of a sorted column.
-/

namespace Seismic

open Double (IsNumber)

namespace Column

variable {xs : List Float} {select : Nat → List Float → List Float}

theorem medianInPlace_eq (hsel : Selects select) (hxs : ∀ x ∈ xs, IsNumber x) :
    (medianInPlace select xs).1 = median xs := by
  unfold medianInPlace
  cases hempty : xs.isEmpty with
  | true =>
    rw [List.isEmpty_iff.mp hempty, if_pos rfl, median, List.mergeSort_nil]
    rfl
  | false =>
    have hpos : 0 < xs.length := by
      rw [List.length_pos_iff, ne_eq, ← List.isEmpty_iff, hempty]
      exact Bool.false_ne_true
    obtain ⟨upper, h⟩ := hsel (xs.length / 2) xs (by omega)
    exact medianOf_eq_median hxs h

namespace Bench

variable {b : Bench}

@[simp] theorem copy_refill (b : Bench) : b.refill.copy = b.segment.values.toList := by
  simp [refill]

theorem compute_eq (hsel : Selects select) (hxs : ∀ x ∈ b.segment.values.toList, IsNumber x)
    (a : Attribute) :
    (b.compute select a).1 = a.reduce b.segment ∧
      (b.compute select a).2.segment = b.segment := by
  cases a with
  | median =>
    have hm := medianInPlace_eq hsel hxs
    refine ⟨?_, rfl⟩
    show (Except.ok (medianInPlace select b.refill.copy).1 : Result Float Float) = _
    rw [copy_refill, hm]
    rfl
  | _ => exact ⟨rfl, rfl⟩

theorem computeAll_eq (hsel : Selects select) (hxs : ∀ x ∈ b.segment.values.toList, IsNumber x)
    (as : List Attribute) :
    (b.computeAll select as).1 = as.map (·.reduce b.segment) ∧
      (b.computeAll select as).2.segment = b.segment := by
  induction as generalizing b with
  | nil => exact ⟨rfl, rfl⟩
  | cons a as ih =>
    obtain ⟨hv, hseg⟩ := compute_eq hsel hxs a
    have hnext : (b.compute select a).2.segment.values.toList = b.segment.values.toList := by
      rw [hseg]
    obtain ⟨hvs, hsegs⟩ := ih (b := (b.compute select a).2) (hnext ▸ hxs)
    rw [hseg] at hvs hsegs
    refine ⟨?_, hsegs⟩
    show (b.compute select a).1 :: ((b.compute select a).2.computeAll select as).1 = _
    rw [hv, hvs, List.map_cons]

end Bench
end Column

/-! ## A run of cells -/

namespace Subvolume

open Column (Selects Bench)

variable {σ : Type} [Sampled σ Float] {select : Nat → List Float → List Float}
  {s : Subvolume Float σ} {index : Nat}

/-- The outputs, without what has been left in the copies. -/
def withoutCopies (state : Worker Float × List (Output σ × List Float)) :
    Worker Float × List (Output σ) :=
  (state.1, state.2.map Prod.fst)

theorem storeAttributes_eq (hsel : Selects select) {c : ResampledSegment Float}
    (hc : ∀ x ∈ c.values.toList, IsNumber x) (index : Nat) (os : List (Output σ × List Float)) :
    (fun r => (r.1.map Prod.fst, r.2)) <$> storeAttributes select index os c =
      (fun written => (written, c)) <$>
        (os.map Prod.fst).mapM fun o => (do
          o.write (Sampled.narrow (← o.kind.reduce c)) index : Result Float (Output σ)) := by
  induction os with
  | nil => rfl
  | cons o os ih =>
    obtain ⟨o, copy⟩ := o
    obtain ⟨hv, hseg⟩ := Bench.compute_eq (b := ⟨c, copy⟩) hsel hc o.kind
    rw [List.map_cons, List.mapM_cons]
    simp only [storeAttributes, hv, hseg]
    cases o.kind.reduce c with
    | error e => rfl
    | ok x =>
      simp only [ok_bind]
      cases (o.write (Sampled.narrow x) index : Result Float (Output σ)) with
      | error e => rfl
      | ok o' =>
        rw [ok_bind, ok_bind]
        refine map_bind_congr ih fun r written hr => ?_
        cases hr
        rfl

/-- A selection that is given numbers stores the samples of a cell. -/
theorem selectCell_eq (hsel : Selects select) {w : Worker Float} (os : List (Output σ × List Float))
    (hw : ∀ w', s.layout.isEmpty index = .ok false → s.column w index = .ok w' →
      ∀ x ∈ w'.column.values.toList, IsNumber x) :
    withoutCopies <$> s.selectCell select (w, os) index =
      s.reduceCell (withoutCopies (w, os)) index := by
  unfold selectCell reduceCell withoutCopies
  dsimp only
  cases hempty : s.layout.isEmpty index with
  | error e => rfl
  | ok empty =>
    rw [ok_bind, ok_bind]
    cases empty with
    | true =>
      rw [if_pos rfl, if_pos rfl, ← map_mapM_fst]
      cases os.mapM fun o => (do
        return (← o.1.write s.layout.fill index, o.2) : Result Float (Output σ × List Float)) <;> rfl
    | false =>
      rw [if_neg Bool.false_ne_true, if_neg Bool.false_ne_true]
      cases hcolumn : s.column w index with
      | error e => rfl
      | ok w' =>
        have hstore := storeAttributes_eq hsel (hw w' hempty hcolumn) index os
        rw [ok_bind, ok_bind]
        rw [← id_map (_ >>= _ : Result Float (Worker Float × List (Output σ)))]
        refine map_bind_congr hstore ?_
        rintro ⟨stored, c⟩ written hr
        obtain ⟨rfl, rfl⟩ := Prod.mk.inj hr
        rfl

/-- And so for a run of cells. -/
theorem selectRange_eq (hsel : Selects select) {spacing : ResampledSpacing Float}
    {os : List (Output σ × List Float)} {lower upper : Nat}
    (hcolumn : ∀ index, lower ≤ index → index < upper → s.layout.isEmpty index = .ok false →
      ∀ c, s.freshColumn spacing index = .ok c → ∀ x ∈ c.values.toList, IsNumber x) :
    List.map Prod.fst <$> s.selectRange select spacing os lower upper =
      s.reduceRange spacing (os.map Prod.fst) lower upper := by
  have hrun := map_foldlM (f := s.selectCell select) (g := s.reduceCell)
    (l := List.range' lower (upper - lower)) (b := (Worker.start spacing, os)) withoutCopies
    (fun state => state.1.column.spacing = spacing) ?_ ?_ rfl
  · unfold selectRange reduceRange
    split_ifs with hrange
    · rfl
    · refine (map_bind_congr (hrun.trans (id_map _).symm) ?_).trans (id_map _)
      rintro r outputs rfl
      rfl
  · rintro index hindex ⟨w, outputs⟩ hw
    rw [List.mem_range'_1] at hindex
    refine selectCell_eq hsel outputs fun w' hempty hw' => ?_
    exact hcolumn index hindex.1 (by omega) hempty _ (column_eq_ok hw hw').1
  · rintro index - ⟨w, outputs⟩ ⟨w', outputs'⟩ hw h
    exact (reduceCell_eq_ok hw h).1

end Subvolume

open Column (Selects IsMedian Bench)

/-- The median of a column of numbers has the middle rank, is the same for every order of the
column, and is what a selection in a copy of the column finds.  Attributes computed before and
after it are those of the column all the same, whatever the copies hold, and so a run of cells
stores the attributes of their columns. -/
theorem reduce_median {select : Nat → List Float → List Float} (hsel : Selects select)
    (s : ResampledSegment Float) (h0 : s.values.toList ≠ [])
    (hn : ∀ x ∈ s.values.toList, x.isNaN = false) :
    ∃ m, Attribute.median.reduce s = .ok m ∧ IsMedian s.values.toList m ∧
      (∀ t : ResampledSegment Float, t.values.toList.Perm s.values.toList →
        Attribute.median.reduce t = .ok m) ∧
      (Column.medianInPlace select s.values.toList).1 = m ∧
      (∀ (copy : List Float) (as : List Attribute),
        ((Bench.mk s copy).computeAll select as).1 = as.map (·.reduce s) ∧
          ((Bench.mk s copy).computeAll select as).2.segment = s) ∧
      (∀ (v : Subvolume Float Single) (w w' : Worker Float) (index : Nat)
        (os : List (Output Single × List Float)), v.layout.isEmpty index = .ok false →
        v.column w index = .ok w' → w'.column = s →
        (fun r => (r.1, r.2.map Prod.fst)) <$> v.selectCell select (w, os) index =
          v.reduceCell (w, os.map Prod.fst) index) ∧
      ∀ (v : Subvolume Float Single) (spacing : ResampledSpacing Float) (lower upper : Nat)
        (os : List (Output Single × List Float)),
        (∀ index, lower ≤ index → index < upper → v.layout.isEmpty index = .ok false →
          ∀ c, v.freshColumn spacing index = .ok c → ∀ x ∈ c.values.toList, x.isNaN = false) →
        List.map Prod.fst <$> v.selectRange select spacing os lower upper =
          v.reduceRange spacing (os.map Prod.fst) lower upper := by
  have hxs : ∀ x ∈ s.values.toList, IsNumber x := fun x hx => Double.isNumber_iff.mpr (hn x hx)
  refine ⟨Column.median s.values.toList, rfl, Column.isMedian_median hxs h0, ?_,
    Column.medianInPlace_eq hsel hxs, ?_, ?_, ?_⟩
  · intro t ht
    exact congrArg Except.ok (Column.median_perm ht)
  · intro copy as
    exact Bench.computeAll_eq (b := ⟨s, copy⟩) hsel hxs as
  · intro v w w' index os hempty hw' hs
    refine Subvolume.selectCell_eq hsel os fun w'' _ hw'' => ?_
    cases hw'.symm.trans hw''
    exact hs ▸ hxs
  · intro v spacing lower upper os hcolumn
    refine Subvolume.selectRange_eq hsel fun index hl hu hempty c hc x hx => ?_
    exact Double.isNumber_iff.mpr (hcolumn index hl hu hempty c hc x hx)

/-- With zeros of both signs in the middle. -/
theorem reduce_median_of_four : ∃ m,
    Attribute.median.reduce (.four 4 (-0) 0 (-2)) = .ok m ∧ IsMedian [4, -0, 0, -2] m := by
  have hn : ∀ x ∈ ([4, -0, 0, -2] : List Float), x.isNaN = false := by decide +kernel
  obtain ⟨m, hm, hmedian, -⟩ := reduce_median Column.selects_mergeSort (.four 4 (-0) 0 (-2))
    (List.cons_ne_nil _ _) hn
  exact ⟨m, hm, hmedian⟩

end Seismic
