import Seismic.Proofs.Agreement
import Seismic.Proofs.Subvolume.Columns
import Seismic.Proofs.Volume.Between

/-!
# Layouts that cannot be told apart

Fetching and reducing look at the boundaries of a window only to find its first sample and to
resample it.  Two layouts around one reference, with the same windows and boundaries that lead
to the same samples, are fetched and reduced to the same outputs, or neither is.
-/

namespace Seismic

variable {α σ : Type}

namespace Layout

variable {l l' : Layout α σ}

theorem isEmpty_congr (h : l'.offsets = l.offsets) (index : Nat) :
    (l'.isEmpty index : Result α _) = l.isEmpty index := by
  cases l
  cases l'
  subst h
  rfl

theorem range_congr (h : l'.offsets = l.offsets) (index : Nat) :
    (l'.range index : Result α _) = l.range index := by
  cases l
  cases l'
  subst h
  rfl

variable [Scalar α] [Sampled σ α]

/-- Layouts with the same windows at the same places of a volume. -/
structure Alike (survey : Survey α) (l l' : Layout α σ) : Prop where
  reference : l'.reference = l.reference
  offsets : l'.offsets = l.offsets
  first : ∀ index, l.isEmpty index = .ok false →
    l'.firstSample survey index = l.firstSample survey index

end Layout

/-! ## Fetching -/

/-- The same samples in two layouts. -/
structure Partition.Alike (l l' : Layout α σ) (p p' : Partition α σ) : Prop where
  left : p.layout = l
  right : p'.layout = l'
  lower : p'.lower = p.lower
  upper : p'.upper = p.upper
  data : p'.data = p.data

structure Subvolume.Alike (l l' : Layout α σ) (s s' : Subvolume α σ) : Prop where
  left : s.layout = l
  right : s'.layout = l'
  data : s'.data = s.data

namespace Partition

variable {l l' : Layout α σ} {p p' : Partition α σ}

theorem Alike.range_eq (h : Alike l l' p p') (hl : l'.offsets = l.offsets) (index : Nat) :
    (p'.range index : Result α _) = p.range index := by
  unfold range base
  rw [h.left, h.right, h.lower, h.upper, hl, Layout.range_congr hl]

theorem Alike.segment_eq (h : Alike l l' p p') (hl : l'.offsets = l.offsets) (index : Nat) :
    (p'.segment index : Result α _) = p.segment index := by
  unfold segment
  rw [h.range_eq hl, h.data]

theorem Alike.write_agree (h : Alike l l' p p') (hl : l'.offsets = l.offsets) (index : Nat)
    (samples : List σ) :
    Agree (Alike l l') (p.write index samples) (p'.write index samples) := by
  unfold write
  refine .bind_eq (h.range_eq hl index) fun ⟨first, last⟩ _ => .ok ?_
  exact ⟨h.left, h.right, h.lower, h.upper, by rw [h.data]⟩

end Partition

namespace Volume

variable [Scalar α] [Sampled σ α] {v : Volume α σ} {l l' : Layout α σ} {p p' : Partition α σ}

theorem fetchCell_agree (hl : l.Alike v.survey l') (h : p.Alike l l' p') (index : Nat) :
    Agree (Partition.Alike l l') (v.fetchCell p index) (v.fetchCell p' index) := by
  unfold fetchCell
  rw [h.left, h.right]
  refine .bind_eq (Layout.isEmpty_congr hl.offsets index) fun e he => ?_
  cases e with
  | true => exact .ok h
  | false =>
    have htrace : l'.traceOf v.survey index = l.traceOf v.survey index := by
      unfold Layout.traceOf
      rw [hl.reference]
    refine .bind_eq htrace fun ⟨i, j⟩ _ => ?_
    refine .bind_eq (hl.first index he) fun first _ => ?_
    refine .bind_eq (h.segment_eq hl.offsets index) fun segment _ => ?_
    refine .bind_eq rfl fun box _ => ?_
    refine .bind_eq rfl fun samples _ => ?_
    exact h.write_agree hl.offsets index samples.toList

theorem fetchCells_agree (hl : l.Alike v.survey l') (is : List Nat) {p p' : Partition α σ}
    (h : p.Alike l l' p') : Agree Eq (v.fetchCells p is).1 (v.fetchCells p' is).1 ∧
      Partition.Alike l l' (v.fetchCells p is).2 (v.fetchCells p' is).2 := by
  induction is generalizing p p' with
  | nil => exact ⟨.ok rfl, h⟩
  | cons i is ih =>
    have hcell := fetchCell_agree hl h i
    unfold fetchCells
    generalize v.fetchCell p i = x at hcell ⊢
    generalize v.fetchCell p' i = y at hcell ⊢
    cases hcell with
    | ok h' => exact ih h'
    | error he => exact ⟨.error he, h⟩

theorem fetchPartitions_agree (hl : l.Alike v.survey l') {ps ps' : List (Partition α σ)}
    (h : List.Forall₂ (Partition.Alike l l') ps ps') :
    Agree Eq (v.fetchPartitions ps).1 (v.fetchPartitions ps').1 ∧
      List.Forall₂ (Partition.Alike l l') (v.fetchPartitions ps).2 (v.fetchPartitions ps').2 := by
  induction h with
  | nil => exact ⟨.ok rfl, .nil⟩
  | @cons p p' ps ps' hp hps ih =>
    obtain ⟨hdone, hcells⟩ :=
      fetchCells_agree hl (List.range' p.lower (p.upper - p.lower)) hp
    unfold fetchPartitions
    rw [hp.lower, hp.upper]
    generalize v.fetchCells p (List.range' p.lower (p.upper - p.lower)) = x at hdone hcells ⊢
    generalize v.fetchCells p' (List.range' p.lower (p.upper - p.lower)) = y at hdone hcells ⊢
    obtain ⟨done, q⟩ := x
    obtain ⟨done', q'⟩ := y
    cases hdone with
    | ok _ => exact ⟨ih.1, .cons hcells ih.2⟩
    | error he => exact ⟨.error he, .cons hcells hps⟩

/-- Fetching looks at a layout only for the windows and for where they begin. -/
theorem fetch_agree (hl : l.Alike v.survey l') {s s' : Subvolume α σ} (h : s.Alike l l' s')
    (size : Nat) : Agree Eq (v.fetch s size).1 (v.fetch s' size).1 ∧
      Subvolume.Alike l l' (v.fetch s size).2 (v.fetch s' size).2 := by
  have hcells : s'.layout.cells = s.layout.cells := by
    rw [Layout.cells, Layout.cells, h.left, h.right, hl.offsets]
  unfold fetch Subvolume.partitions
  rw [hcells]
  by_cases h0 : size = 0
  · rw [if_pos h0, if_pos h0]
    exact ⟨.error rfl, h⟩
  · rw [if_neg h0, if_neg h0]
    have hparts : List.Forall₂ (Partition.Alike l l')
        ((runs s.layout.cells size).map fun r => s.partition r.1 r.2)
        ((runs s.layout.cells size).map fun r => s'.partition r.1 r.2) := by
      rw [List.forall₂_map_left_iff, List.forall₂_map_right_iff, List.forall₂_same]
      intro r _
      refine ⟨h.left, h.right, rfl, rfl, ?_⟩
      show s'.data.extract _ _ = s.data.extract _ _
      rw [h.data, h.left, h.right, hl.offsets]
    obtain ⟨hdone, hps⟩ := fetchPartitions_agree hl hparts
    refine ⟨hdone, h.left, h.right, ?_⟩
    have hdata : ∀ {ps ps' : List (Partition α σ)}, List.Forall₂ (Partition.Alike l l') ps ps' →
        ps'.map Partition.data = ps.map Partition.data := by
      intro ps ps' hps
      induction hps with
      | nil => rfl
      | cons hp _ ih => rw [List.map_cons, List.map_cons, hp.data, ih]
    show (_ : List (Array σ)).foldl _ _ = (_ : List (Array σ)).foldl _ _
    rw [hdata hps]

end Volume

/-! ## Reducing -/

section Reducing

variable [Scalar α] [Sampled σ α]

/-- Columns that every attribute takes for the same. -/
structure ResampledSegment.Alike (c c' : ResampledSegment α) : Prop where
  values : c'.values = c.values
  referenceIndex : c'.referenceIndex = c.referenceIndex

theorem Attribute.reduce_congr [Root α] [Limits α] {c c' : ResampledSegment α} (h : c.Alike c')
    (kind : Attribute) : kind.reduce c' = kind.reduce c := by
  unfold reduce
  rw [h.values, h.referenceIndex]

namespace Subvolume

variable {l l' : Layout α σ} {s s' : Subvolume α σ} {spacing : ResampledSpacing α}

theorem column_agree {w w' : Worker α} (hw : w.column.spacing = spacing)
    (hw' : w'.column.spacing = spacing) {index : Nat}
    (h : Agree ResampledSegment.Alike (s.freshColumn spacing index)
      (s'.freshColumn spacing index)) :
    Agree (fun u u' => u.column.Alike u'.column ∧ u.column.spacing = spacing ∧
      u'.column.spacing = spacing) (s.column w index) (s'.column w' index) := by
  rw [← map_column hw, ← map_column hw'] at h
  refine h.of_map.imp fun u u' hu hu' hc => ⟨hc, ?_, ?_⟩
  · exact (column_eq_ok hw hu).2
  · exact (column_eq_ok hw' hu').2

variable [Root α] [Limits α]

theorem reduceCell_agree (hs : s.Alike l l' s') (hoff : l'.offsets = l.offsets)
    (href : l'.reference = l.reference) {w w' : Worker α} {os : List (Output σ)}
    (hw : w.column.spacing = spacing) (hw' : w'.column.spacing = spacing) {index : Nat}
    (h : l.isEmpty index = .ok false → Agree ResampledSegment.Alike
      (s.freshColumn spacing index) (s'.freshColumn spacing index)) :
    Agree (fun r r' => r'.2 = r.2 ∧ r.1.column.spacing = spacing ∧ r'.1.column.spacing = spacing)
      (s.reduceCell (w, os) index) (s'.reduceCell (w', os) index) := by
  have hfill : l'.fill = l.fill := by rw [Layout.fill, Layout.fill, href]
  unfold reduceCell
  rw [hs.left, hs.right, hfill]
  refine .bind_eq (Layout.isEmpty_congr hoff index) fun e he => ?_
  cases e with
  | true =>
    rw [if_pos rfl, if_pos rfl]
    exact .bind_eq rfl fun written _ => .ok ⟨rfl, hw, hw'⟩
  | false =>
    rw [if_neg Bool.false_ne_true, if_neg Bool.false_ne_true]
    refine (column_agree hw hw' (h he)).bind fun u u' _ _ ⟨hc, hu, hu'⟩ => ?_
    simp only [Attribute.reduce_congr hc]
    exact .bind_eq rfl fun written _ => .ok ⟨rfl, hu, hu'⟩

theorem reduceRange_agree (hs : s.Alike l l' s') (hoff : l'.offsets = l.offsets)
    (href : l'.reference = l.reference)
    (h : ∀ index, l.isEmpty index = .ok false → Agree ResampledSegment.Alike
      (s.freshColumn spacing index) (s'.freshColumn spacing index))
    (os : List (Output σ)) (lower upper : Nat) :
    Agree Eq (s.reduceRange spacing os lower upper) (s'.reduceRange spacing os lower upper) := by
  have hcells : s'.layout.cells = s.layout.cells := by
    rw [Layout.cells, Layout.cells, hs.left, hs.right, hoff]
  unfold reduceRange
  rw [hcells]
  refine .check Iff.rfl rfl fun _ => ?_
  have hfold : Agree (fun r r' => r'.2 = r.2 ∧ r.1.column.spacing = spacing ∧
      r'.1.column.spacing = spacing)
      ((List.range' lower (upper - lower)).foldlM s.reduceCell (Worker.start spacing, os))
      ((List.range' lower (upper - lower)).foldlM s'.reduceCell (Worker.start spacing, os)) := by
    refine Agree.foldlM (fun index _ r r' hr => ?_) ⟨rfl, rfl, rfl⟩
    obtain ⟨w, os⟩ := r
    obtain ⟨w', os'⟩ := r'
    obtain ⟨rfl, hw, hw'⟩ := hr
    exact reduceCell_agree hs hoff href hw hw' (h index)
  exact hfold.bind fun r r' _ _ hr => .ok hr.1.symm

theorem reduce_agree (hs : s.Alike l l' s') (hoff : l'.offsets = l.offsets)
    (href : l'.reference = l.reference)
    (h : ∀ index, l.isEmpty index = .ok false → Agree ResampledSegment.Alike
      (s.freshColumn spacing index) (s'.freshColumn spacing index))
    (kinds : List Attribute) (buffers : List (Array σ)) (size : Nat) :
    Agree Eq (s.reduce spacing kinds buffers size) (s'.reduce spacing kinds buffers size) := by
  have hcells : s'.layout.cells = s.layout.cells := by
    rw [Layout.cells, Layout.cells, hs.left, hs.right, hoff]
  unfold reduce
  rw [hcells]
  refine .check Iff.rfl rfl fun _ => .check Iff.rfl rfl fun _ => ?_
  dsimp only
  cases buffers.find? fun buffer => buffer.size != s.layout.cells with
  | some buffer => exact .error rfl
  | none =>
    refine .bind_eq rfl fun parts _ => ?_
    refine Agree.bind (Agree.mapM fun p _ => ?_) fun done done' _ _ hd => ?_
    · exact reduceRange_agree hs hoff href h p.2.2 p.1 p.2.1
    · rw [hd]
      exact .of_eq rfl

end Subvolume

/-- A request whose subvolume is laid out alike, with alike columns, is answered alike. -/
theorem Volume.attributesBetween_agree_of [Root α] [Limits α] (v : Volume α σ)
    {reference top bottom top' bottom' : Horizon α σ} {options : Options α}
    (h : ∀ spacing, ResampledSpacing.ofStepsize (options.stepsizeFor v.survey) = .ok spacing →
      Agree (fun s s' => s.layout.Alike v.survey s'.layout ∧ s.Alike s.layout s'.layout s' ∧
        ∀ t t' : Subvolume α σ, t.Alike s.layout s'.layout t' →
          ∀ index, s.layout.isEmpty index = .ok false →
            Agree ResampledSegment.Alike (t.freshColumn spacing index)
              (t'.freshColumn spacing index))
        (Subvolume.between v.survey reference top bottom)
        (Subvolume.between v.survey reference top' bottom')) :
    Agree Eq (v.attributesBetween reference top bottom options)
      (v.attributesBetween reference top' bottom' options) := by
  unfold attributesBetween
  refine .bind_eq rfl fun _ _ => .bind_eq rfl fun spacing hsp => ?_
  refine (h spacing hsp).bind fun s s' _ _ ⟨hl, hs, hcolumns⟩ => ?_
  obtain ⟨hdone, hfetched⟩ := fetch_agree hl hs options.partitionSize
  generalize v.fetch s options.partitionSize = x at hdone hfetched ⊢
  generalize v.fetch s' options.partitionSize = y at hdone hfetched ⊢
  obtain ⟨done, t⟩ := x
  obtain ⟨done', t'⟩ := y
  refine Agree.bind hdone fun _ _ _ _ _ => ?_
  have hcells : t'.layout.cells = t.layout.cells := by
    rw [Layout.cells, Layout.cells, hfetched.left, hfetched.right, hl.offsets]
  rw [hcells]
  exact Subvolume.reduce_agree hfetched hl.offsets hl.reference (hcolumns t t' hfetched) _ _ _

end Reducing
end Seismic
