import Seismic.Proofs.Resample
import Seismic.Proofs.Subvolume.Runs
import Seismic.Subvolume.Reduce

/-!
# Columns and the samples of cells

What a cell contributes to an output is a function of the cell: the fill value, or the
attribute of its raw segment resampled from scratch.  A worker that goes from cell to cell
computes the same, because nothing it carries along has an influence except for the spacing,
which never changes.  So a run of cells writes these samples and nothing else, in whatever
order attributes are asked for.
-/

namespace Seismic

theorem forall₂_comp {β γ δ : Type} {R : β → γ → Prop} {S : γ → δ → Prop} {T : β → δ → Prop}
    (h : ∀ b c d, R b c → S c d → T b d) {xs : List β} {ys : List γ} {zs : List δ}
    (hr : List.Forall₂ R xs ys) (hs : List.Forall₂ S ys zs) : List.Forall₂ T xs zs := by
  induction hr generalizing zs with
  | nil =>
    cases hs
    exact .nil
  | cons hb _ ih =>
    cases hs with
    | cons hc hs => exact .cons (h _ _ _ hb hc) (ih hs)

theorem exists_of_forall₂ {β γ : Type} {R : β → γ → Prop} {xs : List β} {ys : List γ}
    (h : List.Forall₂ R xs ys) {y : γ} (hy : y ∈ ys) : ∃ x ∈ xs, R x y := by
  induction h with
  | nil => exact absurd hy List.not_mem_nil
  | cons hr _ ih =>
    rcases List.mem_cons.mp hy with rfl | hy
    · exact ⟨_, List.mem_cons_self, hr⟩
    · obtain ⟨x, hx, hr⟩ := ih hy
      exact ⟨x, List.mem_cons_of_mem _ hx, hr⟩

theorem Output.write_eq_ok {α σ : Type} {o o' : Output σ} {v : σ} {index : Nat} :
    (o.write v index : Result α _) = .ok o' ↔ o.offset ≤ index ∧
      index - o.offset < o.values.size ∧
      o' = { o with values := o.values.setIfInBounds (index - o.offset) v } := by
  unfold Output.write
  split_ifs with h
  · rw [pure_eq_ok]
    exact ⟨fun he => ⟨h.1, h.2, he.symm⟩, fun he => he.2.2.symm⟩
  · refine ⟨fun he => ?_, fun he => absurd ⟨he.1, he.2.1⟩ h⟩
    obtain ⟨_, -, he⟩ := bind_eq_ok.mp he
    cases he

theorem Attribute.exists_reduce {α : Type} [Scalar α] [Root α] [Limits α] {k : Attribute}
    (hk : k.isAvailable = true) {c : ResampledSegment α} {n : Nat}
    (hn : c.referenceIndex = .ok n) : ∃ x, k.reduce c = .ok x := by
  cases k with
  | value => exact ⟨_, bind_eq_ok.mpr ⟨n, hn, rfl⟩⟩
  | minAt => cases hk
  | maxAt => cases hk
  | maxAbsAt => cases hk
  | _ => exact ⟨_, rfl⟩

namespace Subvolume

variable {α σ : Type} [Scalar α] [Sampled σ α]

/-- The column of a cell, resampled by a new spline into a new segment. -/
def freshColumn (s : Subvolume α σ) (spacing : ResampledSpacing α) (index : Nat) :
    Result α (ResampledSegment α) := do
  let raw ← s.rawSegment index
  resample raw (← (ResampledSegment.unset spacing).reset (← s.layout.bounds index))

variable {s : Subvolume α σ} {spacing : ResampledSpacing α} {index : Nat} {w : Worker α}

/-- A worker resamples a cell as one that has not seen a cell. -/
theorem map_column (hw : w.column.spacing = spacing) :
    Worker.column <$> s.column w index = s.freshColumn spacing index := by
  unfold column freshColumn
  cases s.rawSegment index with
  | error e => rfl
  | ok raw =>
    cases s.layout.bounds index with
    | error e => rfl
    | ok bounds =>
      rw [ok_bind, ok_bind, ok_bind, ok_bind, ResampledSegment.reset_eq_unset, hw]
      cases (ResampledSegment.unset spacing).reset bounds with
      | error e => rfl
      | ok empty =>
        rw [ok_bind, ok_bind, ← Spline.resample_eq w.spline]
        rcases w.spline.resample raw empty with ⟨_ | c, u⟩ <;> rfl

theorem freshColumn_eq_ok {c : ResampledSegment α} (h : s.freshColumn spacing index = .ok c) :
    ∃ bounds n, s.layout.bounds index = .ok bounds ∧ c.spacing = spacing ∧ c.bounds = bounds ∧
      spacing.count bounds.reference bounds.top bounds.bottom = .ok n := by
  unfold freshColumn at h
  obtain ⟨raw, -, h⟩ := bind_eq_ok.mp h
  obtain ⟨bounds, hb, h⟩ := bind_eq_ok.mp h
  obtain ⟨empty, he, h⟩ := bind_eq_ok.mp h
  obtain ⟨hsp, hbd, hn⟩ := ResampledSegment.reset_eq_ok he
  obtain ⟨hsp', hbd'⟩ := resample_eq_ok h
  exact ⟨bounds, _, hb, hsp'.trans hsp, hbd'.trans hbd, hn⟩

theorem column_eq_ok {w' : Worker α} (hw : w.column.spacing = spacing)
    (h : s.column w index = .ok w') :
    s.freshColumn spacing index = .ok w'.column ∧ w'.column.spacing = spacing := by
  have hc : Worker.column <$> s.column w index = s.freshColumn spacing index := map_column hw
  rw [h] at hc
  have hf : s.freshColumn spacing index = .ok w'.column := hc.symm
  obtain ⟨-, -, -, hsp, -⟩ := freshColumn_eq_ok hf
  exact ⟨hf, hsp⟩

theorem exists_column {c : ResampledSegment α} (hw : w.column.spacing = spacing)
    (h : s.freshColumn spacing index = .ok c) : ∃ w', s.column w index = .ok w' ∧ w'.column = c := by
  have hc : Worker.column <$> s.column w index = s.freshColumn spacing index := map_column hw
  rw [h] at hc
  cases hw' : s.column w index with
  | error e =>
    rw [hw'] at hc
    cases hc
  | ok w' =>
    rw [hw'] at hc
    exact ⟨w', rfl, Except.ok.inj hc⟩

variable [Root α] [Limits α]

/-- What a cell contributes to the output of an attribute. -/
def cellValue (s : Subvolume α σ) (spacing : ResampledSpacing α) (kind : Attribute)
    (index : Nat) : Result α σ := do
  if ← s.layout.isEmpty index then return s.layout.fill
  return Sampled.narrow (← kind.reduce (← s.freshColumn spacing index))

/-- A cell can be reduced: it is empty, or its column can be resampled. -/
def Reducible (s : Subvolume α σ) (spacing : ResampledSpacing α) (index : Nat) : Prop :=
  s.layout.isEmpty index = .ok false → ∃ c, s.freshColumn spacing index = .ok c

/-- An attribute has a value on the column of every cell in a range. -/
def Defined (s : Subvolume α σ) (spacing : ResampledSpacing α) (kind : Attribute)
    (lower upper : Nat) : Prop :=
  ∀ i, lower ≤ i → i < upper → s.layout.isEmpty i = .ok false →
    ∀ c, s.freshColumn spacing i = .ok c → ∃ x, kind.reduce c = .ok x

/-! ## One cell -/

/-- An output with the sample of one more cell. -/
def Stored (s : Subvolume α σ) (spacing : ResampledSpacing α) (index : Nat) (o o' : Output σ) :
    Prop :=
  ∃ v, s.cellValue spacing o.kind index = .ok v ∧ o.offset ≤ index ∧
    index - o.offset < o.values.size ∧
    o' = { o with values := o.values.setIfInBounds (index - o.offset) v }

theorem cellValue_of_empty {kind : Attribute} (h : s.layout.isEmpty index = .ok true) :
    s.cellValue spacing kind index = .ok s.layout.fill := by
  unfold cellValue
  rw [h]
  rfl

theorem cellValue_of_column {kind : Attribute} {c : ResampledSegment α} {x : α}
    (h : s.layout.isEmpty index = .ok false) (hc : s.freshColumn spacing index = .ok c)
    (hx : kind.reduce c = .ok x) : s.cellValue spacing kind index = .ok (Sampled.narrow x) := by
  unfold cellValue
  rw [h, ok_bind, if_neg Bool.false_ne_true, hc, ok_bind, hx]
  rfl

theorem reduceCell_eq_ok {w' : Worker α} {os os' : List (Output σ)}
    (hw : w.column.spacing = spacing) (h : s.reduceCell (w, os) index = .ok (w', os')) :
    w'.column.spacing = spacing ∧ List.Forall₂ (s.Stored spacing index) os os' := by
  unfold reduceCell at h
  obtain ⟨e, he, h⟩ := bind_eq_ok.mp h
  cases e with
  | true =>
    rw [if_pos rfl] at h
    obtain ⟨written, hm, h⟩ := bind_eq_ok.mp h
    cases pure_eq_ok.mp h
    refine ⟨hw, (mapM_eq_ok.mp hm).imp fun o o' ho => ?_⟩
    exact ⟨s.layout.fill, cellValue_of_empty he, Output.write_eq_ok.mp ho⟩
  | false =>
    rw [if_neg Bool.false_ne_true] at h
    obtain ⟨v, hv, h⟩ := bind_eq_ok.mp h
    obtain ⟨written, hm, h⟩ := bind_eq_ok.mp h
    cases pure_eq_ok.mp h
    obtain ⟨hf, hsp⟩ := column_eq_ok hw hv
    refine ⟨hsp, (mapM_eq_ok.mp hm).imp fun o o' ho => ?_⟩
    obtain ⟨x, hx, ho⟩ := bind_eq_ok.mp ho
    exact ⟨Sampled.narrow x, cellValue_of_column he hf hx, Output.write_eq_ok.mp ho⟩

def Holds (lower upper : Nat) (o : Output σ) : Prop :=
  ∀ i, lower ≤ i → i < upper → o.offset ≤ i ∧ i - o.offset < o.values.size

/-- Outputs can take the cells of a range: it is known which cells are empty, every cell has
a place, and every attribute has a value. -/
structure Takes (s : Subvolume α σ) (spacing : ResampledSpacing α) (lower upper : Nat)
    (os : List (Output σ)) : Prop where
  known : ∀ i, lower ≤ i → i < upper → ∃ e, s.layout.isEmpty i = .ok e
  holds : ∀ o ∈ os, Holds lower upper o
  defined : ∀ o ∈ os, s.Defined spacing o.kind lower upper

theorem exists_reduceCell {os : List (Output σ)} {lower upper : Nat}
    (hw : w.column.spacing = spacing) (hos : s.Takes spacing lower upper os)
    (hl : lower ≤ index) (hu : index < upper) :
    (∃ r, s.reduceCell (w, os) index = .ok r) ↔ s.Reducible spacing index := by
  have hwrite : ∀ o ∈ os, ∀ v, ∃ o', (o.write v index : Result α _) = .ok o' := by
    intro o ho v
    obtain ⟨h₁, h₂⟩ := hos.holds o ho index hl hu
    exact ⟨_, Output.write_eq_ok.mpr ⟨h₁, h₂, rfl⟩⟩
  obtain ⟨e, he⟩ := hos.known index hl hu
  unfold reduceCell
  dsimp only
  rw [he, ok_bind]
  constructor
  · rintro ⟨r, h⟩ hempty
    cases he.symm.trans hempty
    rw [if_neg Bool.false_ne_true] at h
    obtain ⟨v, hv, -⟩ := bind_eq_ok.mp h
    exact ⟨_, (column_eq_ok hw hv).1⟩
  · intro hr
    cases e with
    | true =>
      rw [if_pos rfl]
      obtain ⟨ys, hy⟩ := exists_mapM_eq_ok.mpr fun o ho => hwrite o ho s.layout.fill
      exact ⟨(w, ys), by rw [hy]; rfl⟩
    | false =>
      rw [if_neg Bool.false_ne_true]
      obtain ⟨c, hc⟩ := hr he
      obtain ⟨w', hw', rfl⟩ := exists_column hw hc
      have hall : ∀ o ∈ os, ∃ o', (do
          o.write (Sampled.narrow (← o.kind.reduce w'.column)) index : Result α (Output σ)) =
            .ok o' := by
        intro o ho
        obtain ⟨x, hx⟩ := hos.defined o ho index hl hu he _ hc
        obtain ⟨o', ho'⟩ := hwrite o ho (Sampled.narrow x)
        exact ⟨o', bind_eq_ok.mpr ⟨x, hx, ho'⟩⟩
      obtain ⟨ys, hy⟩ := exists_mapM_eq_ok.mpr hall
      exact ⟨(w', ys), by rw [hw', ok_bind, hy]; rfl⟩

/-! ## A run of cells -/

/-- An output with the samples of the cells from `lower` up to `upper`, and no other
change. -/
structure Filled (s : Subvolume α σ) (spacing : ResampledSpacing α) (lower upper : Nat)
    (o o' : Output σ) : Prop where
  kind : o'.kind = o.kind
  offset : o'.offset = o.offset
  size : o'.values.size = o.values.size
  inside : ∀ i, lower ≤ i → i < upper → ∃ v, s.cellValue spacing o.kind i = .ok v ∧
    o'.values[i - o.offset]? = some v
  outside : ∀ i, o.offset ≤ i → i < lower ∨ upper ≤ i →
    o'.values[i - o.offset]? = o.values[i - o.offset]?

theorem Filled.refl (o : Output σ) (n : Nat) : s.Filled spacing n n o o where
  kind := rfl
  offset := rfl
  size := rfl
  inside _ h₁ h₂ := absurd h₂ (Nat.not_lt.mpr h₁)
  outside _ _ _ := rfl

theorem Filled.cons {o o₁ o₂ : Output σ} {lower upper : Nat} (hu : lower < upper)
    (h₁ : s.Stored spacing lower o o₁) (h₂ : s.Filled spacing (lower + 1) upper o₁ o₂) :
    s.Filled spacing lower upper o o₂ := by
  obtain ⟨v, hv, hl, hlt, rfl⟩ := h₁
  have hin := h₂.inside
  have hout := h₂.outside
  dsimp only at hin hout
  refine ⟨h₂.kind, h₂.offset, ?_, ?_, ?_⟩
  · rw [h₂.size, Array.size_setIfInBounds]
  · intro i hi hi'
    rcases Nat.eq_or_lt_of_le hi with rfl | hi
    · refine ⟨v, hv, ?_⟩
      rw [hout lower hl (Or.inl (Nat.lt_succ_self lower)), Array.getElem?_setIfInBounds_self,
        if_pos hlt]
    · exact hin i hi hi'
  · intro i ho hi
    rw [hout i ho (by omega), Array.getElem?_setIfInBounds_ne (by omega)]

theorem Takes.next {os os' : List (Output σ)} {lower upper : Nat}
    (h : s.Takes spacing lower upper os) (hs : List.Forall₂ (s.Stored spacing index) os os') :
    s.Takes spacing (lower + 1) upper os' := by
  refine ⟨fun i hi => h.known i (Nat.le_of_succ_le hi), ?_, ?_⟩
  · intro o' ho'
    obtain ⟨o, ho, v, -, -, -, rfl⟩ := exists_of_forall₂ hs ho'
    intro i hi hi'
    dsimp only
    rw [Array.size_setIfInBounds]
    exact h.holds o ho i (Nat.le_of_succ_le hi) hi'
  · intro o' ho'
    obtain ⟨o, ho, v, -, -, -, rfl⟩ := exists_of_forall₂ hs ho'
    exact fun i hi => h.defined o ho i (Nat.le_of_succ_le hi)

theorem foldlM_reduceCell (n : Nat) {lower : Nat} {w w' : Worker α} {os os' : List (Output σ)}
    (hw : w.column.spacing = spacing)
    (h : (List.range' lower n).foldlM s.reduceCell (w, os) = .ok (w', os')) :
    List.Forall₂ (s.Filled spacing lower (lower + n)) os os' := by
  induction n generalizing lower w os with
  | zero =>
    cases pure_eq_ok.mp h
    exact List.forall₂_same.mpr fun o _ => Filled.refl o lower
  | succ n ih =>
    rw [List.range'_succ, List.foldlM_cons] at h
    obtain ⟨⟨w₁, os₁⟩, h₁, h⟩ := bind_eq_ok.mp h
    obtain ⟨hw₁, hs⟩ := reduceCell_eq_ok hw h₁
    have hf := ih hw₁ h
    rw [Nat.add_right_comm, Nat.add_assoc] at hf
    have hlt : lower < lower + (n + 1) := by omega
    refine forall₂_comp ?_ hs hf
    exact fun _ _ _ h₁ h₂ => Filled.cons hlt h₁ h₂

/-- The fold goes through if, and only if, every cell can be reduced. -/
theorem exists_foldlM_reduceCell (n : Nat) {lower : Nat} {w : Worker α} {os : List (Output σ)}
    (hw : w.column.spacing = spacing) (hos : s.Takes spacing lower (lower + n) os) :
    (∃ r, (List.range' lower n).foldlM s.reduceCell (w, os) = .ok r) ↔
      ∀ i, lower ≤ i → i < lower + n → s.Reducible spacing i := by
  induction n generalizing lower w os with
  | zero =>
    exact ⟨fun _ i h₁ h₂ => absurd h₂ (Nat.not_lt.mpr h₁), fun _ => ⟨(w, os), rfl⟩⟩
  | succ n ih =>
    have hlt : lower < lower + (n + 1) := by omega
    have hstep := exists_reduceCell hw hos (Nat.le_refl lower) hlt
    have hn : lower + 1 + n = lower + (n + 1) := by omega
    have hnext : ∀ {w₁ os₁}, s.reduceCell (w, os) lower = .ok (w₁, os₁) →
        ((∃ r, (List.range' (lower + 1) n).foldlM s.reduceCell (w₁, os₁) = .ok r) ↔
          ∀ i, lower + 1 ≤ i → i < lower + (n + 1) → s.Reducible spacing i) := by
      intro w₁ os₁ h₁
      obtain ⟨hw₁, hs⟩ := reduceCell_eq_ok hw h₁
      have hi := @ih (lower + 1) w₁ os₁ hw₁ (hn ▸ hos.next hs)
      rwa [hn] at hi
    rw [List.range'_succ]
    constructor
    · rintro ⟨r, h⟩ i hi hi'
      rw [List.foldlM_cons] at h
      obtain ⟨⟨w₁, os₁⟩, h₁, h⟩ := bind_eq_ok.mp h
      rcases Nat.eq_or_lt_of_le hi with rfl | hi
      · exact hstep.mp ⟨_, h₁⟩
      · exact (hnext h₁).mp ⟨r, h⟩ i hi hi'
    · intro hall
      obtain ⟨⟨w₁, os₁⟩, h₁⟩ := hstep.mpr (hall lower (Nat.le_refl _) hlt)
      obtain ⟨r, h⟩ := (hnext h₁).mpr fun i hi hi' => hall i (by omega) hi'
      exact ⟨r, by rw [List.foldlM_cons, h₁]; exact h⟩

end Subvolume
end Seismic
