import Mathlib.Order.Bounds.Basic
import Seismic.Proofs.Lookup
import Seismic.Proofs.Volume.Ordered

/-!
# Horizons that cross

A cell of one horizon faces the cell of another that is nearest to it, if both have a depth.
Aligning goes through the cells row by row.  It takes the order of the horizons from the first
cell where the two depths differ, and fails at the first cell after it with the other order.
So it fails if and only if both orders occur.  If it does not fail, what it writes depends on
the cell alone: the depth that the cell faces, or the fill value where it faces none.
-/

namespace Seismic
namespace Horizon

variable {α σ : Type} [Scalar α] [Sampled σ α]

/-! ## Facing cells -/

/-- World position of the cell with a number. -/
def worldOf (h : Horizon α σ) (index : Nat) : Point α :=
  h.grid.grid.toWorld ⟨Scalar.ofNat (index / h.grid.ncols), Scalar.ofNat (index % h.grid.ncols)⟩

/-- A cell of `primary` has the depth `p`, and the cell of `secondary` nearest to it, which is
on its grid, has the depth `q`. -/
structure Facing (primary secondary : Horizon α σ) (index : Nat) (p q : σ) : Prop where
  value : primary.values[index]? = some p
  data : primary.isFill p = false
  nearest : ∃ row col, secondary.grid.nearestCell (primary.worldOf index) = some (row, col) ∧
    secondary.value row col = .ok q
  otherData : secondary.isFill q = false

/-- The depths of two facing cells differ.  That of `primary` is the lesser one if `above`, and
the greater one if not. -/
def Parted (primary secondary : Horizon α σ) (above : Bool) (index : Nat) : Prop :=
  ∃ p q, Facing primary secondary index p q ∧
    if above then Sampled.widen p < Sampled.widen q else Sampled.widen q < Sampled.widen p

/-- The first cell with another order of depths than the first cell where they differ. -/
def CrossAt (primary secondary : Horizon α σ) (index : Nat) : Prop :=
  ∃ above first, IsLeast {i | ∃ b, Parted primary secondary b i} first ∧
    Parted primary secondary above first ∧ IsLeast {i | Parted primary secondary (!above) i} index

variable {primary secondary start aligned : Horizon α σ} {found : Option Bool} {b c : Bool}
variable {row col index n : Nat} {p q : σ} {point : Point α}

theorem depthAt_eq_some_iff : secondary.depthAt point = .ok (some q) ↔
    ∃ row col, secondary.grid.nearestCell point = some (row, col) ∧
      secondary.value row col = .ok q ∧ secondary.isFill q = false := by
  constructor
  · intro h
    cases hcell : secondary.grid.nearestCell point with
    | none =>
      rw [depthAt_of_none hcell] at h
      cases h
    | some cell =>
      obtain ⟨row, col⟩ := cell
      rw [depthAt_of_some hcell] at h
      obtain ⟨v, hv, h⟩ := bind_eq_ok.mp h
      have h := pure_eq_ok.mp h
      split_ifs at h with hfill
      cases h
      exact ⟨row, col, rfl, hv, eq_false_of_ne_true hfill⟩
  · rintro ⟨row, col, hcell, hv, hfill⟩
    rw [depthAt_eq hcell hv, hfill, if_neg Bool.false_ne_true]

/-- What is compared at a cell are the depths of facing cells. -/
theorem paired_iff_facing (hsize : primary.size < countBound) :
    Paired primary secondary index p q ↔ Facing primary secondary index p q := by
  constructor
  · intro h
    obtain ⟨hp, hfill, -, hother⟩ := h.depths
    obtain ⟨row, col, hrc, hd⟩ := h
    obtain ⟨-, hi, rfl, rfl⟩ := BoundedGrid.cellOf_eq_ok.mp hrc
    refine ⟨hp, hfill, ?_, hother⟩
    unfold depths at hd
    obtain ⟨value, -, hd⟩ := bind_eq_ok.mp hd
    split_ifs at hd
    · cases pure_eq_ok.mp hd
    · obtain ⟨point, hw, hd⟩ := bind_eq_ok.mp hd
      obtain ⟨other, ho, hd⟩ := bind_eq_ok.mp hd
      cases other with
      | none => cases pure_eq_ok.mp hd
      | some other =>
        cases pure_eq_ok.mp hd
        unfold toWorld BoundedGrid.toWorld at hw
        rw [if_pos (BoundedGrid.cell_lt hi)] at hw
        cases hw
        obtain ⟨row, col, hcell, hv, -⟩ := depthAt_eq_some_iff.mp ho
        exact ⟨row, col, hcell, hv⟩
  · rintro ⟨hp, hfill, ⟨row, col, hcell, hv⟩, hother⟩
    have hcount : primary.grid.nrows * primary.grid.ncols < countBound := by
      rwa [← primary.values_size]
    obtain ⟨⟨row', col'⟩, hrc, hat⟩ := bind_eq_ok.mp (valueAt_eq_ok.mpr ⟨hcount, hp⟩)
    obtain ⟨-, hi, rfl, rfl⟩ := BoundedGrid.cellOf_eq_ok.mp hrc
    refine ⟨_, _, hrc, ?_⟩
    have hw : primary.toWorld (index / primary.grid.ncols) (index % primary.grid.ncols) =
        .ok (primary.worldOf index) := if_pos (BoundedGrid.cell_lt hi)
    unfold depths
    dsimp only at hat
    rw [hat, ok_bind, hfill, if_neg Bool.false_ne_true, hw, ok_bind,
      depthAt_eq_some_iff.mpr ⟨row, col, hcell, hv, hother⟩]
    rfl

theorem Paired.unique {p' q' : σ} (h : Paired primary secondary index p q)
    (h' : Paired primary secondary index p' q') : p = p' ∧ q = q' := by
  obtain ⟨row, col, hrc, hd⟩ := h
  obtain ⟨row', col', hrc', hd'⟩ := h'
  cases hrc.symm.trans hrc'
  cases hd.symm.trans hd'
  exact ⟨rfl, rfl⟩

/-- Every point that has a nearest cell on the grid has a value there. -/
def Reaches (h : Horizon α σ) : Prop :=
  ∀ point row col, h.grid.nearestCell point = some (row, col) → h.Holds row col

theorem exists_depths (hr : secondary.Reaches)
    (hrc : primary.grid.cellOf index = .ok (row, col)) :
    ∃ d, primary.depths secondary row col = .ok d := by
  obtain ⟨-, hi, rfl, rfl⟩ := BoundedGrid.cellOf_eq_ok.mp hrc
  have held : primary.Holds _ _ := BoundedGrid.cell_lt hi
  unfold depths value
  rw [dif_pos held, ok_bind]
  split_ifs
  · exact ⟨none, rfl⟩
  have hw : primary.toWorld (index / primary.grid.ncols) (index % primary.grid.ncols) =
      .ok (primary.worldOf index) := if_pos held
  rw [hw, ok_bind]
  cases hcell : secondary.grid.nearestCell (primary.worldOf index) with
  | none =>
    rw [depthAt_of_none hcell]
    exact ⟨none, rfl⟩
  | some cell =>
    obtain ⟨row, col⟩ := cell
    rw [depthAt_eq hcell (dif_pos (hr _ _ _ hcell))]
    exact ⟨_, rfl⟩

/-! ## The order that is found -/

/-- The depths that are compared at a cell differ, and their order is read as `above`. -/
def Sided (primary secondary : Horizon α σ) (above : Bool) (index : Nat) : Prop :=
  ∃ p q, Paired primary secondary index p q ∧ Sampled.same q p = false ∧
    decide (Sampled.widen p < Sampled.widen q) = above

theorem Sided.unique (h : Sided primary secondary b index) (h' : Sided primary secondary c index) :
    b = c := by
  obtain ⟨p, q, hpair, -, hb⟩ := h
  obtain ⟨p', q', hpair', -, hc⟩ := h'
  obtain ⟨rfl, rfl⟩ := hpair.unique hpair'
  exact hb.symm.trans hc

/-- What is known of the order after the cells below `n`: it is that of the first cell where
depths differ, and no other order has occurred. -/
structure Led (primary secondary : Horizon α σ) (n : Nat) (found : Option Bool) : Prop where
  all : ∀ i < n, ∀ b, Sided primary secondary b i → found = some b
  first : ∀ b, found = some b → ∃ i < n, Sided primary secondary b i ∧
    ∀ j < i, ∀ c, ¬ Sided primary secondary c j

/-- A cell where the depths do not differ tells nothing. -/
theorem Led.pass (h : Led primary secondary n found) (hn : ∀ b, ¬ Sided primary secondary b n) :
    Led primary secondary (n + 1) found := by
  refine ⟨fun i hi b hb => ?_, fun b hb => ?_⟩
  · rcases Nat.lt_succ_iff_lt_or_eq.mp hi with hlt | rfl
    · exact h.all i hlt b hb
    · exact absurd hb (hn b)
  · obtain ⟨i, hi, hfirst⟩ := h.first b hb
    exact ⟨i, by omega, hfirst⟩

theorem Led.agree (h : Led primary secondary n found) (hn : Sided primary secondary b n)
    (hf : found = none ∨ found = some b) : Led primary secondary (n + 1) (some b) := by
  refine ⟨fun i hi c hc => ?_, fun c hc => ?_⟩
  · rcases Nat.lt_succ_iff_lt_or_eq.mp hi with hlt | rfl
    · have hfound := h.all i hlt c hc
      rcases hf with rfl | rfl
      · cases hfound
      · exact hfound
    · rw [hn.unique hc]
  · cases hc
    rcases hf with rfl | rfl
    · exact ⟨n, n.lt_succ_self, hn, fun j hj c hc => nomatch h.all j hj c hc⟩
    · obtain ⟨i, hi, hfirst⟩ := h.first b rfl
      exact ⟨i, by omega, hfirst⟩

/-- The order found so far is not that of a cell. -/
def Clash (primary secondary : Horizon α σ) (index : Nat) : Prop :=
  ∃ b, Led primary secondary index (some b) ∧ Sided primary secondary (!b) index

/-- The depths of the next cell either go with the order found so far, or they clash. -/
theorem Led.next (h : Led primary secondary n found) (hpair : Paired primary secondary n p q)
    (row col : Nat) :
    (∃ found', (orient found p q row col : Result α _) = .ok found' ∧
        Led primary secondary (n + 1) found') ∨
      Clash primary secondary n ∧
        (orient found p q row col : Result α _) = .error (.surfacesIntersect row col) := by
  unfold orient
  by_cases hsame : Sampled.same q p = true
  · refine Or.inl ⟨found, if_pos hsame, h.pass ?_⟩
    rintro b ⟨p', q', hpair', hdiffer, -⟩
    obtain ⟨rfl, rfl⟩ := hpair.unique hpair'
    rw [hsame] at hdiffer
    cases hdiffer
  rw [if_neg hsame]
  have hside : Sided primary secondary (decide (Sampled.widen p < Sampled.widen q)) n :=
    ⟨p, q, hpair, eq_false_of_ne_true hsame, rfl⟩
  generalize decide (Sampled.widen p < Sampled.widen q) = here at hside
  cases found with
  | none => exact Or.inl ⟨some here, rfl, h.agree hside (Or.inl rfl)⟩
  | some there =>
    by_cases hagree : there = here
    · exact Or.inl ⟨some there, if_pos hagree, h.agree (hagree ▸ hside) (Or.inr rfl)⟩
    · refine Or.inr ⟨⟨there, h, ?_⟩, if_neg hagree⟩
      rwa [Bool.not_eq_eq_eq_not.mpr (Bool.eq_not.mpr hagree)]

/-! ## All cells -/

theorem alignCell_cases (hcell : aligned.grid.cellOf n = .ok (row, col))
    (hrc : primary.grid.cellOf n = .ok (row, col)) (hr : secondary.Reaches)
    (h : Led primary secondary n found) :
    (∃ aligned' found', alignCell primary secondary (aligned, found) n =
        .ok (aligned', found') ∧ Led primary secondary (n + 1) found') ∨
      Clash primary secondary n ∧
        alignCell primary secondary (aligned, found) n = .error (.surfacesIntersect row col) := by
  obtain ⟨d, hd⟩ := exists_depths hr hrc
  unfold alignCell
  rw [hrc]
  simp only [ok_bind]
  rw [hd, ok_bind]
  cases d with
  | none =>
    obtain ⟨aligned', hset, -⟩ := exists_set hcell aligned.fill
    refine Or.inl ⟨aligned', found, by dsimp only; rw [hset]; rfl, h.pass ?_⟩
    rintro b ⟨p, q, ⟨row', col', hrc', hd'⟩, -⟩
    cases hrc.symm.trans hrc'
    cases hd.symm.trans hd'
  | some d =>
    obtain ⟨p, q⟩ := d
    obtain ⟨aligned', hset, -⟩ := exists_set hcell q
    rcases h.next ⟨row, col, hrc, hd⟩ row col with ⟨found', ho, hled⟩ | ⟨hclash, ho⟩
    · exact Or.inl ⟨aligned', found', by dsimp only; rw [ho, ok_bind, hset]; rfl, hled⟩
    · exact Or.inr ⟨hclash, by dsimp only; rw [ho]; rfl⟩

theorem foldlM_cases (hstart : ∀ i, start.grid.cellOf i = primary.grid.cellOf i)
    (hsize : primary.size < countBound) (hr : secondary.Reaches) (hn : n ≤ primary.size) :
    (∃ aligned found, (List.range n).foldlM (alignCell primary secondary) (start, none) =
        .ok (aligned, found) ∧ Led primary secondary n found) ∨
      ∃ i < n, Clash primary secondary i ∧
        (List.range n).foldlM (alignCell primary secondary) (start, none) =
          .error (.surfacesIntersect (i / primary.ncols) (i % primary.ncols)) := by
  induction n with
  | zero =>
    refine Or.inl ⟨start, none, rfl, fun i hi => absurd hi i.not_lt_zero, fun b hb => ?_⟩
    cases hb
  | succ n ih =>
    rw [List.range_succ, List.foldlM_append]
    rcases ih (by omega) with ⟨aligned, found, hfold, hled⟩ | ⟨i, hi, hclash, hfold⟩
    · have hrc : primary.grid.cellOf n = .ok (n / primary.ncols, n % primary.ncols) := by
        refine BoundedGrid.cellOf_eq_ok.mpr ⟨?_, ?_, rfl, rfl⟩
        · rwa [← primary.values_size]
        · rwa [← primary.values_size]
      have hcell := ((scanned_of_foldlM hstart hfold).cells n).trans hrc
      rw [hfold, ok_bind, List.foldlM_cons]
      rcases alignCell_cases hcell hrc hr hled with
        ⟨aligned', found', hstep, hled'⟩ | ⟨hclash, hstep⟩
      · exact Or.inl ⟨aligned', found', by rw [hstep]; rfl, hled'⟩
      · exact Or.inr ⟨n, n.lt_succ_self, hclash, by rw [hstep]; rfl⟩
    · rw [hfold]
      exact Or.inr ⟨i, by omega, hclash, rfl⟩

end Horizon

/-- Grids that compare equal number their cells alike. -/
theorem BoundedGrid.cellOf_of_beq {α : Type} [BEq α] {g g' : BoundedGrid α}
    (h : (g == g') = true) (index : Nat) :
    g.cellOf index = g'.cellOf index := by
  have hparts : (g.grid == g'.grid && (g.nrows == g'.nrows && g.ncols == g'.ncols)) = true := h
  rw [Bool.and_eq_true, Bool.and_eq_true] at hparts
  obtain ⟨-, hrows, hcols⟩ := hparts
  unfold cellOf size
  rw [beq_iff_eq.mp hrows, beq_iff_eq.mp hcols]

namespace Double

/-- A rounded number that is not negative and is below a count is a count itself. -/
theorem exists_of_nearest {x : Float} {n : Nat} (h0 : Float.ofInt 0 ≤ nearest x)
    (hlt : nearest x < Float.ofInt n) :
    ∃ k < n, IsFinite (nearest x) ∧ toReal (nearest x) = ((k : Nat) : ℤ) := by
  obtain ⟨hzf, hzv⟩ := ofInt_zero
  have hf : IsFinite (nearest x) := isFinite_of_le_of_lt hzf h0 hlt
  obtain ⟨-, hv⟩ := nearest_finite (isFinite_of_nearest hf)
  have hbelow : away (toReal x) < n := lt_of_lt_ofInt hf hv (lt_iff.mp hlt).2.2
  have habove : 0 ≤ away (toReal x) := by
    have hle := (le_iff_toReal hzf hf).mp h0
    rw [hzv, hv] at hle
    exact_mod_cast hle
  exact ⟨(away (toReal x)).toNat, by omega, hf, by rw [hv, Int.toNat_of_nonneg habove]⟩

end Double

namespace Horizon

open Double

/-! ## Depths that are numbers -/

section Numbers

variable {primary secondary start : Horizon Float Single} {found : Option Bool} {b : Bool}
variable {index : Nat}

theorem reaches_of_size (hsize : secondary.size < countBound) : secondary.Reaches := by
  intro point row col hcell
  unfold BoundedGrid.nearestCell at hcell
  dsimp only at hcell
  split_ifs at hcell with hinside
  cases hcell
  obtain ⟨hrow₀, hcol₀, hrow, hcol⟩ := hinside
  obtain ⟨r, hr, hrf, hrv⟩ := exists_of_nearest hrow₀ hrow
  obtain ⟨c, hc, hcf, hcv⟩ := exists_of_nearest hcol₀ hcol
  have hcount : secondary.grid.nrows * secondary.grid.ncols < countBound := by
    rwa [← secondary.values_size]
  have hrows := Nat.le_mul_of_pos_right secondary.grid.nrows (Nat.zero_lt_of_lt hc)
  have hcols := Nat.le_mul_of_pos_left secondary.grid.ncols (Nat.zero_lt_of_lt hr)
  have hrcount := toCount_of_integer hrf hrv (by omega)
  have hccount := toCount_of_integer hcf hcv (by omega)
  exact ⟨hrcount.trans_lt hr, hccount.trans_lt hc⟩

/-- The order of depths that are numbers is read right. -/
theorem sided_iff_parted (hsize : primary.size < countBound) (hp : primary.Defined)
    (hs : secondary.Defined) :
    Sided primary secondary b index ↔ Parted primary secondary b index := by
  have hnumbers : ∀ p q, Paired primary secondary index p q →
      IsNumber p.toDouble ∧ IsNumber q.toDouble := fun p q h =>
    ⟨hp p (Array.mem_of_getElem? h.depths.1) h.depths.2.1, hs q h.depths.2.2.1 h.depths.2.2.2⟩
  constructor
  · rintro ⟨p, q, hpair, hdiffer, rfl⟩
    obtain ⟨hpn, hqn⟩ := hnumbers p q hpair
    refine ⟨p, q, (paired_iff_facing hsize).mp hpair, ?_⟩
    by_cases hlt : Sampled.widen p < Sampled.widen q
    · rw [if_pos (decide_eq_true hlt)]
      exact hlt
    · rw [if_neg (by rwa [decide_eq_true_iff])]
      refine lt_iff.mpr ⟨hqn, hpn, lt_of_le_of_ne ?_ fun heq => ?_⟩
      · exact not_lt.mp fun h => hlt (lt_iff.mpr ⟨hpn, hqn, h⟩)
      · rw [show Sampled.same q p = true from beq_iff.mpr ⟨hqn, hpn, heq⟩] at hdiffer
        cases hdiffer
  · rintro ⟨p, q, hface, hlt⟩
    have hpair := (paired_iff_facing hsize).mpr hface
    have hne : Double.value q.toDouble ≠ Double.value p.toDouble := by
      cases b with
      | true => exact (lt_iff.mp hlt).2.2.ne'
      | false => exact (lt_iff.mp hlt).2.2.ne
    refine ⟨p, q, hpair, eq_false_of_ne_true fun hsame => hne (beq_iff.mp hsame).2.2, ?_⟩
    cases b with
    | true => exact decide_eq_true hlt
    | false => exact decide_eq_false fun h => absurd (lt_iff.mp h).2.2 (lt_iff.mp hlt).2.2.asymm

/-- A cell that clashes with the order found before it is where the horizons are seen to
cross. -/
theorem crossAt_of_clash (hsize : primary.size < countBound) (hp : primary.Defined)
    (hs : secondary.Defined) (h : Clash primary secondary index) :
    CrossAt primary secondary index := by
  simp only [CrossAt, ← sided_iff_parted hsize hp hs]
  obtain ⟨b, hled, hother⟩ := h
  obtain ⟨first, -, hfirst, hbefore⟩ := hled.first b rfl
  refine ⟨b, first, ⟨⟨b, hfirst⟩, ?_⟩, hfirst, hother, ?_⟩
  · rintro i ⟨c, hc⟩
    exact not_lt.mp fun hlt => hbefore i hlt c hc
  · intro i hi
    refine not_lt.mp fun hlt => ?_
    have := Option.some.inj (hled.all i hlt (!b) hi)
    cases b <;> cases this

/-- The two orders whose clash is seen both occur. -/
theorem CrossAt.exists_parted (h : CrossAt primary secondary index) :
    (∃ i, Parted primary secondary true i) ∧ ∃ i, Parted primary secondary false i := by
  obtain ⟨b, first, -, hfirst, hother, -⟩ := h
  cases b with
  | true => exact ⟨⟨first, hfirst⟩, index, hother⟩
  | false => exact ⟨⟨index, hother⟩, first, hfirst⟩

/-- After all cells the order found is that of every cell where the depths differ, -/
theorem Led.of_parted (h : Led primary secondary primary.size found)
    (hsize : primary.size < countBound) (hp : primary.Defined) (hs : secondary.Defined)
    (hi : Parted primary secondary b index) : found = some b := by
  have hside := (sided_iff_parted hsize hp hs).mpr hi
  obtain ⟨_, _, hface, -⟩ := hi
  exact h.all index (Array.getElem?_eq_some_iff.mp hface.value).1 b hside

/-- and if there is no such cell, `primary` is said to lie above. -/
theorem Led.getD_iff (h : Led primary secondary primary.size found)
    (hsize : primary.size < countBound) (hp : primary.Defined) (hs : secondary.Defined) :
    found.getD true = true ↔ ∀ i, ¬ Parted primary secondary false i := by
  constructor
  · intro habove i hi
    rw [h.of_parted hsize hp hs hi] at habove
    cases habove
  · intro hnone
    rcases found with _ | _ | _
    · rfl
    · obtain ⟨i, -, hi, -⟩ := h.first false rfl
      exact absurd ((sided_iff_parted hsize hp hs).mp hi) (hnone i)
    · rfl

/-- Aligning fails if and only if one facing depth is greater and another one less.  The failure
then names the first cell whose order is not that of the first cell where the depths differ.
If aligning succeeds, it tells whether no depth is greater, and each cell has the depth that it
faces, or the fill value if it faces none, whatever was there before.  A plane has to equal
itself, which it does unless it has an undefined number. -/
theorem align_facing (hplane : (primary.grid == start.grid) = true)
    (hsize : primary.size < countBound) (hsize' : secondary.size < countBound)
    (hp : primary.Defined) (hs : secondary.Defined) :
    ((∃ e, primary.align secondary start = .error e) ↔
      (∃ i, Parted primary secondary true i) ∧ ∃ i, Parted primary secondary false i) ∧
    (∀ e, primary.align secondary start = .error e → ∃ i, CrossAt primary secondary i ∧
      e = .surfacesIntersect (i / primary.ncols) (i % primary.ncols)) ∧
    ∀ aligned above, primary.align secondary start = .ok (aligned, above) →
      (above = true ↔ ∀ i, ¬ Parted primary secondary false i) ∧
      (∀ i p q, Facing primary secondary i p q → aligned.values[i]? = some q) ∧
      ∀ i < primary.size, (∀ p q, ¬ Facing primary secondary i p q) →
        aligned.values[i]? = some start.fill := by
  have hcells : ∀ i, start.grid.cellOf i = primary.grid.cellOf i := fun i =>
    (BoundedGrid.cellOf_of_beq hplane i).symm
  have hsame : (primary.grid != start.grid) = false := by rw [bne, hplane, Bool.not_true]
  rw [align_eq hsame]
  rcases foldlM_cases hcells hsize (reaches_of_size hsize') (Nat.le_refl primary.size) with
    ⟨aligned, found, hfold, hled⟩ | ⟨i, -, hclash, hfold⟩
  · have hscan := scanned_of_foldlM hcells hfold
    rw [hfold]
    refine ⟨⟨fun ⟨_, h⟩ => (nomatch h), fun ⟨⟨i, hi⟩, j, hj⟩ => ?_⟩, fun _ h => (nomatch h), ?_⟩
    · cases (hled.of_parted hsize hp hs hi).symm.trans (hled.of_parted hsize hp hs hj)
    intro _ _ h
    cases h
    refine ⟨hled.getD_iff hsize hp hs, fun i p q hface => ?_, fun i hi hnone => ?_⟩
    · have hlt := (Array.getElem?_eq_some_iff.mp hface.value).1
      exact (hscan.paired i hlt p q ((paired_iff_facing hsize).mpr hface)).1
    · exact hscan.unpaired i hi fun p q hpair => hnone p q ((paired_iff_facing hsize).mp hpair)
  · have hcross := crossAt_of_clash hsize hp hs hclash
    rw [hfold]
    refine ⟨⟨fun _ => hcross.exists_parted, fun _ => ⟨_, rfl⟩⟩, fun e he => ?_,
      fun _ _ h => (nomatch h)⟩
    cases he
    exact ⟨i, hcross, rfl⟩

/-- The depths are equal at the first cell.  They are greater at the second and less at the
third in one case, and less at both in the other. -/
theorem align_facing_of_turned :
    (∃ i, (Horizon.ofInts [16, 20, 24, 28]).align (.ofInts [16, 18, 30, 28])
        (.ofInts [0, 0, 0, 0]) = .error (.surfacesIntersect (i / 4) (i % 4)) ∧
      CrossAt (.ofInts [16, 20, 24, 28]) (.ofInts [16, 18, 30, 28]) i ∧
      (∃ i, Parted (.ofInts [16, 20, 24, 28]) (.ofInts [16, 18, 30, 28]) true i) ∧
      ∃ i, Parted (.ofInts [16, 20, 24, 28]) (.ofInts [16, 18, 30, 28]) false i) ∧
    ∃ aligned, (Horizon.ofInts [16, 20, 24, 28]).align (.ofInts [16, 22, 26, 28])
        (.ofInts [0, 0, 0, 0]) = .ok (aligned, true) ∧
      (∀ i, ¬ Parted (.ofInts [16, 20, 24, 28]) (.ofInts [16, 22, 26, 28]) false i) ∧
      ∀ i p q, Facing (.ofInts [16, 20, 24, 28]) (.ofInts [16, 22, 26, 28]) i p q →
        aligned.values[i]? = some q := by
  have hplane : ((Horizon.ofInts [16, 20, 24, 28]).grid == (Horizon.ofInts [0, 0, 0, 0]).grid) =
      true := by decide +kernel
  have hp : (Horizon.ofInts [16, 20, 24, 28]).Finite := by decide +kernel
  constructor
  · have hs : (Horizon.ofInts [16, 18, 30, 28]).Finite := by decide +kernel
    have hfails : ((Horizon.ofInts [16, 20, 24, 28]).align (.ofInts [16, 18, 30, 28])
        (.ofInts [0, 0, 0, 0])).isOk = false := by decide +kernel
    obtain ⟨hiff, hcross, -⟩ := align_facing hplane (by decide) (by decide) hp.defined hs.defined
    cases halign : (Horizon.ofInts [16, 20, 24, 28]).align (.ofInts [16, 18, 30, 28])
        (.ofInts [0, 0, 0, 0]) with
    | ok _ =>
      rw [halign] at hfails
      cases hfails
    | error e =>
      obtain ⟨i, hi, rfl⟩ := hcross e halign
      exact ⟨i, rfl, hi, hiff.mp ⟨_, halign⟩⟩
  · have hs : (Horizon.ofInts [16, 22, 26, 28]).Finite := by decide +kernel
    obtain ⟨⟨aligned, _⟩, halign, rfl⟩ : ∃ r, (Horizon.ofInts [16, 20, 24, 28]).align
        (.ofInts [16, 22, 26, 28]) (.ofInts [0, 0, 0, 0]) = .ok r ∧ r.2 = true := by decide +kernel
    obtain ⟨-, -, hok⟩ := align_facing hplane (by decide) (by decide) hp.defined hs.defined
    obtain ⟨habove, hpaired, -⟩ := hok aligned true halign
    exact ⟨aligned, halign, habove.mp rfl, hpaired⟩

end Numbers

end Horizon
end Seismic
