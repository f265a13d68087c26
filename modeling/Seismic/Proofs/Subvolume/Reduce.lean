import Seismic.Proofs.Subvolume.Columns

/-!
# Reducing in partitions

A partition fills a piece of every output, and pieces are appended in the order of the runs.
The runs follow one another, so the pieces of an attribute together hold the samples of all
cells, each in its place.
-/

namespace Seismic

variable {α σ : Type}

theorem forall₂_zipWith {β γ δ ε : Type} {R : β → γ → Prop} {S : β → δ → Prop} {T : β → ε → Prop}
    {f : γ → δ → ε} (h : ∀ b c d, R b c → S b d → T b (f c d)) {xs : List β} {ys : List γ}
    {zs : List δ} (hr : List.Forall₂ R xs ys) (hs : List.Forall₂ S xs zs) :
    List.Forall₂ T xs (ys.zipWith f zs) := by
  induction hr generalizing zs with
  | nil =>
    cases hs
    exact .nil
  | cons hb _ ih =>
    cases hs with
    | cons hc hs => exact .cons (h _ _ _ hb hc) (ih hs)

theorem mapM_eq_map {β γ : Type} {f : β → Result α γ} {g : β → γ} {xs : List β}
    (h : ∀ x ∈ xs, f x = .ok (g x)) : xs.mapM f = .ok (xs.map g) := by
  rw [mapM_eq_ok, List.forall₂_map_right_iff, List.forall₂_same]
  exact h

namespace Subvolume

/-! ## Outputs of runs -/

theorem outputsOf_eq {kinds : List Attribute} {buffers : List (Array σ)}
    (hk : ∀ k ∈ kinds, k.isAvailable = true) (lower upper : Nat) :
    (outputsOf kinds buffers lower upper : Result α _) =
      .ok ((kinds.zip buffers).map fun p => ⟨p.1, p.2.extract lower upper, lower⟩) := by
  unfold outputsOf
  refine mapM_eq_map fun p hp => ?_
  exact if_pos (hk p.1 (List.of_mem_zip hp).1)

/-- The output of a run before its cells are stored. -/
structure Blank (lower upper : Nat) (kind : Attribute) (o : Output σ) : Prop where
  kind : o.kind = kind
  offset : o.offset = lower
  size : o.values.size = upper - lower

theorem blank_outputsOf {kinds : List Attribute} {buffers : List (Array σ)} {cells lower upper : Nat}
    (hlen : kinds.length = buffers.length) (hb : ∀ b ∈ buffers, b.size = cells)
    (hu : upper ≤ cells) : List.Forall₂ (Blank lower upper) kinds
      ((kinds.zip buffers).map fun p => (⟨p.1, p.2.extract lower upper, lower⟩ : Output σ)) := by
  induction kinds generalizing buffers with
  | nil => exact .nil
  | cons k kinds ih =>
    cases buffers with
    | nil => exact absurd hlen (Nat.succ_ne_zero _)
    | cons b buffers =>
      refine .cons ⟨rfl, rfl, ?_⟩ (ih (Nat.succ.inj hlen) fun b' h =>
        hb b' (List.mem_cons_of_mem _ h))
      dsimp only
      rw [Array.size_extract, hb b List.mem_cons_self, Nat.min_eq_left hu]

/-- A reduction that is not refused before it begins: its attributes can be computed, each
has a buffer with a place for every cell, and partitions are not empty. -/
structure WellPosed (s : Subvolume α σ) (kinds : List Attribute) (buffers : List (Array σ))
    (size : Nat) : Prop where
  available : ∀ k ∈ kinds, k.isAvailable = true
  length : kinds.length = buffers.length
  cells : ∀ b ∈ buffers, b.size = s.layout.cells
  pos : 0 < size

def blankParts (kinds : List Attribute) (buffers : List (Array σ)) (rs : List (Nat × Nat)) :
    List (Nat × Nat × List (Output σ)) :=
  rs.map fun r =>
    (r.1, r.2, (kinds.zip buffers).map fun p => ⟨p.1, p.2.extract r.1 r.2, r.1⟩)

theorem mapM_outputsOf {kinds : List Attribute} {buffers : List (Array σ)}
    (hk : ∀ k ∈ kinds, k.isAvailable = true) {rs : List (Nat × Nat)}
    {f : Nat × Nat → Result α (Nat × Nat × List (Output σ))}
    (hf : ∀ r, f r = do return (r.1, r.2, ← outputsOf kinds buffers r.1 r.2)) :
    rs.mapM f = .ok (blankParts kinds buffers rs) :=
  mapM_eq_map fun r _ => by
    rw [hf, outputsOf_eq hk, ok_bind]
    rfl

theorem mem_blankParts {s : Subvolume α σ} {kinds : List Attribute} {buffers : List (Array σ)}
    {size : Nat} (hq : s.WellPosed kinds buffers size) {rs : List (Nat × Nat)}
    (hr : Consecutive 0 rs s.layout.cells) {p : Nat × Nat × List (Output σ)}
    (hp : p ∈ blankParts kinds buffers rs) :
    (p.1, p.2.1) ∈ rs ∧ p.1 ≤ p.2.1 ∧ p.2.1 ≤ s.layout.cells ∧
      List.Forall₂ (Blank p.1 p.2.1) kinds p.2.2 := by
  obtain ⟨r, hm, rfl⟩ := List.mem_map.mp hp
  obtain ⟨-, hle, hu⟩ := hr.bounds hm
  exact ⟨hm, hle, hu, blank_outputsOf hq.length hq.cells hu⟩

variable [Scalar α] [Sampled σ α] [Root α] [Limits α]
variable {s : Subvolume α σ} {spacing : ResampledSpacing α}

/-! ## A range of cells -/

theorem reduceRange_eq_ok {os os' : List (Output σ)} {lower upper : Nat}
    (h : s.reduceRange spacing os lower upper = .ok os') :
    lower ≤ upper ∧ upper ≤ s.layout.cells ∧
      List.Forall₂ (s.Filled spacing lower upper) os os' := by
  unfold reduceRange at h
  obtain ⟨hb, h⟩ := check_eq_ok.mp h
  obtain ⟨⟨w', _⟩, hf, h⟩ := bind_eq_ok.mp h
  cases pure_eq_ok.mp h
  have hr : List.Forall₂ (s.Filled spacing lower (lower + (upper - lower))) os os' :=
    foldlM_reduceCell _ rfl hf
  rw [Nat.add_sub_cancel' (by omega)] at hr
  exact ⟨by omega, by omega, hr⟩

theorem exists_reduceRange {os : List (Output σ)} {lower upper : Nat} (hlu : lower ≤ upper)
    (hc : upper ≤ s.layout.cells) (hos : s.Takes spacing lower upper os) :
    (∃ os', s.reduceRange spacing os lower upper = .ok os') ↔
      ∀ i, lower ≤ i → i < upper → s.Reducible spacing i := by
  obtain ⟨n, rfl⟩ := Nat.exists_eq_add_of_le hlu
  have hstart : (Worker.start spacing).column.spacing = spacing := rfl
  rw [← exists_foldlM_reduceCell n hstart hos]
  unfold reduceRange
  rw [if_neg (by omega), Nat.add_sub_cancel_left]
  constructor
  · rintro ⟨os', h⟩
    obtain ⟨r, hr, -⟩ := bind_eq_ok.mp h
    exact ⟨r, hr⟩
  · rintro ⟨⟨w', os'⟩, hr⟩
    exact ⟨os', bind_eq_ok.mpr ⟨_, hr, rfl⟩⟩

/-! ## Pieces of outputs -/

def Piece (s : Subvolume α σ) (spacing : ResampledSpacing α) (lower upper : Nat)
    (kind : Attribute) (o : Output σ) : Prop :=
  o.values.size = upper - lower ∧ ∀ i, lower ≤ i → i < upper →
    ∃ v, s.cellValue spacing kind i = .ok v ∧ o.values[i - lower]? = some v

theorem Filled.piece {lower upper : Nat} {kind : Attribute} {o o' : Output σ}
    (hb : Blank lower upper kind o) (hf : s.Filled spacing lower upper o o') :
    s.Piece spacing lower upper kind o' := by
  obtain ⟨rfl, rfl, hs⟩ := hb
  exact ⟨hf.size.trans hs, hf.inside⟩

theorem Blank.holds {lower upper : Nat} {kind : Attribute} {o : Output σ}
    (hb : Blank lower upper kind o) : Holds lower upper o := by
  intro i hl hu
  rw [hb.offset, hb.size]
  omega

/-- The samples of the cells before `n`. -/
def Complete (s : Subvolume α σ) (spacing : ResampledSpacing α) (n : Nat) (kind : Attribute)
    (xs : Array σ) : Prop :=
  xs.size = n ∧ ∀ i < n, ∃ v, s.cellValue spacing kind i = .ok v ∧ xs[i]? = some v

theorem Complete.unique {n : Nat} {kind : Attribute} {xs ys : Array σ}
    (hx : s.Complete spacing n kind xs) (hy : s.Complete spacing n kind ys) : xs = ys := by
  refine Array.ext (hx.1.trans hy.1.symm) fun i hi hi' => ?_
  obtain ⟨v, hv, hxv⟩ := hx.2 i (hx.1 ▸ hi)
  obtain ⟨v', hv', hyv⟩ := hy.2 i (hx.1 ▸ hi)
  cases hv.symm.trans hv'
  exact (Array.getElem?_eq_some_iff.mp hxv).2.trans (Array.getElem?_eq_some_iff.mp hyv).2.symm

theorem Complete.append {lower upper : Nat} (hlu : lower ≤ upper) {kind : Attribute}
    {xs : Array σ} {o : Output σ} (hx : s.Complete spacing lower kind xs)
    (ho : s.Piece spacing lower upper kind o) :
    s.Complete spacing upper kind (xs ++ o.values) := by
  refine ⟨by rw [Array.size_append, hx.1, ho.1]; omega, fun i hi => ?_⟩
  rcases Nat.lt_or_ge i lower with hlt | hge
  · obtain ⟨v, hv, hxv⟩ := hx.2 i hlt
    exact ⟨v, hv, by rw [Array.getElem?_append_left (by rw [hx.1]; exact hlt), hxv]⟩
  · obtain ⟨v, hv, hov⟩ := ho.2 i hge hi
    exact ⟨v, hv, by rw [Array.getElem?_append_right (by rw [hx.1]; exact hge), hx.1, hov]⟩

theorem complete_foldl {kinds : List Attribute} {lower stop : Nat} {rs : List (Nat × Nat)}
    (hr : Consecutive lower rs stop) {done : List (List (Output σ))}
    (hd : List.Forall₂ (fun r os => List.Forall₂ (s.Piece spacing r.1 r.2) kinds os) rs done)
    {whole : List (Array σ)} (hw : List.Forall₂ (s.Complete spacing lower) kinds whole) :
    List.Forall₂ (s.Complete spacing stop) kinds
      (done.foldl (fun whole os => whole.zipWith (fun xs o => xs ++ o.values) os) whole) := by
  induction hr generalizing done whole with
  | nil n =>
    cases hd
    exact hw
  | cons h _ ih =>
    cases hd with
    | cons hp hd =>
      rw [List.foldl_cons]
      exact ih hd (forall₂_zipWith (fun _ _ _ => Complete.append h) hw hp)

/-! ## All cells -/

variable {kinds : List Attribute} {buffers : List (Array σ)} {size : Nat}

/-- Reduction is a reduction of every run, followed by the reassembly of the pieces. -/
theorem reduce_eq (hq : s.WellPosed kinds buffers size) :
    s.reduce spacing kinds buffers size = (do
      let done ← (blankParts kinds buffers (runs s.layout.cells size)).mapM
        fun p => s.reduceRange spacing p.2.2 p.1 p.2.1
      return done.foldl (fun whole os => whole.zipWith (fun xs o => xs ++ o.values) os)
        (buffers.map fun _ => #[])) := by
  have hfind : buffers.find? (fun b => b.size != s.layout.cells) = none := by
    rw [List.find?_eq_none]
    intro b hm
    rw [hq.cells b hm, bne_self_eq_false]
    exact Bool.false_ne_true
  unfold reduce
  dsimp only
  rw [if_neg (Nat.ne_of_gt hq.pos), if_neg (fun h => h hq.length), hfind]
  dsimp only
  rw [mapM_outputsOf hq.available]
  · rfl
  · exact fun _ => rfl

theorem reduce_eq_ok (hq : s.WellPosed kinds buffers size) {outs : List (Array σ)}
    (h : s.reduce spacing kinds buffers size = .ok outs) :
    List.Forall₂ (s.Complete spacing s.layout.cells) kinds outs := by
  rw [reduce_eq hq] at h
  obtain ⟨done, hd, h⟩ := bind_eq_ok.mp h
  cases pure_eq_ok.mp h
  have hruns := runs_consecutive s.layout.cells hq.pos
  refine complete_foldl hruns ?_ ?_
  · have hpieces := mapM_eq_ok.mp hd
    rw [blankParts, List.forall₂_map_left_iff] at hpieces
    refine List.forall₂_iff_zip.mpr ⟨hpieces.length_eq, fun {r os} hm => ?_⟩
    obtain ⟨-, -, hu⟩ := hruns.bounds (List.of_mem_zip hm).1
    obtain ⟨-, -, hf⟩ := reduceRange_eq_ok ((List.forall₂_iff_zip.mp hpieces).2 hm)
    dsimp only at hf
    refine forall₂_comp ?_ (blank_outputsOf hq.length hq.cells hu) hf
    exact fun _ _ _ => Filled.piece
  · rw [List.forall₂_map_right_iff]
    refine List.forall₂_iff_zip.mpr ⟨hq.length, fun _ => ⟨rfl, fun i hi => ?_⟩⟩
    exact absurd hi (Nat.not_lt_zero i)

theorem exists_reduce (hq : s.WellPosed kinds buffers size)
    (he : ∀ i < s.layout.cells, ∃ e, s.layout.isEmpty i = .ok e)
    (hd : ∀ k ∈ kinds, s.Defined spacing k 0 s.layout.cells) :
    (∃ outs, s.reduce spacing kinds buffers size = .ok outs) ↔
      ∀ i < s.layout.cells, s.Reducible spacing i := by
  have hruns := runs_consecutive s.layout.cells hq.pos
  have hrange : ∀ p ∈ blankParts kinds buffers (runs s.layout.cells size),
      ((∃ os, s.reduceRange spacing p.2.2 p.1 p.2.1 = .ok os) ↔
        ∀ i, p.1 ≤ i → i < p.2.1 → s.Reducible spacing i) := by
    intro p hm
    obtain ⟨-, hle, hu, hblank⟩ := mem_blankParts hq hruns hm
    have hkind : ∀ o ∈ p.2.2, ∃ k ∈ kinds, Blank p.1 p.2.1 k o :=
      fun o ho => exists_of_forall₂ hblank ho
    refine exists_reduceRange hle hu ⟨fun i _ hi => he i (Nat.lt_of_lt_of_le hi hu), ?_, ?_⟩
    · intro o ho
      obtain ⟨k, -, hko⟩ := hkind o ho
      exact hko.holds
    · intro o ho i _ hi
      obtain ⟨k, hk, hko⟩ := hkind o ho
      exact hd _ (hko.kind ▸ hk) i (Nat.zero_le i) (Nat.lt_of_lt_of_le hi hu)
  have hall : (∀ r ∈ runs s.layout.cells size, ∀ i, r.1 ≤ i → i < r.2 → s.Reducible spacing i) ↔
      ∀ i < s.layout.cells, s.Reducible spacing i := by
    rw [hruns.forall_iff]
    exact ⟨fun h i => h i (Nat.zero_le i), fun h i _ => h i⟩
  rw [reduce_eq hq, ← hall]
  constructor
  · rintro ⟨outs, h⟩ r hr
    obtain ⟨done, hd, -⟩ := bind_eq_ok.mp h
    have hm := List.mem_map_of_mem (f := fun r : Nat × Nat => (r.1, r.2,
      (kinds.zip buffers).map fun p => (⟨p.1, p.2.extract r.1 r.2, r.1⟩ : Output σ))) hr
    exact (hrange _ hm).mp (exists_mapM_eq_ok.mp ⟨done, hd⟩ _ hm)
  · intro h
    obtain ⟨done, hd⟩ := exists_mapM_eq_ok.mpr fun p hm =>
      (hrange p hm).mpr (h _ (mem_blankParts hq hruns hm).1)
    exact ⟨_, bind_eq_ok.mpr ⟨done, hd, rfl⟩⟩

end Subvolume
end Seismic
