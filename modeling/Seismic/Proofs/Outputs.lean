import Seismic.Proofs.Stores
import Seismic.Subvolume.Reduce

/-!
# Writing outputs

An output holds the samples of a run of cells, and a sample is written for a cell that is named
by its number among all cells.  A number before the run is found out by a difference that would
be negative, and one after it by a difference that is too large, so that no write ever reaches a
sample of another run.
-/

namespace Seismic

variable {α σ : Type}

namespace Output

theorem writeInPlace_eq (o : Output σ) (w : Write σ) :
    (o.writeInPlace w : Result α Unit × Output σ) = settle o (o.write w.sample w.index) := by
  unfold writeInPlace write
  split_ifs with h
  · rfl
  · cases (addCounts o.offset o.values.size : Result α Nat) <;> rfl

/-- Whether the cell of a write is one of those that the output holds. -/
def Covers (o : Output σ) (w : Write σ) : Prop :=
  o.offset ≤ w.index ∧ w.index < o.offset + o.values.size

instance (o : Output σ) (w : Write σ) : Decidable (o.Covers w) :=
  inferInstanceAs (Decidable (_ ∧ _))

/-- The failure if it is not. -/
def refusal (o : Output σ) (w : Write σ) : Failure α :=
  .outsideBuffer o.kind w.index o.offset (o.offset + o.values.size) (4 * o.values.size)

/-- The place of the sample of a cell, if the output holds it. -/
def place (o : Output σ) (w : Write σ) : Option Nat :=
  if o.Covers w then some (w.index - o.offset) else none

/-- Outputs of one attribute for the same cells. -/
structure SameCells (o o' : Output σ) : Prop where
  kind : o'.kind = o.kind
  offset : o'.offset = o.offset
  size : o'.values.size = o.values.size

variable {o o' : Output σ} {w : Write σ}

theorem covers_iff : o.Covers w ↔ o.offset ≤ w.index ∧ w.index - o.offset < o.values.size := by
  unfold Covers
  omega

theorem place_eq_some_iff {j : Nat} (hj : j < o.values.size) :
    o.place w = some j ↔ w.index = o.offset + j := by
  unfold place
  rw [Option.ite_none_right_eq_some, Option.some_inj, Covers]
  omega

theorem writeInPlace_of_covers (h : o.Covers w) : (o.writeInPlace w : Result α Unit × Output σ) =
    (.ok (), { o with values := o.values.setIfInBounds (w.index - o.offset) w.sample }) := by
  rw [writeInPlace_eq, write, if_pos (covers_iff.mp h)]
  rfl

section Room

variable (hroom : o.offset + o.values.size < countBound)
include hroom

/-- The end of the run is a count, so the failure can name it. -/
theorem writeInPlace_of_not_covers (h : ¬ o.Covers w) :
    o.writeInPlace w = ((.error (o.refusal w) : Result α Unit), o) := by
  rw [writeInPlace_eq, write, if_neg (covers_iff.not.mp h), addCounts_eq_ok.mpr ⟨hroom, rfl⟩]
  rfl

theorem writeInPlace_of_sameCells (hsame : SameCells o o') (h : ¬ o.Covers w) :
    o'.writeInPlace w = ((.error (o.refusal w) : Result α Unit), o') := by
  have hrefusal : (o'.refusal w : Failure α) = o.refusal w := by
    unfold refusal
    rw [hsame.kind, hsame.offset, hsame.size]
  rw [← hrefusal]
  refine writeInPlace_of_not_covers (by rwa [hsame.offset, hsame.size]) ?_
  rwa [Covers, hsame.offset, hsame.size]

/-- One write, as far as the next one is concerned. -/
theorem writeInPlace_stored (o' : Output σ) (w : Write σ) (hsame : SameCells o o') :
    (o'.writeInPlace w : Result α Unit × Output σ).1 =
        (if o.Covers w then .ok () else .error (o.refusal w)) ∧
      SameCells o (o'.writeInPlace w : Result α Unit × Output σ).2 ∧
      (o'.writeInPlace w : Result α Unit × Output σ).2.values =
        stored o.place Write.sample o'.values w := by
  by_cases h : o.Covers w
  · have h' : o'.Covers w := by rwa [Covers, hsame.offset, hsame.size]
    have hplace : o.place w = some (w.index - o.offset) := if_pos h
    rw [writeInPlace_of_covers h', if_pos h, stored_of_some hplace, ← hsame.offset]
    exact ⟨rfl, ⟨hsame.kind, hsame.offset, Array.size_setIfInBounds.trans hsame.size⟩, rfl⟩
  · have hplace : o.place w = none := if_neg h
    rw [writeInPlace_of_sameCells hroom hsame h, if_neg h, stored_of_none hplace]
    exact ⟨rfl, hsame, rfl⟩

end Room

/-- Any samples written to an output, one after the other.  A write is refused unless the output
holds the cell, which leaves it as it was.  In the end it holds for every cell the sample that
was written last, or the one that it held at first. -/
theorem writes_in_turn (hroom : o.offset + o.values.size < countBound)
    (writes : List (Write σ)) :
    (∀ (o' : Output σ) (w : Write σ), SameCells o o' →
      ¬ (o.offset ≤ w.index ∧ w.index < o.offset + o.values.size) →
      o'.writeInPlace w = ((.error (o.refusal w) : Result α Unit), o')) ∧
    (∀ w : Write σ, (o.refusal w : Failure α).category? = some .outOfRange) ∧
    ∃ o', inTurn writeInPlace o writes =
        (writes.map fun w => if o.offset ≤ w.index ∧ w.index < o.offset + o.values.size then
          (.ok () : Result α Unit) else .error (o.refusal w), o') ∧
      SameCells o o' ∧
      ∀ j x, o.values[j]? = some x →
        o'.values[j]? = some (lastValue Write.sample (·.index = o.offset + j) writes x) := by
  refine ⟨fun o' w => writeInPlace_of_sameCells hroom, fun w => rfl, ?_⟩
  have hrun := inTurn_stored (α := α) (writeInPlace_stored hroom) ⟨rfl, rfl, rfl⟩ writes
  generalize inTurn writeInPlace o writes = run at hrun ⊢
  obtain ⟨answers, o'⟩ := run
  obtain ⟨rfl, hsame, hvalues⟩ := hrun
  refine ⟨o', rfl, hsame, fun j x hx => ?_⟩
  have hlast := getElem?_foldl_stored o.place Write.sample writes hx
  obtain ⟨hj, -⟩ := Array.getElem?_eq_some_iff.mp hx
  rw [lastValue_congr fun w => place_eq_some_iff hj] at hlast
  rwa [hvalues]

/-- The pieces into which buffers are cut for a run of cells end where the run ends. -/
theorem offset_add_size_of_outputsOf {kinds : List Attribute} {buffers : List (Array σ)}
    {lower upper : Nat} {os : List (Output σ)} (hle : lower ≤ upper)
    (hlong : ∀ buffer ∈ buffers, upper ≤ buffer.size)
    (h : (Subvolume.outputsOf kinds buffers lower upper : Result α _) = .ok os) :
    ∀ o ∈ os, o.offset + o.values.size = upper := by
  intro o ho
  obtain ⟨⟨kind, buffer⟩, hmem, hof⟩ := exists_of_mem_mapM h ho
  have hsize := hlong buffer (List.of_mem_zip hmem).2
  dsimp only [ofArray] at hof
  split_ifs at hof
  cases hof
  show lower + (buffer.extract lower upper).size = upper
  rw [Array.size_extract]
  omega

/-- The output of cells four and five of six.  The cell before and the one after them are refused,
and cell five is written twice. -/
theorem writes_in_turn_of_two : ∃ o o' : Output Single,
    (Subvolume.outputsOf [.max] [Array.replicate 6 ⟨0⟩] 4 6 : Result Float _) = .ok [o] ∧
    o.offset + o.values.size < countBound ∧
    inTurn writeInPlace o [⟨⟨1⟩, 3⟩, ⟨⟨2⟩, 5⟩, ⟨⟨3⟩, 6⟩, ⟨⟨4⟩, 5⟩] =
      (([.error (.outsideBuffer .max 3 4 6 8), .ok (), .error (.outsideBuffer .max 6 4 6 8),
        .ok ()] : List (Result Float Unit)), o') ∧
    o'.values[0]? = some ⟨0⟩ ∧ o'.values[1]? = some ⟨4⟩ := by
  obtain ⟨o, made, hvalues, hoffset⟩ : ∃ o : Output Single,
      (Subvolume.outputsOf [.max] [Array.replicate 6 ⟨0⟩] 4 6 : Result Float _) = .ok [o] ∧
      o.values = #[⟨0⟩, ⟨0⟩] ∧ o.offset = 4 := ⟨_, rfl, rfl, rfl⟩
  have hroom : o.offset + o.values.size < countBound := by
    rw [offset_add_size_of_outputsOf (by decide) (by simp) made o List.mem_cons_self]
    decide
  obtain ⟨-, -, o', hrun, -, hcells⟩ := writes_in_turn (α := Float) hroom
    [⟨⟨1⟩, 3⟩, ⟨⟨2⟩, 5⟩, ⟨⟨3⟩, 6⟩, ⟨⟨4⟩, 5⟩]
  have hfirst := hcells 0 ⟨0⟩ (by rw [hvalues]; rfl)
  have hsecond := hcells 1 ⟨0⟩ (by rw [hvalues]; rfl)
  rw [hoffset] at hfirst hsecond
  cases made
  exact ⟨_, o', rfl, hroom, hrun, hfirst, hsecond⟩

end Output
end Seismic
