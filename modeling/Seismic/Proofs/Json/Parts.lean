import Seismic.Proofs.Json.Codec
import Seismic.Proofs.Json.Text

/-!
# JSON as a library

The members of an object are found by their names as long as these differ, and numbers, texts and
arrays are read as what they were made of.  As a value with a written form reads back from its text,
JSON is what is expected of a library.
-/

namespace Seismic
namespace Json

open Double (IsFinite)

theorem exists_ofDouble {x : Float} (hx : IsFinite x) :
    ∃ n, ofDouble x = number n ∧ n.WellFormed ∧ n.toDouble = x := by
  obtain ⟨n, hn, hform, hvalue⟩ := Numeral.exists_ofDouble? hx
  refine ⟨n, ?_, hform, hvalue⟩
  unfold ofDouble
  rw [hn]

theorem writable_ofMembers {members : List (String × Json)}
    (h : ∀ m ∈ members, m.2.Writable) : (ofMembers members).Writable := by
  refine .object (fun m hm => ?_) fun m hm => ?_
  · obtain ⟨m, -, rfl⟩ := List.mem_map.mp hm
    rfl
  · obtain ⟨member, hmember, rfl⟩ := List.mem_map.mp hm
    exact h member hmember

theorem member?_of_mem {members : List (String × Json)} (hnames : (members.map Prod.fst).Nodup)
    {m : String × Json} (hm : m ∈ members) :
    member? m.1 (members.map fun (name, value) => (some name, value)) = some (some m.2) := by
  have hfilter : (members.map fun m => (some m.1, m.2)).filter (fun m' => m'.1 == some m.1) =
      [(some m.1, m.2)] := by
    induction members with
    | nil => cases hm
    | cons m' members ih =>
      rw [List.map_cons, List.nodup_cons] at hnames
      rcases List.mem_cons.mp hm with rfl | hm
      · rw [List.map_cons, List.filter_cons_of_pos (by simp), List.filter_eq_nil_iff.mpr]
        intro m' hm'
        obtain ⟨m'', hm'', rfl⟩ := List.mem_map.mp hm'
        simp only [beq_iff_eq, Option.some.injEq]
        rintro heq
        exact hnames.1 (heq ▸ List.mem_map_of_mem hm'')
      · rw [List.map_cons, List.filter_cons_of_neg, ih hnames.2 hm]
        simp only [beq_iff_eq, Option.some.injEq]
        rintro heq
        exact hnames.1 (heq ▸ List.mem_map_of_mem hm)
  unfold member?
  rw [hfilter]

theorem fields?_ofMembers {names : List String} {members : List (String × Json)}
    {defaults : Bool} (hnames : members.map Prod.fst = names) (hnodup : names.Nodup) :
    fields? names defaults (ofMembers members) = some (members.map fun m => some m.2) := by
  subst hnames
  unfold fields? ofMembers
  dsimp only
  rw [if_pos (by simp)]
  have hmapM : ∀ part ⊆ members, (part.map Prod.fst).mapM (fun name =>
      member? name (members.map fun (name, value) => (some name, value))) =
        some (part.map fun m => some m.2) := by
    intro part hpart
    induction part with
    | nil => rfl
    | cons m part ih =>
      rw [List.map_cons, List.mapM_cons, member?_of_mem hnodup (hpart List.mem_cons_self),
        ih fun m' hm' => hpart (List.mem_cons_of_mem m hm')]
      rfl
  exact hmapM members fun m hm => hm

theorem fields?_zip {names : List String} {values : List Json} (defaults : Bool)
    (hnodup : names.Nodup) (hlength : names.length = values.length) :
    fields? names defaults (ofMembers (names.zip values)) = some (values.map some) := by
  rw [fields?_ofMembers (List.map_fst_zip hlength.le) hnodup]
  congr 1
  calc (names.zip values).map (fun m => some m.2)
      = ((names.zip values).map Prod.snd).map some := by rw [List.map_map]; rfl
    _ = values.map some := by rw [List.map_snd_zip hlength.ge]

theorem writable_of_written {depth : Nat} {v : Json} (h : Codec.Written depth v) :
    v.Writable := by
  induction h with
  | null => exact .null
  | double hx =>
    obtain ⟨n, hn, hform, -⟩ := exists_ofDouble hx
    show (ofDouble _).Writable
    rw [hn]
    exact .number hform
  | count hn => exact .number (Numeral.wellFormed_ofNat _)
  | string s => exact .text s
  | name s => exact .text s
  | items _ ih => exact .array ih
  | fields _ _ _ ih =>
    exact writable_ofMembers fun m hm => ih m.2 (List.of_mem_zip hm).2

theorem lawful : Codec.Lawful Json where
  parse?_render h _ := parse?_render (writable_of_written h)
  toDouble?_ofDouble hx := by
    obtain ⟨n, hn, -, hvalue⟩ := exists_ofDouble hx
    show toDouble? (ofDouble _) = _
    rw [hn]
    unfold toDouble?
    dsimp only
    rw [hvalue]
    exact if_pos hx
  toCount?_ofCount hn := if_pos hn
  toString?_ofString _ := rfl
  toName?_ofName _ := rfl
  toItems?_ofItems _ := rfl
  isNull_null := rfl
  isNull_ofDouble hx := by
    obtain ⟨n, hn, -⟩ := exists_ofDouble hx
    show isNull (ofDouble _) = _
    rw [hn]
    rfl
  fields?_ofFields := fields?_zip

end Json
end Seismic
