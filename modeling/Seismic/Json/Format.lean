import Seismic.Attribute.Options
import Seismic.Json.Parts
import Seismic.Plane.Grid

/-!
# JSON forms of requests and surveys

A structure is written field by field under the names that are given to its fields, and read back
from them.  A field without a value is written as `null`; it is read as such or left out.  The
options of a request have defaults, so each of them may be left out.  A choice goes by its name.
-/

namespace Seismic

open Codec (ofDouble toDouble? ofCount toCount? ofString toString? ofName toName? ofItems toItems?
  ofFields fields?)

variable {V : Type} [Codec V]

/-! ## Parts -/

namespace Codec

/-- The choice of a given name. -/
def choice? {β : Type} (all : List β) (name : β → String) (v : V) : Option β :=
  (toName? v).bind fun s => all.find? fun c => name c == s

def list? {β : Type} (read : V → Option β) (v : V) : Option (List β) :=
  (toItems? v).bind fun items => items.mapM read

def ofOption {β : Type} (write : β → V) : Option β → V
  | none => null
  | some x => write x

/-- A value that may be missing or `null`. -/
def optional? {β : Type} (read : V → Option β) : Option V → Option (Option β)
  | none => some none
  | some v => if isNull v then some none else some <$> read v

def defaulted? {β : Type} (default : β) (read : V → Option β) : Option V → Option β
  | none => some default
  | some v => read v

end Codec

open Codec (choice? list? ofOption optional? defaulted?)

/-! ## Choices -/

def Direction.toJson (d : Direction) : V := ofName d.name

def Direction.ofJson? : V → Option Direction := choice? all name

def CoordinateSystem.toJson (c : CoordinateSystem) : V := ofName c.name

def CoordinateSystem.ofJson? : V → Option CoordinateSystem := choice? all name

def Interpolation.toJson (m : Interpolation) : V := ofName m.name

def Interpolation.ofJson? : V → Option Interpolation := choice? all name

def Attribute.toJson (a : Attribute) : V := ofName a.name

def Attribute.ofJson? : V → Option Attribute := choice? all name

/-! ## Geometry -/

def Point.fieldNames : List String := ["x", "y"]

def Point.toJson (p : Point Float) : V := ofFields fieldNames [ofDouble p.x, ofDouble p.y]

def Point.ofJson? (v : V) : Option (Point Float) := do
  let [some x, some y] ← fields? fieldNames false v | none
  return ⟨← toDouble? x, ← toDouble? y⟩

def Affine.fieldNames : List String := ["matrix"]

def Affine.toJson (t : Affine Float) : V :=
  ofFields fieldNames
    [ofItems [ofItems [ofDouble t.a, ofDouble t.b, ofDouble t.c],
      ofItems [ofDouble t.d, ofDouble t.e, ofDouble t.f]]]

def Affine.ofJson? (v : V) : Option (Affine Float) := do
  let [some matrix] ← fields? fieldNames false v | none
  let [upper, lower] ← toItems? matrix | none
  let [a, b, c] ← toItems? upper | none
  let [d, e, f] ← toItems? lower | none
  return ⟨← toDouble? a, ← toDouble? b, ← toDouble? c,
    ← toDouble? d, ← toDouble? e, ← toDouble? f⟩

def Grid.fieldNames : List String := ["transformation", "inverse"]

def Grid.toJson (g : Grid Float) : V :=
  ofFields fieldNames [g.toWorldMap.toJson, g.ofWorldMap.toJson]

def Grid.ofJson? (v : V) : Option (Grid Float) := do
  let [some forward, some backward] ← fields? fieldNames false v | none
  return ⟨← Affine.ofJson? forward, ← Affine.ofJson? backward⟩

def BoundedGrid.fieldNames : List String := ["grid", "nrows", "ncols"]

def BoundedGrid.toJson (g : BoundedGrid Float) : V :=
  ofFields fieldNames [g.grid.toJson, ofCount g.nrows, ofCount g.ncols]

def BoundedGrid.ofJson? (v : V) : Option (BoundedGrid Float) := do
  let [some grid, some nrows, some ncols] ← fields? fieldNames false v | none
  return ⟨← Grid.ofJson? grid, ← toCount? nrows, ← toCount? ncols⟩

/-! ## Surveys -/

def Axis.fieldNames : List String := ["min", "max", "nsamples", "name", "unit", "dimension"]

def Axis.toJson (a : Axis Float) : V :=
  ofFields fieldNames
    [ofDouble a.first, ofDouble a.last, ofCount a.nsamples, ofString a.name, ofString a.unit,
      ofCount a.dimension]

def Axis.ofJson? (v : V) : Option (Axis Float) := do
  let [some first, some last, some nsamples, some name, some unit, some dimension] ←
    fields? fieldNames false v | none
  return ⟨← toDouble? first, ← toDouble? last, ← toCount? nsamples, ← toString? name,
    ← toString? unit, ← toCount? dimension⟩

def Transformer.fieldNames : List String :=
  ["index_to_world", "world_to_index", "inline_min", "inline_stepsize", "crossline_min",
    "crossline_stepsize"]

def Transformer.toJson (t : Transformer Float) : V :=
  ofFields fieldNames
    [t.indexToWorld.toJson, t.worldToIndex.toJson, ofDouble t.inlineFirst,
      ofDouble t.inlineStep, ofDouble t.crosslineFirst, ofDouble t.crosslineStep]

def Transformer.ofJson? (v : V) : Option (Transformer Float) := do
  let [some forward, some backward, some inlineFirst, some inlineStep, some crosslineFirst,
    some crosslineStep] ← fields? fieldNames false v | none
  return ⟨← Affine.ofJson? forward, ← Affine.ofJson? backward, ← toDouble? inlineFirst,
    ← toDouble? inlineStep, ← toDouble? crosslineFirst, ← toDouble? crosslineStep⟩

def Moment.toJson (t : Moment) : V := ofString t.text

def Moment.ofJson? (v : V) : Option Moment := (toString? v).bind parse?

def Survey.fieldNames : List String :=
  ["iline", "xline", "sample", "crs", "inputFilename", "importTimeStamp", "transformer"]

def Survey.toJson (s : Survey Float) : V :=
  ofFields fieldNames
    [s.iline.toJson, s.xline.toJson, s.sample.toJson, ofString s.crs, ofString s.inputFile,
      ofOption Moment.toJson s.importedAt, s.transformer.toJson]

def Survey.ofJson? (v : V) : Option (Survey Float) := do
  let [some iline, some xline, some sample, some crs, some inputFile, importedAt,
    some transformer] ← fields? fieldNames false v | none
  return ⟨← Axis.ofJson? iline, ← Axis.ofJson? xline, ← Axis.ofJson? sample, ← toString? crs,
    ← toString? inputFile, ← optional? Moment.ofJson? importedAt,
    ← Transformer.ofJson? transformer⟩

/-! ## Options -/

def Options.fieldNames : List String := ["attributes", "stepsize", "partitionSize"]

def Options.toJson (o : Options Float) : V :=
  ofFields fieldNames
    [ofItems (o.attributes.map Attribute.toJson), ofOption ofDouble o.stepsize,
      ofCount o.partitionSize]

def Options.ofJson? (v : V) : Option (Options Float) := do
  let [attributes, stepsize, partitionSize] ← fields? fieldNames true v | none
  return ⟨← defaulted? [] (list? Attribute.ofJson?) attributes,
    ← optional? toDouble? stepsize,
    ← defaulted? defaultPartitionSize toCount? partitionSize⟩

variable (V) in
/-- Reads options that can be carried out. -/
def Options.ofText (text : String) : Result Float (Options Float) :=
  match (Codec.parse? text : Option V).bind Options.ofJson? with
  | none => .error .unreadableText
  | some o => do
    o.validate
    return o

/-- Reads the body of a request. -/
def Options.ofRequest (body : String) : Result Float (Options Float) := ofText Json body

end Seismic
