/-!
# Names in requests

The closed choices a request makes by name: across which direction to slice, in which
coordinates points are given, and how traces between recorded ones are formed.  Names are
read without regard to the case of ASCII letters.
-/

namespace Seismic

/-- A name in the case in which names are compared. -/
def upperCase (text : String) : String := text.map Char.toUpper

/-- The direction a slice is taken across. -/
inductive Direction where
  | inline | crossline | depth | time | sample | i | j | k
  deriving DecidableEq, Repr

namespace Direction

def all : List Direction := [inline, crossline, depth, time, sample, i, j, k]

def name : Direction → String
  | inline => "INLINE"
  | crossline => "CROSSLINE"
  | depth => "DEPTH"
  | time => "TIME"
  | sample => "SAMPLE"
  | i => "I"
  | j => "J"
  | k => "K"

/-- The name in messages. -/
def label : Direction → String
  | inline => "Inline"
  | crossline => "Crossline"
  | depth => "Depth"
  | time => "Time"
  | sample => "Sample"
  | i => "I"
  | j => "J"
  | k => "K"

/-- The axis that is held fixed: 0 for inlines, 1 for crosslines, 2 for samples. -/
def dimension : Direction → Nat
  | inline | i => 0
  | crossline | j => 1
  | depth | time | sample | k => 2

/-- Whether lines are numbered by annotation; the others are numbered by index. -/
def isAnnotation : Direction → Bool
  | i | j | k => false
  | _ => true

def named? (text : String) : Option Direction :=
  all.find? fun d => d.name == upperCase text

end Direction

inductive CoordinateSystem where
  | index
  | annotated
  | world
  deriving DecidableEq, Repr

namespace CoordinateSystem

def all : List CoordinateSystem := [index, annotated, world]

def name : CoordinateSystem → String
  | index => "INDEX"
  | annotated => "ANNOTATION"
  | world => "CDP"

/-- The other name under which a system is known. -/
def alias? : CoordinateSystem → Option String
  | index => some "IJ"
  | annotated => some "ILXL"
  | world => none

def named? (text : String) : Option CoordinateSystem :=
  all.find? fun c => c.name == upperCase text || c.alias? == some (upperCase text)

end CoordinateSystem

/-- How a trace between recorded traces is formed. -/
inductive Interpolation where
  | nearest | linear | cubic | angular | triangular
  deriving DecidableEq, Repr

namespace Interpolation

def all : List Interpolation := [nearest, linear, cubic, angular, triangular]

def name : Interpolation → String
  | nearest => "NEAREST"
  | linear => "LINEAR"
  | cubic => "CUBIC"
  | angular => "ANGULAR"
  | triangular => "TRIANGULAR"

def label : Interpolation → String
  | nearest => "Nearest"
  | linear => "Linear"
  | cubic => "Cubic"
  | angular => "Angular"
  | triangular => "Triangular"

def named? (text : String) : Option Interpolation :=
  all.find? fun m => m.name == upperCase text

end Interpolation
end Seismic
