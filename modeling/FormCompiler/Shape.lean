import FormCompiler.Text.Quoted

/-!
# Shapes

The extents of a tensor, dimension by dimension. The extents of a constant are known numbers; a variable may
leave one open. Entries are ordered row by row, the last index fastest.
-/

namespace FormCompiler

/-- The extent of one dimension, none if it is not known. -/
abbrev Extent := Option Int

abbrev Shape := List Extent

namespace Shape

def ofNats (s : List Nat) : Shape := s.map fun n => some (Int.ofNat n)

/-- The extents if all are known and none is negative. -/
def toNats? (s : Shape) : Option (List Nat) :=
  s.mapM fun
    | some (Int.ofNat n) => some n
    | _ => none

def hasOpenOrEmpty (s : Shape) : Bool := s.any fun d => d == none || d == some 0

/-- The number of entries, none if an extent is open. -/
def size? (s : Shape) : Option Int := s.foldlM (fun acc d => d.map (acc * ·)) 1

def extentText : Extent → String
  | none => "None"
  | some n => toString n

def text (s : Shape) : String := Text.tuple (s.map extentText)

end Shape

/-- The number of entries of a tensor of known extents. -/
def count (s : List Nat) : Nat := s.foldl (· * ·) 1

/-- All index tuples in range, row by row. -/
def tuples : List Nat → List (List Nat)
  | [] => [[]]
  | n :: s => (List.range n).flatMap fun i => (tuples s).map (i :: ·)

/-- The position of an index tuple, row by row. -/
def position (s idx : List Nat) : Nat :=
  (s.zip idx).foldl (fun acc (n, i) => acc * n + i) 0

/-- The distance between entries that differ by one in each index. -/
def strides : List Nat → List Nat
  | [] => []
  | _ :: s => count s :: strides s

end FormCompiler
