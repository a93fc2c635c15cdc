/-!
# Reference cells

A cell is an interval, a triangle, a tetrahedron, a quadrilateral, or a product of cells. Its corners have the
coordinates zero and one, and its entities (vertices, edges, faces) are named by their dimension and a number. In a
product the entities of the first factor run slowest. The dimension of an entity of a product keeps the dimensions in
the factors apart; the quadrilateral is the product of two intervals with these added up.
-/

namespace FormCompiler

inductive Cell where
  | vertex | interval | triangle | tetrahedron | quadrilateral
  | product (factors : List Cell)
  deriving Repr, Inhabited

namespace Cell

mutual

def same : Cell → Cell → Bool
  | .vertex, .vertex => true
  | .interval, .interval => true
  | .triangle, .triangle => true
  | .tetrahedron, .tetrahedron => true
  | .quadrilateral, .quadrilateral => true
  | .product as, .product bs => sameAll as bs
  | _, _ => false

def sameAll : List Cell → List Cell → Bool
  | [], [] => true
  | a :: as, b :: bs => same a b && sameAll as bs
  | _, _ => false

end

mutual

theorem same_iff (a b : Cell) : same a b = true ↔ a = b := by
  match a, b with
  | .product as, .product bs => simp [same, sameAll_iff as bs]
  | .product _, .vertex | .product _, .interval | .product _, .triangle | .product _, .tetrahedron
  | .product _, .quadrilateral => simp [same]
  | .vertex, b | .interval, b | .triangle, b | .tetrahedron, b | .quadrilateral, b => cases b <;> simp [same]

theorem sameAll_iff (as bs : List Cell) : sameAll as bs = true ↔ as = bs := by
  match as, bs with
  | [], [] => simp [sameAll]
  | [], _ :: _ => simp [sameAll]
  | _ :: _, [] => simp [sameAll]
  | a :: as, b :: bs => simp [sameAll, same_iff a b, sameAll_iff as bs]

end

instance : DecidableEq Cell := fun a b => decidable_of_iff _ (same_iff a b)

def digest : Cell → UInt64
  | .vertex => 1
  | .interval => 2
  | .triangle => 3
  | .tetrahedron => 4
  | .quadrilateral => 5
  | .product factors => mixHash 6 (hash (factors.map digest))

instance : Hashable Cell := ⟨digest⟩

end Cell

/-- The dimension of an entity: one number, or one for each factor of a product. -/
inductive Dim where
  | plain (n : Nat)
  | split (parts : List Nat)
  deriving DecidableEq, Hashable, Repr, Inhabited

namespace Dim

def total : Dim → Nat
  | .plain n => n
  | .split parts => parts.foldl (· + ·) 0

end Dim

/-- A point, a vector or a row of a matrix with exact entries. -/
abbrev Coordinates := List Rat

namespace Coordinates

def add (a b : Coordinates) : Coordinates := List.zipWith (· + ·) a b

def sub (a b : Coordinates) : Coordinates := List.zipWith (· - ·) a b

def scale (s : Rat) (a : Coordinates) : Coordinates := a.map (s * ·)

def dot (a b : Coordinates) : Rat := (List.zipWith (· * ·) a b).foldl (· + ·) 0

/-- The cross product of two vectors in space. -/
def cross : Coordinates → Coordinates → Coordinates
  | [a, b, c], [d, e, f] => [b * f - c * e, c * d - a * f, a * e - b * d]
  | _, _ => []

end Coordinates

namespace Cell

/-- All lists of one choice from each list, the first choice slowest. -/
def choices {α : Type} : List (List α) → List (List α)
  | [] => [[]]
  | xs :: rest => xs.flatMap fun x => (choices rest).map (x :: ·)

mutual

/-- The number of coordinates of a point of the cell. -/
def dimension : Cell → Nat
  | .vertex => 0
  | .interval => 1
  | .triangle => 2
  | .tetrahedron => 3
  | .quadrilateral => 2
  | .product factors => dimensionSum factors

/-- The number of coordinates of a point in the product. -/
def dimensionSum : List Cell → Nat
  | [] => 0
  | c :: cs => dimension c + dimensionSum cs

end

def dim : Cell → Dim
  | .product factors => .split (factors.map dimension)
  | c => .plain c.dimension

/-- Is the cell an interval, a triangle or a tetrahedron? -/
def isSimplex : Cell → Bool
  | .vertex | .interval | .triangle | .tetrahedron => true
  | _ => false

def isProduct : Cell → Bool
  | .product _ => true
  | _ => false

def hasSimplexFacets : Cell → Bool
  | .product _ => false
  | _ => true

def simplex : Nat → Cell
  | 0 => .vertex
  | 1 => .interval
  | 2 => .triangle
  | _ => .tetrahedron

mutual

def vertices : Cell → List Coordinates
  | .vertex => [[]]
  | .interval => [[0], [1]]
  | .triangle => [[0, 0], [1, 0], [0, 1]]
  | .tetrahedron => [[0, 0, 0], [1, 0, 0], [0, 1, 0], [0, 0, 1]]
  | .quadrilateral => [[0, 0], [0, 1], [1, 0], [1, 1]]
  | .product factors => verticesOf factors

def verticesOf : List Cell → List Coordinates
  | [] => [[]]
  | c :: cs => (vertices c).flatMap fun v => (verticesOf cs).map (v ++ ·)

end

/-- The corners of the entities of one dimension of a product, given those of the factors. -/
def productEntities : List (Nat × List (List Nat)) → List (List Nat)
  | [] => [[0]]
  | (_, entities) :: rest =>
    let stride := (rest.map Prod.fst).foldl (· * ·) 1
    entities.flatMap fun e => (productEntities rest).map fun f =>
      e.flatMap fun a => f.map fun b => a * stride + b

mutual

/-- The entities of a dimension, each as the numbers of its corners; none if there is no such dimension. -/
def entities? : Cell → Dim → Option (List (List Nat))
  | .vertex, .plain 0 => some [[0]]
  | .interval, .plain 0 => some [[0], [1]]
  | .interval, .plain 1 => some [[0, 1]]
  | .triangle, .plain 0 => some [[0], [1], [2]]
  | .triangle, .plain 1 => some [[1, 2], [0, 2], [0, 1]]
  | .triangle, .plain 2 => some [[0, 1, 2]]
  | .tetrahedron, .plain 0 => some [[0], [1], [2], [3]]
  | .tetrahedron, .plain 1 => some [[2, 3], [1, 3], [1, 2], [0, 3], [0, 2], [0, 1]]
  | .tetrahedron, .plain 2 => some [[1, 2, 3], [0, 2, 3], [0, 1, 3], [0, 1, 2]]
  | .tetrahedron, .plain 3 => some [[0, 1, 2, 3]]
  | .quadrilateral, .plain 0 => some [[0], [1], [2], [3]]
  | .quadrilateral, .plain 1 => some [[0, 1], [2, 3], [0, 2], [1, 3]]
  | .quadrilateral, .plain 2 => some [[0, 1, 2, 3]]
  | .product factors, .split parts => (factorEntities? factors parts).map productEntities
  | _, _ => none

/-- The number of corners and the entities of the given dimension, factor by factor. -/
def factorEntities? : List Cell → List Nat → Option (List (Nat × List (List Nat)))
  | [], [] => some []
  | c :: cs, d :: ds => do
    let entities ← entities? c (.plain d)
    let rest ← factorEntities? cs ds
    some ((c.vertices.length, entities) :: rest)
  | _, _ => none

end

/-- The dimensions in which the cell has entities, in ascending order. -/
def dims : Cell → List Dim
  | .product factors => (choices (factors.map fun c => List.range (c.dimension + 1))).map .split
  | c => (List.range (c.dimension + 1)).map .plain

def census (c : Cell) : List (Dim × Nat) :=
  c.dims.filterMap fun d => (c.entities? d).map fun es => (d, es.length)

def entityVertices (c : Cell) (d : Dim) (entity : Nat) : List Coordinates :=
  (((c.entities? d).bind (·[entity]?)).getD []).filterMap (c.vertices[·]?)

def subcell : Cell → Dim → Cell
  | .product factors, .split parts => .product ((factors.zip parts).map fun (c, d) =>
      match c with
      | .quadrilateral => if d == 2 then .quadrilateral else simplex d
      | _ => simplex d)
  | .quadrilateral, .plain 2 => .quadrilateral
  | _, d => simplex d.total

/-- The position of an entity of a product among those of the first factor and among those of the others. -/
def splitEntity (rest : Nat) (entity : Nat) : Nat × Nat := (entity / max rest 1, entity % max rest 1)

/-- The affine map from the reference cell of an entity into the cell: its origin, and the images of the unit
vectors. The corner of an entity next to the first in direction `k` gives the image of the `k`-th unit vector. -/
def simplexChart (c : Cell) (d entity : Nat) : Coordinates × List Coordinates :=
  match c, d with
  | .quadrilateral, 2 => ([0, 0], [[1, 0], [0, 1]])
  | _, _ => match c.entityVertices (.plain d) entity with
    | [] => ([], [])
    | origin :: others => (origin, others.map fun v => Coordinates.sub v origin)

/-- The charts of the factors side by side. -/
def productChart : List Cell → List Nat → Nat → Coordinates × List Coordinates
  | [], _, _ => ([], [])
  | c :: cs, ds, entity =>
    let d := ds.headD 0
    let rest := ((factorEntities? cs (ds.drop 1)).map fun es => (es.map (·.2.length)).foldl (· * ·) 1).getD 1
    let (e, others) := splitEntity rest entity
    let (o, axes) := simplexChart c d e
    let (p, more) := productChart cs (ds.drop 1) others
    (o ++ p, axes.map (· ++ List.replicate p.length 0) ++ more.map (List.replicate o.length 0 ++ ·))

/-- The affine map from the reference cell of an entity into the cell. -/
def chart : Cell → Dim → Nat → Coordinates × List Coordinates
  | .product factors, .split parts, entity => productChart factors parts entity
  | c, d, entity => simplexChart c d.total entity

/-- The derivative of the map from an entity into the cell, one row for each coordinate of the cell. -/
def entityJacobian (c : Cell) (d : Dim) (entity : Nat) : List Coordinates :=
  let (origin, axes) := c.chart d entity
  (List.range origin.length).map fun i => axes.map fun a => a.getD i 0

mutual

def volume : Cell → Rat
  | .vertex => 1
  | .interval => 1
  | .triangle => 1 / 2
  | .tetrahedron => 1 / 6
  | .quadrilateral => 1
  | .product factors => volumeOf factors

def volumeOf : List Cell → Rat
  | [] => 1
  | c :: cs => volume c * volumeOf cs

end

/-- A vector orthogonal to a facet that points out of the cell. -/
def simplexOutward (c : Cell) (facet : Nat) : Coordinates :=
  match c, facet with
  | .interval, 0 => [-1]
  | .interval, _ => [1]
  | .triangle, 0 => [1, 1]
  | .triangle, 1 => [-1, 0]
  | .triangle, _ => [0, -1]
  | .tetrahedron, 0 => [1, 1, 1]
  | .tetrahedron, 1 => [-1, 0, 0]
  | .tetrahedron, 2 => [0, -1, 0]
  | .tetrahedron, _ => [0, 0, -1]
  | .quadrilateral, 0 => [-1, 0]
  | .quadrilateral, 1 => [1, 0]
  | .quadrilateral, 2 => [0, -1]
  | .quadrilateral, _ => [0, 1]
  | _, _ => []

/-- A vector orthogonal to a facet of a product: that of the one factor in which it is a facet. -/
def productOutward : List Cell → List Nat → Nat → Coordinates
  | [], _, _ => []
  | c :: cs, ds, entity =>
    let d := ds.headD 0
    let rest := ((factorEntities? cs (ds.drop 1)).map fun es => (es.map (·.2.length)).foldl (· * ·) 1).getD 1
    let (e, others) := splitEntity rest entity
    let here := if d < c.dimension then simplexOutward c e else List.replicate c.dimension 0
    here ++ productOutward cs (ds.drop 1) others

/-- A vector orthogonal to a facet that points out of the cell, not of unit length. -/
def outward : Cell → Dim → Nat → Coordinates
  | .product factors, .split parts, facet => productOutward factors parts facet
  | c, _, facet => simplexOutward c facet

def name : Cell → String
  | .vertex => "vertex"
  | .interval => "interval"
  | .triangle => "triangle"
  | .tetrahedron => "tetrahedron"
  | .quadrilateral => "quadrilateral"
  | .product factors => " * ".intercalate (factors.attach.map fun ⟨c, _⟩ => name c)

def ofName? : String → Option Cell
  | "vertex" => some .vertex
  | "interval" => some .interval
  | "triangle" => some .triangle
  | "tetrahedron" => some .tetrahedron
  | "quadrilateral" => some .quadrilateral
  | _ => none

end Cell

end FormCompiler
