import FormCompiler.Cell
import FormCompiler.Error

/-!
# Quadrature

Rules that integrate polynomials of a given degree exactly over a reference cell. On triangles and tetrahedra the rules
of low degree are tabulated; above them, and on intervals, they come from the roots of Jacobi polynomials, carried from
the cube to the simplex by collapsing coordinates. A rule on a product of cells is the product of rules.
-/

namespace FormCompiler

/-- The degree up to which a rule is exact, for all coordinates together or for each factor of a product of cells. -/
inductive Degree where
  | total (n : Int)
  | split (parts : List Int)
  deriving DecidableEq, Repr, Inhabited

structure Rule where
  points : List (List Float)
  weights : List Float
  deriving Repr, Inhabited

namespace Quadrature

/-- The Jacobi polynomial with the weights `(1 - x)^a (1 + x)^b` of degree `n`, and the one before it. -/
def jacobiGeneral (a b x : Float) : Nat → Float × Float
  | 0 => (1.0, 0.0)
  | 1 => (0.5 * (a - b + (a + b + 2.0) * x), 1.0)
  | n + 2 =>
    let (p, q) := jacobiGeneral a b x (n + 1)
    let k := Float.ofNat (n + 1)
    let c := a + b
    let a1 := 2.0 * (k + 1.0) * (k + c + 1.0) * (2.0 * k + c)
    let a2 := (2.0 * k + c + 1.0) * (a * a - b * b)
    let a3 := (2.0 * k + c) * (2.0 * k + c + 1.0) * (2.0 * k + c + 2.0)
    let a4 := 2.0 * (k + a) * (k + b) * (2.0 * k + c + 2.0)
    (((a2 + a3 * x) * p - a4 * q) / a1, p)

def jacobi (a b : Float) (n : Nat) (x : Float) : Float := (jacobiGeneral a b x n).1

def jacobiSlope (a b : Float) (n : Nat) (x : Float) : Float :=
  match n with
  | 0 => 0.0
  | m + 1 => 0.5 * (a + b + Float.ofNat (m + 2)) * jacobi (a + 1.0) (b + 1.0) m x

/-- Improve a root by Newton's method, keeping away from the roots already found. -/
def polish (a b : Float) (n : Nat) (found : List Float) : Nat → Float → Float
  | 0, r => r
  | fuel + 1, r =>
    let s := found.foldl (fun s x => s + 1.0 / (r - x)) 0.0
    let f := jacobi a b n r
    let delta := f / (jacobiSlope a b n r - f * s)
    let r := r - delta
    if delta.abs < 1.0e-16 then r else polish a b n found fuel r

/-- The roots of the Jacobi polynomial, in ascending order. -/
def roots (a b : Float) (n : Nat) : List Float :=
  (List.range n).foldl (fun found k =>
    let guess := -(Float.cos ((2.0 * Float.ofNat k + 1.0) * 3.141592653589793 / (2.0 * Float.ofNat n)))
    let start := match found.getLast? with
      | some x => 0.5 * (guess + x)
      | none => guess
    found ++ [polish a b n found 100 start]) []

/-- Points and weights for integrals over the unit interval with the weight `(1 - t)^a`. -/
def gauss (a : Nat) (n : Nat) : List (Float × Float) :=
  (roots (Float.ofNat a) 0.0 n).map fun x =>
    let slope := jacobiSlope (Float.ofNat a) 0.0 n x
    ((1.0 + x) / 2.0, 1.0 / ((1.0 - x * x) * slope * slope))

def gaussInterval (n : Nat) : Rule :=
  let g := gauss 0 n
  ⟨g.map fun (t, _) => [t], g.map Prod.snd⟩

def gaussTriangle (n : Nat) : Rule :=
  let all := (gauss 0 n).flatMap fun (s, w) => (gauss 1 n).map fun (t, v) => ([s * (1.0 - t), t], w * v)
  ⟨all.map Prod.fst, all.map Prod.snd⟩

def gaussTetrahedron (n : Nat) : Rule :=
  let all := (gauss 0 n).flatMap fun (s, w) => (gauss 1 n).flatMap fun (t, v) => (gauss 2 n).map fun (u, z) =>
    ([s * (1.0 - t) * (1.0 - u), t * (1.0 - u), u], w * v * z)
  ⟨all.map Prod.fst, all.map Prod.snd⟩

def equal (w : Float) (points : List (List Float)) : List (List Float × Float) := points.map fun p => (p, w)

def ofPairs (pairs : List (List Float × Float)) : Rule := ⟨pairs.map Prod.fst, pairs.map Prod.snd⟩

/-- The points of a triangle of which two barycentric coordinates are `b` and one is `a`. -/
def triangleOrbit (a b : Float) : List (List Float) := [[a, b], [b, a], [b, b]]

/-- The points of a triangle with three different barycentric coordinates. -/
def triangleOrbitOfSix (a b c : Float) : List (List Float) := [[a, b], [a, c], [b, a], [b, c], [c, a], [c, b]]

/-- The points of a tetrahedron of which three barycentric coordinates are `b` and one is `a`. -/
def tetrahedronOrbit (a b : Float) : List (List Float) := [[a, b, b], [b, b, b], [b, b, a], [b, a, b]]

/-- The points of a tetrahedron of which two barycentric coordinates are `a` and two are `b`. -/
def tetrahedronOrbitOfSix (a b : Float) : List (List Float) :=
  [[b, a, a], [a, b, a], [a, a, b], [a, b, b], [b, a, b], [b, b, a]]

/-- The points of a tetrahedron of which two barycentric coordinates are `a` and the others `b` and `c`. -/
def tetrahedronOrbitOfTwelve (a b c : Float) : List (List Float) :=
  [[b, a, a], [a, b, a], [a, a, b], [c, a, a], [a, c, a], [a, a, c],
   [a, b, c], [b, c, a], [c, a, b], [a, c, b], [b, a, c], [c, b, a]]

def axisPoints (degree : Nat) : Nat := (degree + 2) / 2

def triangle (degree : Nat) : Rule :=
  match degree with
  | 0 | 1 => ofPairs (equal 0.5 [[1.0 / 3.0, 1.0 / 3.0]])
  | 2 => ofPairs (equal (1.0 / 6.0) [[1.0 / 6.0, 1.0 / 6.0], [1.0 / 6.0, 2.0 / 3.0], [2.0 / 3.0, 1.0 / 6.0]])
  | 3 => ofPairs (equal (1.0 / 12.0) (triangleOrbitOfSix 0.659027622374092 0.231933368553031 0.109039009072877))
  | 4 => ofPairs (equal (0.109951743655322 / 2.0) (triangleOrbit 0.816847572980459 0.091576213509771) ++
      equal (0.223381589678011 / 2.0) (triangleOrbit 0.108103018168070 0.445948490915965))
  | 5 => ofPairs (equal 0.1125 [[1.0 / 3.0, 1.0 / 3.0]] ++
      equal (0.125939180544827 / 2.0) (triangleOrbit 0.797426985353087 0.101286507323456) ++
      equal (0.132394152788506 / 2.0) (triangleOrbit 0.059715871789770 0.470142064105115))
  | 6 => ofPairs (equal (0.050844906370207 / 2.0) (triangleOrbit 0.873821971016996 0.063089014491502) ++
      equal (0.116786275726379 / 2.0) (triangleOrbit 0.501426509658179 0.249286745170910) ++
      equal (0.082851075618374 / 2.0) (triangleOrbitOfSix 0.636502499121399 0.310352451033785 0.053145049844816))
  | d => gaussTriangle (axisPoints d)

def tetrahedron (degree : Nat) : Rule :=
  match degree with
  | 0 | 1 => ofPairs (equal (1.0 / 6.0) [[0.25, 0.25, 0.25]])
  | 2 => ofPairs (equal (1.0 / 24.0) (tetrahedronOrbit 0.585410196624969 0.138196601125011))
  | 3 => ofPairs (equal (-0.8 / 6.0) [[0.25, 0.25, 0.25]] ++
      equal (0.45 / 6.0) (tetrahedronOrbit 0.5 (1.0 / 6.0)))
  | 4 => ofPairs (equal (0.0190476190476190 / 6.0) (tetrahedronOrbitOfSix 0.5 0.0) ++
      equal (0.0885898247429807 / 6.0) (tetrahedronOrbit 0.6984197043243866 0.1005267652252045) ++
      equal (0.1328387466855907 / 6.0) (tetrahedronOrbit 0.0568813795204234 0.3143728734931922))
  | 5 => ofPairs (equal (0.1126879257180162 / 6.0) (tetrahedronOrbit 0.0673422422100983 0.3108859192633005) ++
      equal (0.0734930431163619 / 6.0) (tetrahedronOrbit 0.7217942490673264 0.0927352503108912) ++
      equal (0.0425460207770812 / 6.0) (tetrahedronOrbitOfSix 0.4544962958743506 0.0455037041256494))
  | 6 => ofPairs (equal (0.0399227502581679 / 6.0) (tetrahedronOrbit 0.3561913862225449 0.2146028712591517) ++
      equal (0.0100772110553207 / 6.0) (tetrahedronOrbit 0.8779781243961660 0.0406739585346113) ++
      equal (0.0553571815436544 / 6.0) (tetrahedronOrbit 0.0329863295731731 0.3223378901422757) ++
      equal (0.0482142857142857 / 6.0)
        (tetrahedronOrbitOfTwelve 0.0636610018750175 0.2696723314583159 0.6030056647916491))
  | d => gaussTetrahedron (axisPoints d)

def times (a b : Rule) : Rule :=
  ⟨a.points.flatMap fun p => b.points.map (p ++ ·), a.weights.flatMap fun w => b.weights.map (w * ·)⟩

def simple (c : Cell) (degree : Int) : Except Error Rule :=
  if degree < 0 then .error .malformed
  else
    let d := degree.toNat
    match c with
    | .vertex => .ok ⟨[[]], [1.0]⟩
    | .interval => .ok (gaussInterval (axisPoints d))
    | .triangle => .ok (triangle d)
    | .tetrahedron => .ok (tetrahedron d)
    | _ =>
      let g := gaussInterval (axisPoints d)
      .ok (times g g)

def productRule : List (Cell × Int) → Except Error Rule
  | [] => .ok ⟨[[]], [1.0]⟩
  | [(c, d)] => simple c d
  | (c, d) :: rest => do
    let a ← simple c d
    let b ← productRule rest
    return times a b

def rule (c : Cell) (degree : Degree) : Except Error Rule :=
  match c, degree with
  | .product factors, .total n => productRule (factors.map fun c => (c, n))
  | .product factors, .split parts =>
    if factors.length == parts.length then productRule (factors.zip parts) else .error (.requirement "")
  | c, .total n => simple c n
  | .quadrilateral, .split (a :: b :: _) => productRule [(.interval, a), (.interval, b)]
  | _, .split _ => .error .unsupported

end Quadrature

end FormCompiler
