import FormCompiler.Element.Basic
import FormCompiler.Polynomial
import FormCompiler.Quadrature

/-!
# Basis functions

The functions of an element on its reference cell. On simplices they are polynomials dual to degrees of freedom: point
values, normal and tangential components at points of the facets and edges, and moments. Functions on a product of cells
are products, and a space can be a selection of the functions of another one, or have their values placed in vectors.
Functions are tabulated, with their derivatives, at points of an entity of the cell.
-/

namespace FormCompiler

/-- What is known of a space besides its functions. -/
structure FunctionsInfo where
  cell : Cell
  size : Nat
  shape : List Nat
  /-- The degree of the differential forms for which the functions stand, if any. -/
  formDegree : Option Nat
  mapping : Mapping
  /-- The dimension of the entity to which each function belongs. -/
  supports : List Nat
  deriving Repr, Inhabited

inductive Functions where
  /-- Polynomials with a factor, component by component. -/
  | polynomial (info : FunctionsInfo) (functions : List (Float × List Polynomial))
  /-- Polynomials on the interval that are one at a node and zero at the others. -/
  | interpolation (info : FunctionsInfo) (nodes : List Float)
  /-- Functions on each facet, zero on the others. -/
  | facets (info : FunctionsInfo) (facet : Functions)
  /-- Values at given points only. -/
  | atPoints (info : FunctionsInfo) (points : List (List Float))
  | product (info : FunctionsInfo) (a b : Functions)
  /-- Functions on the product of two intervals, seen on the quadrilateral. -/
  | square (info : FunctionsInfo) (a : Functions)
  /-- The functions of several spaces one after the other. -/
  | parts (info : FunctionsInfo) (ps : List Functions)
  | selected (info : FunctionsInfo) (a : Functions) (which : List Nat)
  /-- Values placed in vectors: for each component a source component and a sign, or nothing. -/
  | placed (info : FunctionsInfo) (a : Functions) (places : List (Option (Nat × Float)))
  deriving Repr, Inhabited

namespace Functions

def info : Functions → FunctionsInfo
  | .polynomial i _ | .interpolation i _ | .facets i _ | .atPoints i _ | .product i _ _ | .square i _
  | .parts i _ | .selected i _ _ | .placed i _ _ => i

/-!
## Polynomials dual to functionals
-/

/-- A linear functional on polynomials given by components: exact up to a factor, and belonging to an entity. -/
structure Functional where
  support : Nat
  factor : Float
  apply : List Polynomial → Rat

/-- Integer coordinates of the points of a lattice in a simplex, the first coordinate fastest. -/
def latticeIndices (start : Nat) : (depth finish : Nat) → List (List Nat)
  | 0, _ => [[]]
  | 1, finish => (List.range' start (finish - start)).map fun i => [i]
  | d + 1, finish => (List.range' start (finish - start)).flatMap fun i =>
      (latticeIndices start d (finish - i)).map (· ++ [i])

/-- The points of the lattice of order `n` inside the simplex with the given corners. -/
def interiorPoints (corners : List Coordinates) (n : Nat) : List Coordinates :=
  match corners with
  | [] => []
  | [p] => [p]
  | origin :: others =>
    let steps := others.map fun v => Coordinates.scale (1 / (Int.ofNat n : Rat)) (Coordinates.sub v origin)
    (latticeIndices 1 others.length n).map fun idx =>
      (idx.zip steps).foldl (fun p (k, h) => Coordinates.add p (Coordinates.scale (Int.ofNat k : Rat) h)) origin

def entityPoints (c : Cell) (d entity n : Nat) : List Coordinates :=
  interiorPoints (c.entityVertices (.plain d) entity) n

def entityCount (c : Cell) (d : Nat) : Nat := ((c.entities? (.plain d)).getD []).length

/-- The direction of an edge, from its first corner to its second. -/
def edgeTangent (c : Cell) (edge : Nat) : Coordinates :=
  match c.entityVertices (.plain 1) edge with
  | a :: b :: _ => Coordinates.sub b a
  | _ => []

/-- The directions from the first corner of a face to the others. -/
def faceTangents (c : Cell) (face : Nat) : List Coordinates :=
  match c.entityVertices (.plain 2) face with
  | a :: others => others.map fun b => Coordinates.sub b a
  | _ => []

/-- The directions between all corners of an entity. -/
def cornerTangents : List Coordinates → List Coordinates
  | [] => []
  | a :: rest => rest.map (fun b => Coordinates.sub b a) ++ cornerTangents rest

/-- A normal of a facet whose length is the measure of the facet, for a triangle, or twice that for a tetrahedron; its
direction follows from the numbering of the corners. -/
def facetNormal (c : Cell) (facet : Nat) : Coordinates :=
  match c.dimension with
  | 2 => match edgeTangent c facet with
    | [a, b] => [b, -a]
    | _ => []
  | 3 => match faceTangents c facet with
    | [a, b] => Coordinates.scale (-1) (Coordinates.cross a b)
    | _ => []
  | _ => []

def pointValue (support : Nat) (component : Nat) (p : Coordinates) : Functional :=
  ⟨support, 1.0, fun f => (f.getD component .zero).eval p⟩

/-- The component along a vector at a point. -/
def directional (support : Nat) (v p : Coordinates) : Functional :=
  ⟨support, 1.0, fun f => (f.zip v).foldl (fun acc (q, s) => if s == 0 then acc else acc + s * q.eval p) 0⟩

/-- The component along two vectors of a matrix at a point. -/
def bilinear (support : Nat) (v w p : Coordinates) : Functional :=
  directional support (v.flatMap fun a => w.map fun b => a * b) p

/-- The integral of the product with given polynomials, component by component. -/
def moment (support : Nat) (n : Nat) (factor : Float) (g : List Polynomial) : Functional :=
  ⟨support, factor, fun f => (f.zip g).foldl (fun acc (p, q) =>
    if q.terms.isEmpty then acc else acc + (p * q).integral n) 0⟩

def dual (span : List (List Polynomial)) (functionals : List Functional) : List (Float × List Polynomial) :=
  let matrix := functionals.map fun l => span.map l.apply
  let inverse := Elimination.inverse matrix
  let components := (span.headD []).length
  functionals.zipIdx.map fun (l, k) =>
    let column := inverse.map fun row => row.getD k 0
    (1.0 / l.factor, (List.range components).map fun i =>
      Polynomial.combination column (span.map fun p => p.getD i .zero))

/-- Vectors with one component from a list of polynomials and zero in the others. -/
def vectors (n : Nat) (ps : List Polynomial) : List (List Polynomial) :=
  (List.range n).flatMap fun i => ps.map fun p => (List.range n).map fun j => if i == j then p else .zero

/-- Symmetric matrices with one entry from a list of polynomials, at two places unless on the diagonal. -/
def symmetricMatrices (n : Nat) (ps : List Polynomial) : List (List Polynomial) :=
  (List.range n).flatMap fun i => (List.range' i (n - i)).flatMap fun j => ps.map fun p =>
    (List.range n).flatMap fun a => (List.range n).map fun b =>
      if (a == i && b == j) || (a == j && b == i) then p else .zero

def coefficients (exponents : List (List Nat)) (f : List Polynomial) : List Rat :=
  f.flatMap fun p => exponents.map fun e => ((p.terms.find? fun t => t.1 == e).map Prod.snd).getD 0

/-- The vectors that do not depend on those before them. -/
def independent (n degree : Nat) (fs : List (List Polynomial)) : List (List Polynomial) :=
  let exponents := (List.range (degree + 1)).flatMap (Polynomial.exponents n)
  let flags := Elimination.independent (fs.map (coefficients exponents))
  (fs.zip flags).filterMap fun (f, keep) => if keep then some f else none

def polynomialSpace (c : Cell) (shape : List Nat) (formDegree : Option Nat) (mapping : Mapping)
    (span : List (List Polynomial)) (functionals : List Functional) : Functions :=
  .polynomial ⟨c, functionals.length, shape, formDegree, mapping, functionals.map (·.support)⟩ (dual span functionals)

/-- Point values at the lattice points of each entity. -/
def lagrangeFunctionals (c : Cell) (degree : Nat) : List Functional :=
  (List.range (c.dimension + 1)).flatMap fun d => (List.range (entityCount c d)).flatMap fun e =>
    (entityPoints c d e degree).map (pointValue d 0)

/-- Continuous piecewise polynomials. -/
def lagrange (c : Cell) (degree : Nat) : Functions :=
  polynomialSpace c [] (some 0) .identity ((Polynomial.monomials c.dimension degree).map ([·]))
    (lagrangeFunctionals c degree)

def centre (points : List Coordinates) : Coordinates :=
  Coordinates.scale (1 / (Int.ofNat points.length : Rat))
    (points.foldl Coordinates.add (List.replicate (points.headD []).length 0))

def discontinuous (c : Cell) (degree : Nat) : Functions :=
  let n := c.dimension
  let functionals := if degree == 0 then [pointValue n 0 (centre c.vertices)]
    else (lagrangeFunctionals c degree).map fun l => { l with support := n }
  polynomialSpace c [] (some n) .identity ((Polynomial.monomials n degree).map ([·])) functionals

def select (f : Functions) (which : List Nat) : Functions :=
  let i := f.info
  .selected { i with size := which.length, supports := which.map fun k => i.supports.getD k 0 } f which

/-- The numbers of the functions that belong to entities of the given dimensions. -/
def supported (f : Functions) (allowed : Nat → Bool) : List Nat :=
  f.info.supports.zipIdx.filterMap fun (d, k) => if allowed d then some k else none

def bubble (c : Cell) (degree : Nat) : Except Error Functions :=
  let f := lagrange c degree
  match f.supported (· == c.dimension) with
  | [] => .error .noFunctions
  | which => .ok (f.select which)

/-- Linear functions that are one at the centre of a facet and zero at the other centres. -/
def crouzeixRaviart (c : Cell) : Functions :=
  let n := c.dimension
  polynomialSpace c [] none .identity ((Polynomial.monomials n 1).map ([·]))
    ((List.range (entityCount c (n - 1))).map fun f =>
      pointValue (n - 1) 0 (centre (c.entityVertices (.plain (n - 1)) f)))

/-- The functions dual to the mean and to the derivatives at the centre. -/
def discontinuousTaylor (c : Cell) (degree : Nat) : Functions :=
  let n := c.dimension
  let p := centre c.vertices
  let mean : Functional := moment n n 1.0 [Polynomial.const n 1]
  let slopes : List Functional := (List.range' 1 degree).flatMap fun k => (Polynomial.exponents n k).map fun alpha =>
    ⟨n, 1.0, fun f => ((f.getD 0 .zero).derivatives alpha).eval p⟩
  polynomialSpace c [] (some n) .identity ((Polynomial.monomials n degree).map ([·])) (mean :: slopes)

/-- Normal components at lattice points of the facets. -/
def normalFunctionals (c : Cell) (order : Nat) : List Functional :=
  let d := c.dimension - 1
  (List.range (entityCount c d)).flatMap fun f =>
    (entityPoints c d f order).map fun p => directional d (facetNormal c f) p

/-- Tangential components at lattice points of the edges. -/
def tangentFunctionals (c : Cell) (support order : Nat) : List Functional :=
  (List.range (entityCount c 1)).flatMap fun e =>
    (entityPoints c 1 e order).map fun p => directional support (edgeTangent c e) p

/-- All polynomials of degree `k - 1` with those of degree `k` that point away from the origin. -/
def raviartThomas (c : Cell) (k : Nat) : Functions :=
  let n := c.dimension
  let span := vectors n (Polynomial.monomials n (k - 1)) ++
    (Polynomial.homogeneous n (k - 1)).map fun p => (List.range n).map fun i => Polynomial.coordinate n i * p
  let inside := if k > 1 then
      (List.range n).flatMap fun i => (entityPoints c n 0 (k - 1 + n)).map (pointValue n i)
    else []
  polynomialSpace c [n] (some (n - 1)) .contravariant span (normalFunctionals c (n + k - 1) ++ inside)

/-- All polynomials of degree `k - 1` with those of degree `k` that are orthogonal to the position. -/
def nedelecSpan (n k : Nat) : List (List Polynomial) :=
  let x := Polynomial.coordinate n
  let low := vectors n (Polynomial.monomials n (k - 1))
  let high := Polynomial.homogeneous n (k - 1)
  if n == 2 then low ++ high.map fun p => [Polynomial.scale (-1) (x 1 * p), x 0 * p]
  else
    let crossed := (vectors 3 high).map fun v => match v with
      | [a, b, c] =>
        let minus := Polynomial.scale (-1)
        [x 1 * c + minus (x 2 * b), x 2 * a + minus (x 0 * c), x 0 * b + minus (x 1 * a)]
      | v => v
    independent n k (low ++ crossed)

/-- Moments of each component against orthogonal polynomials: against one if constants suffice, else against polynomials
that have norm one on a simplex of twice the size. -/
def interiorMoments (n degree : Nat) : List Functional :=
  let ps := Polynomial.orthogonal n degree
  let factor := fun (norm : Rat) =>
    if degree == 0 then 1.0 else 1.0 / Float.sqrt (Float.ofNat (Nat.pow 2 n) * Polynomial.toFloat norm)
  (List.range n).flatMap fun i => ps.map fun (p, norm) =>
    moment n n (factor norm) ((List.range n).map fun j => if i == j then p else .zero)

def nedelecFirst (c : Cell) (k : Nat) : Functions :=
  let n := c.dimension
  let edges := tangentFunctionals c 1 (k + 1)
  let faces := if n == 3 && k > 1 then
      (List.range (entityCount c 2)).flatMap fun f => (entityPoints c 2 f (k + 1)).flatMap fun p =>
        (faceTangents c f).map fun t => directional 2 t p
    else []
  let inside := if n == 2 && k > 1 then interiorMoments 2 (k - 2)
    else if n == 3 && k > 2 then interiorMoments 3 (k - 3) else []
  polynomialSpace c [n] (some 1) .covariant (nedelecSpan n k) (edges ++ faces ++ inside)

def momentsAgainst (f : Functions) : List Functional :=
  match f with
  | .polynomial i fs => fs.map fun (s, g) => moment i.cell.dimension i.cell.dimension s g
  | _ => []

/-- All vectors of polynomials, with normal components on the facets. -/
def brezziDouglasMarini (c : Cell) (k : Nat) : Functions :=
  let n := c.dimension
  let inside := if k > 1 then momentsAgainst (nedelecFirst c (k - 1)) else []
  polynomialSpace c [n] (some (n - 1)) .contravariant (vectors n (Polynomial.monomials n k))
    (normalFunctionals c (n + k) ++ inside)

/-- A polynomial on a face carried into space along the face, and the integral over the face against it. -/
def faceMoment (c : Cell) (face : Nat) (factor : Float) (g : List Polynomial) : Functional :=
  let (origin, axes) := c.simplexChart 2 face
  let along := fun (p : Polynomial) => p.terms.foldl (fun acc (e, a) =>
    let coordinate := fun (i : Nat) => axes.zipIdx.foldl (fun (q : Polynomial) (axis, k) =>
        q + Polynomial.monomial (Polynomial.unit 2 k) (axis.getD i 0)) (Polynomial.const 2 (origin.getD i 0))
    let powers := e.zipIdx.foldl (fun q (m, i) => m.fold (fun _ _ q => q * coordinate i) q) (Polynomial.const 2 a)
    acc + powers) Polynomial.zero
  ⟨2, factor, fun f => axes.zipIdx.foldl (fun acc (axis, k) =>
    (f.zip axis).foldl (fun acc (p, s) =>
      if s == 0 then acc else acc + s * (along p * g.getD k .zero).integral 2) acc) 0⟩

/-- All vectors of polynomials, with tangential components on the edges. -/
def nedelecSecond (c : Cell) (k : Nat) : Functions :=
  let n := c.dimension
  let edges := tangentFunctionals c 1 (k + 2)
  let inside := if n == 2 && k > 1 then momentsAgainst (raviartThomas c (k - 1))
    else if n == 3 && k > 1 then
      let onFaces := (List.range (entityCount c 2)).flatMap fun f => match raviartThomas .triangle (k - 1) with
        | .polynomial _ fs => fs.map fun (s, g) => faceMoment c f s g
        | _ => []
      onFaces ++ if k > 2 then momentsAgainst (raviartThomas c (k - 2)) else []
    else []
  polynomialSpace c [n] (some 1) .covariant (vectors n (Polynomial.monomials n k)) (edges ++ inside)

/-- Linear vectors with quadratic ones along the edges. -/
def brezziDouglasFortinMarini (c : Cell) : Functions :=
  let bubbles := match lagrange c 2 with
    | .polynomial i fs => (fs.zip i.supports).filterMap fun (((_, g), d) : (Float × List Polynomial) × Nat) =>
      if d == 1 then g.head? else none
    | _ => []
  let along := bubbles.zipIdx.map fun (p, e) => (edgeTangent c e).map fun t => Polynomial.scale t p
  polynomialSpace c [2] (some 1) .contravariant (vectors 2 (Polynomial.monomials 2 1) ++ along)
    (normalFunctionals c 3 ++ tangentFunctionals c 2 2)

/-- Symmetric matrices with continuous tangential components. -/
def regge (c : Cell) (r : Nat) : Functions :=
  let n := c.dimension
  let functionals := (List.range' 1 n).flatMap fun d => (List.range (entityCount c d)).flatMap fun e =>
    (entityPoints c d e (r + 2)).flatMap fun p =>
      (cornerTangents (c.entityVertices (.plain d) e)).map fun t => bilinear d t t p
  polynomialSpace c [n, n] none .doubleCovariant (symmetricMatrices n (Polynomial.monomials n r)) functionals

/-- Symmetric matrices with continuous normal components. -/
def hellanHerrmannJohnson (c : Cell) (r : Nat) : Functions :=
  let edges := (List.range 3).flatMap fun e => (entityPoints c 1 e (r + 2)).map fun p =>
    bilinear 1 (facetNormal c e) (facetNormal c e) p
  let inside := [([1, 0], [1, 0]), ([1, 0], [0, 1]), ([0, 1], [0, 1])].flatMap fun (v, w) =>
    (entityPoints c 2 0 (r + 2)).map fun p => bilinear 2 v w p
  polynomialSpace c [2, 2] none .doubleContravariant (symmetricMatrices 2 (Polynomial.monomials 2 r)) (edges ++ inside)

/-- The ends of the interval with the extrema of a Legendre polynomial between them. -/
def lobattoNodes (degree : Nat) : List Float :=
  [0.0] ++ (Quadrature.roots 1.0 1.0 (degree - 1)).map (fun x => (1.0 + x) / 2.0) ++ [1.0]

/-- Interpolation at the ends and the points of Lobatto between them. -/
def gaussLobattoLegendre (degree : Nat) : Functions :=
  let supports := [0] ++ List.replicate (degree - 1) 1 ++ [0]
  .interpolation ⟨.interval, degree + 1, [], some 0, .identity, supports⟩ (lobattoNodes degree)

def gaussLegendre (degree : Nat) : Functions :=
  .interpolation ⟨.interval, degree + 1, [], some 1, .identity, List.replicate (degree + 1) 1⟩
    ((Quadrature.roots 0.0 0.0 (degree + 1)).map fun x => (1.0 + x) / 2.0)

def facetTrace (c : Cell) (degree : Nat) : Functions :=
  let d := c.dimension - 1
  let facet := discontinuous (Cell.simplex d) degree
  let n := entityCount c d * facet.info.size
  .facets ⟨c, n, [], none, .identity, List.replicate n d⟩ facet

def ofFamily (f : Family) (c : Cell) (degree : Nat) : Except Error Functions :=
  match f with
  | .lagrange => .ok (lagrange c degree)
  | .discontinuousLagrange => .ok (discontinuous c degree)
  | .bubble => bubble c degree
  | .crouzeixRaviart => .ok (crouzeixRaviart c)
  | .discontinuousTaylor => .ok (discontinuousTaylor c degree)
  | .gaussLobattoLegendre => .ok (gaussLobattoLegendre degree)
  | .gaussLegendre => .ok (gaussLegendre degree)
  | .raviartThomas | .discontinuousRaviartThomas => .ok (raviartThomas c degree)
  | .brezziDouglasMarini => .ok (brezziDouglasMarini c degree)
  | .brezziDouglasFortinMarini =>
    if degree == 2 && c == .triangle then .ok (brezziDouglasFortinMarini c) else .error .noSuchSpace
  | .nedelecFirst => .ok (nedelecFirst c degree)
  | .nedelecSecond => .ok (nedelecSecond c degree)
  | .regge => .ok (regge c degree)
  | .hellanHerrmannJohnson => .ok (hellanHerrmannJohnson c degree)
  | .facetTrace => .ok (facetTrace c degree)
  | _ => .error .missing

/-!
## Spaces made of others
-/

/-- The products of the functions of two spaces, those of the first outermost. -/
def times (a b : Functions) : Functions :=
  let i := a.info
  let j := b.info
  let cell : Cell := .product [i.cell, j.cell]
  let formDegree := do
    let d ← i.formDegree
    let e ← j.formDegree
    some (d + e)
  let mapping := if i.mapping == .identity then j.mapping else i.mapping
  .product ⟨cell, i.size * j.size, i.shape ++ j.shape, formDegree, mapping,
    i.supports.flatMap fun d => j.supports.map (d + ·)⟩ a b

def flatten (a : Functions) : Functions := .square { a.info with cell := .quadrilateral } a

/-- Place the values of a product as those of a vector field with continuous normal components. -/
def hdiv (f : Functions) : Except Error Functions :=
  match f with
  | .product i a b =>
    match a.info.formDegree, b.info.formDegree with
    | some p, some q =>
      let n := i.cell.dimension
      if p + q + 1 != n then .error .malformed
      else
        let places : Option (List (Option (Nat × Float))) := match n, p, q with
          | 2, 0, 1 => some [some (0, -1.0), none]
          | 2, 1, 0 => some [none, some (0, 1.0)]
          | 3, 2, 0 => some [none, none, some (0, 1.0)]
          | 3, 1, 1 => match a.info.mapping with
            | .contravariant => some [some (0, 1.0), some (1, 1.0), none]
            | .covariant => some [some (1, 1.0), some (0, -1.0), none]
            | _ => none
          | _, _, _ => none
        match places with
        | some places => .ok (.placed { i with shape := [n], mapping := .contravariant, formDegree := some (n - 1) } f places)
        | none => .error .noSuchSpace
    | _, _ => .error .malformed
  | _ => .error .unprovided

/-- Place the values of a product as those of a vector field with continuous tangential components. -/
def hcurl (f : Functions) : Except Error Functions :=
  match f with
  | .product i a b =>
    match a.info.formDegree, b.info.formDegree with
    | some p, some q =>
      let n := i.cell.dimension
      if p + q != 1 then .error .malformed
      else
        let places : Option (List (Option (Nat × Float))) := match n, p with
          | 2, 1 => some [some (0, 1.0), none]
          | 2, 0 => some [none, some (0, 1.0)]
          | 3, 0 => some [none, none, some (0, 1.0)]
          | 3, 1 => match a.info.mapping with
            | .covariant => some [some (0, 1.0), some (1, 1.0), none]
            | .contravariant => some [some (1, -1.0), some (0, 1.0), none]
            | _ => none
          | _, _ => none
        match places with
        | some places => .ok (.placed { i with shape := [n], mapping := .covariant, formDegree := some 1 } f places)
        | none => .error .noSuchSpace
    | _, _ => .error .malformed
  | _ => .error .unprovided

/-- The functions of several spaces, with values of the same shape. -/
def enriched (ps : List Functions) : Functions :=
  match ps with
  | [] => .parts default []
  | p :: _ => .parts { p.info with size := (ps.map (·.info.size)).foldl (· + ·) 0,
                                   supports := ps.flatMap (·.info.supports), formDegree := none } ps

/-- The functions of several spaces, with values one after the other. -/
def mixed (ps : List Functions) : Functions :=
  match ps with
  | [] => .parts default []
  | p :: _ => .parts { p.info with size := (ps.map (·.info.size)).foldl (· + ·) 0,
                                   shape := [(ps.map fun q => Element.size q.info.shape).foldl (· + ·) 0],
                                   supports := ps.flatMap (·.info.supports), formDegree := none } ps

/-- The functions that belong to a part of the cell: its interior, or the entities up to a dimension. -/
def restrict (f : Functions) (domain : String) : Except Error Functions := do
  let n := f.info.cell.dimension
  let limit ← match domain with
    | "interior" => .ok none
    | "vertex" => .ok (some 0)
    | "edge" => .ok (some 1)
    | "face" => .ok (some 2)
    | "facet" => .ok (some (n - 1))
    | _ => .error .noFunctions
  let which ← match limit with
    | none => .ok (f.supported (· == n))
    | some d => if d > n then .error .missing else .ok (f.supported (· ≤ d))
  if which.isEmpty then .error .malformed
  match f with
  | .parts _ _ => .error .unprovided
  | f => .ok (f.select which)

/-!
## Tables
-/

/-- The coefficients of the product with `x - a`, lowest power first. -/
def timesLinear (a : Float) (cs : List Float) : List Float :=
  List.zipWith (· + ·) (0.0 :: cs) (cs.map (fun c => -(a * c)) ++ [0.0])

/-- The coefficients of the polynomial that is one at a node and zero at the others. -/
def interpolant (nodes : List Float) (k : Nat) : List Float :=
  let x := nodes.getD k 0.0
  nodes.zipIdx.foldl (fun cs (a, i) => if i == k then cs else (timesLinear a cs).map (· / (x - a))) [1.0]

def slopeOf (cs : List Float) : List Float :=
  (cs.zipIdx.drop 1).map fun (c, k) => c * Float.ofNat k

/-- The value of a polynomial given by coefficients. -/
def horner (cs : List Float) (x : Float) : Float := cs.foldr (fun c acc => acc * x + c) 0.0

def intoCell (c : Cell) (d : Dim) (entity : Nat) (p : List Float) : List Float :=
  let (origin, axes) := c.chart d entity
  (p.zip axes).foldl (fun x (s, axis) => List.zipWith (fun a b => a + s * Polynomial.toFloat b) x axis)
    (origin.map Polynomial.toFloat)

/-- The entity of the product of two intervals that is the given entity of the quadrilateral. -/
def squareEntity (d : Nat) (entity : Nat) : Dim × Nat :=
  match d with
  | 0 => (.split [0, 0], entity)
  | 1 => if entity < 2 then (.split [0, 1], entity) else (.split [1, 0], entity - 2)
  | _ => (.split [1, 1], entity)

/-- The values of all functions at one point, component by component. -/
abbrev Values := List (List Float)

/-- The derivative of the given orders of all functions at points of an entity: at each point, for each function, its
components. -/
def tabulate : Functions → (orders : List Nat) → (d : Dim) → (entity : Nat) → (points : List (List Float)) →
    Except Error (List Values)
  | .polynomial i fs, orders, d, entity, points =>
    let derived := fs.map fun ((s, ps) : Float × List Polynomial) => (s, ps.map (Polynomial.derivatives orders))
    .ok (points.map fun p =>
      let x := intoCell i.cell d entity p
      derived.map fun (s, ps) => ps.map fun q => s * q.evalFloat x)
  | .interpolation i nodes, orders, d, entity, points =>
    let derived := (List.range nodes.length).map fun k =>
      (orders.headD 0).fold (fun _ _ cs => slopeOf cs) (interpolant nodes k)
    .ok (points.map fun p =>
      let x := (intoCell i.cell d entity p).headD 0.0
      derived.map fun cs => [horner cs x])
  | .facets i facet, orders, d, entity, points =>
    if orders.any (· != 0) || d.total + 1 != i.cell.dimension then .error .unsupported
    else do
      let here ← tabulate facet (orders.drop 1) d 0 points
      let n := facet.info.size
      .ok (here.map fun values =>
        (List.range i.size).map fun k => if k / n == entity then values.getD (k % n) [0.0] else [0.0])
  | .atPoints i own, orders, _, _, points =>
    if orders.any (· != 0) then .error .malformed
    else if own.length != points.length then .error (.requirement "")
    else .ok ((List.range points.length).map fun q => (List.range i.size).map fun k => [if q == k then 1.0 else 0.0])
  | .product _ a b, orders, d, entity, points => do
    let n := a.info.cell.dimension
    let parts := match d with
      | .split ps => ps
      | .plain m => [min m n, m - min m n]
    let (da, db) := match a.info.cell, b.info.cell with
      | .product cs, .product _ => (Dim.split (parts.take cs.length), Dim.split (parts.drop cs.length))
      | .product cs, _ => (Dim.split (parts.take cs.length), Dim.plain ((parts.drop cs.length).headD 0))
      | _, .product _ => (Dim.plain (parts.headD 0), Dim.split (parts.drop 1))
      | _, _ => (Dim.plain (parts.headD 0), Dim.plain ((parts.drop 1).headD 0))
    let count := ((b.info.cell.entities? db).getD []).length
    let (ea, eb) := Cell.splitEntity count entity
    let ta ← tabulate a (orders.take n) da ea (points.map (·.take da.total))
    let tb ← tabulate b (orders.drop n) db eb (points.map (·.drop da.total))
    .ok ((ta.zip tb).map fun (va, vb) => va.flatMap fun f => vb.map fun g => f.flatMap fun x => g.map (x * ·))
  | .square _ a, orders, d, entity, points =>
    let (d, entity) := squareEntity d.total entity
    tabulate a orders d entity points
  | .parts _ ps, orders, d, entity, points => do
    let tables ← ps.attach.mapM fun ⟨p, _⟩ => tabulate p orders d entity points
    .ok ((List.range points.length).map fun q => tables.flatMap fun t => t.getD q [])
  | .selected _ a which, orders, d, entity, points => do
    let table ← tabulate a orders d entity points
    .ok (table.map fun values => which.map fun k => values.getD k [])
  | .placed _ a places, orders, d, entity, points => do
    let table ← tabulate a orders d entity points
    .ok (table.map fun values => values.map fun f => places.map fun place => match place with
      | some (k, s) => s * f.getD k 0.0
      | none => 0.0)

end Functions

end FormCompiler
