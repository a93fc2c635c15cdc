import FormCompiler.Form.Matrix
import FormCompiler.Grouping

/-!
# Geometry

Geometric quantities are written by the coordinates of the mesh, by quantities of the reference cell and by a few that are
left to be computed: the Jacobian is the derivative of the coordinates along the axes of the reference cell, normals and
lengths follow from it and from the corners. On a mesh in a space of higher dimension the determinant has the sign of the
orientation of the cell.
-/

namespace FormCompiler

namespace Geometry

variable {K : Type} [Elementary K]

open Term

/-- The derivative of the coordinates along the axes of the reference cell. -/
def jacobian (d : Domain) : Term K := referenceGradient (geometric .spatialCoordinate d)

def jacobianDeterminant (d : Domain) (j : Term K) : Labels (Term K) := do
  let det ← determinantOf j
  if d.tdim < d.gdim then return product (geometric .cellOrientation d) det else return det

/-- The derivative of the coordinates along the axes of a facet of the reference cell. -/
def facetJacobian (d : Domain) (jac : Term K) : Labels (Term K) := do
  let i ← Labels.fresh
  let j ← Labels.fresh
  let k ← Labels.fresh
  let facet := geometric .cellFacetJacobian d
  return asTensor (indexSum (product (jac.entry [i, k]) (facet.entry [k, j])) k) [i, j]

/-- The coordinates in the reference cell of a point of an affine cell. -/
def cellCoordinate (d : Domain) (jac : Term K) : Labels (Term K) := do
  let inverse ← inverseOf jac
  let i ← Labels.fresh
  let j ← Labels.fresh
  let x := geometric .spatialCoordinate d
  let origin := geometric .cellOrigin d
  let offset ← minus (x.entry [j]) (origin.entry [j])
  return asTensor (indexSum (product (inverse.entry [i, j]) offset) j) [i]

def squaredLengths (edges : Term K) : Labels (List (Term K)) := do
  let j ← Labels.fresh
  return (List.range (edges.shape.headD 0)).map fun e =>
    let entry := edges.indexed [.fixed e, .label j]
    indexSum (product entry entry) j

/-- The smallest or the largest of several scalars. -/
def extremum (op : Op) : List (Term K) → Term K
  | [] => int 0
  | t :: ts => ts.foldl (fun a b => .node op [a, b]) t

/-- The length of the shortest or longest of several edges. -/
def extremeLength (op : Op) (edges : Term K) : Labels (Term K) := do
  return function .sqrt (extremum op (← squaredLengths edges))

/-- Has the coordinate field a degree higher than one? -/
def isBent (d : Domain) : Bool := Domain.plainDegree? d.coordinates != some 1 && !d.cell.isProduct

/-- The radius of the sphere through the corners of a simplex. -/
def circumradius (d : Domain) : Labels (Term K) := do
  let volume := geometric .cellVolume d
  if d.cell == .interval then return product half volume
  let lengths := (← squaredLengths (geometric .cellEdgeVectors d)).map (function .sqrt)
  let l := fun (k : Nat) => lengths.getD k (int 0)
  if d.cell == .triangle then return division (product (product (l 0) (l 1)) (l 2)) (product (int 4) volume)
  let a := product (l 3) (l 2)
  let b := product (l 4) (l 1)
  let c := product (l 5) (l 0)
  let s := division (sum (sum a b) c) (int 2)
  let heron := product (product (product s (← minus s a)) (← minus s b)) (← minus s c)
  return division (function .sqrt heron) (product (int 6) volume)

def cornerDistance (d : Domain) : Labels (Term K) := do
  let corners := geometric (K := K) .cellVertices d
  let j ← Labels.fresh
  let squares ← (pairs (List.range (corners.shape.headD 0))).mapM fun (u, v) => do
    let gap ← minus (corners.indexed [.fixed u, .label j]) (corners.indexed [.fixed v, .label j])
    return indexSum (product gap gap) j
  return function .sqrt (extremum .maximum squares)

/-- The normal of a cell in a space of one dimension more. -/
def cellNormal (d : Domain) (jac : Term K) : Labels (Term K) := do
  let direction ← if d.tdim == 2 then do
      let s ← column jac 0
      let t ← column jac 1
      crossProduct s t
    else do
      pure (listTensor [← negated (jac.component [1, 0]), jac.component [0, 0]])
  dividedBy (← scaled (geometric .cellOrientation d) direction) (← norm direction)

/-- The normal of a facet, which points out of the cell. -/
def facetNormal (d : Domain) (jac : Term K) : Labels (Term K) := do
  let reference := geometric (K := K) .referenceNormal d
  if d.tdim == 1 then
    let direction ← column jac 0
    let length ← if d.gdim == 1 then pure (abs (direction.component [0])) else norm direction
    dividedBy (← scaled (reference.component [0]) direction) length
  else
    let inverse ← inverseOf jac
    let i ← Labels.fresh
    let j ← Labels.fresh
    let direction := asTensor (indexSum (product (inverse.entry [j, i]) (reference.entry [j])) j) [i]
    dividedBy direction (← norm direction)

/-- The length of the shortest or the longest edge of a cell. -/
def extremeEdge (op : Op) (d : Domain) : Labels (Term K) :=
  if d.cell == .interval then return geometric .cellVolume d
  else extremeLength op (geometric .cellEdgeVectors d)

/-- A quantity in terms of others; `preserve` says which are left as they are. -/
def lower (preserve : Quantity → Bool) (q : Quantity) (d : Domain) : Labels (Term K) := do
  let whole := geometric q d
  if preserve q then return whole
  let jac := if preserve .jacobian then geometric .jacobian d else jacobian d
  match q with
  | .jacobian => return jac
  | .jacobianInverse => inverseOf jac
  | .jacobianDeterminant => jacobianDeterminant d jac
  | .facetJacobian => facetJacobian d jac
  | .facetJacobianInverse => do inverseOf (← facetJacobian d jac)
  | .facetJacobianDeterminant => do determinantOf (← facetJacobian d jac)
  | .cellCoordinate => cellCoordinate d jac
  | .circumradius => circumradius d
  | .cellDiameter =>
    if isBent d then return whole
    else if d.isAffine then extremeEdge .maximum d
    else cornerDistance d
  | .minCellEdgeLength => if isBent d then return whole else extremeEdge .minimum d
  | .maxCellEdgeLength => if isBent d then return whole else extremeEdge .maximum d
  | .minFacetEdgeLength =>
    if isBent d then return whole else extremeLength .minimum (geometric .facetEdgeVectors d)
  | .maxFacetEdgeLength =>
    if isBent d then return whole else extremeLength .maximum (geometric .facetEdgeVectors d)
  | .cellNormal => cellNormal d jac
  | .facetNormal => facetNormal d jac
  | _ => return whole

end Geometry

namespace Term

variable {K : Type} [Elementary K]

def geometryStep (preserve : Quantity → Bool) : Step K (StateT (Store K (Term K)) Forming) (Term K) := fun t self =>
  match t with
  | .leaf (.geometric q d) _ => (liftM (Geometry.lower (K := K) preserve q d) : StateT (Store K (Term K)) Forming (Term K))
  | .leaf u k => return .leaf u k
  | .node op args => reuse (.node op args) self

def lowerGeometry (preserve : Quantity → Bool) (t : Term K) : Forming (Term K) :=
  (memoise (m := Forming) (geometryStep preserve) t).run' ∅

end Term

end FormCompiler
