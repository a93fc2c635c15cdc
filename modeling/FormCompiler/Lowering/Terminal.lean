import FormCompiler.Form.Modified
import FormCompiler.Lowering.Context
import FormCompiler.Rewrite.Contraction

/-!
# Lowering terminals

A modified terminal becomes an expression at the points of a context: functions become sums over tables of their basis,
arguments become tables, and quantities of the reference cell become constants, one for each entity on which the points may
lie.
-/

namespace FormCompiler

namespace Terminal

def rational (rows : List Coordinates) : Build (Expr Float) :=
  Build.literal (PointSet.tableOf (rows.map fun row => row.map Polynomial.toFloat))

def rationalVector (row : Coordinates) : Build (Expr Float) :=
  Build.literal ⟨[row.length], (row.map Polynomial.toFloat).toArray⟩

/-! ## Functions -/

def argumentValue (c : Context) (v : Argument) (m : Modified Float) (shape : List Nat) : Build (Expr Float) := do
  let indices ← match c.arguments[v.number]? with
    | some is => pure is
    | none => throw .outOfRange
  let sigma ← Build.freshIndices (Shape.ofNats shape)
  let basis ← c.basis v.element
  let table ← c.select m.restriction fun entity => do
    let tables ← basis.tables m.derivatives c.points c.dim entity
    Rewrite.roundLiterals (← arrangeDerivatives tables m.derivatives) c.epsilon
  Build.tensorOver (← Build.indexedAt table (indices ++ sigma)) sigma

def nonzeros (t : Tensor Float) : Nat := t.entries.foldl (fun n x => if Scalar.isZero x then n else n + 1) 0

/-- Is the expression free of points and made from small differences only, as derivatives of affine maps are? -/
def isSmallConstant (e : Expr Float) : Bool :=
  e.freeIndices.isEmpty && (Expr.traversal [e]).all fun n => match n with
    | .literal t _ => nonzeros t ≤ 2
    | _ => true

/-- One derivative of a function: the sum of its values times a table of the basis. -/
def contract (values table : Expr Float) (indices components : List Index) : Recorded (Expr Float) := do
  let entry ← Build.indexedAt table (indices ++ components)
  let summands ← (← Recorded.split [(values, entry)]).mapM fun (variable_, e) => do
    let order ← match variable_.indexOrder? with
      | some is => pure is
      | none => throw .absent
    let sum ← Build.sumOver (← Build.product e variable_) order
    Rewrite.contraction sum
  Build.tensorOver (← Rewrite.makeSum summands) components

def coefficientValue (c : Context) (f : Coefficient) (m : Modified Float) (shape : List Nat) : Recorded (Expr Float) := do
  let values ← c.coefficient f m.restriction
  if f.element.isReal then
    Build.require (m.derivatives == 0)
    return values
  let basis ← c.basis f.element
  let perEntity ← (c.entities.mapM fun entity => do
    (← basis.tables m.derivatives c.points c.dim entity).mapM fun (alpha, table) => do
      return (alpha, ← Rewrite.roundLiterals table c.epsilon) : Build _)
  let alphas := (perEntity.headD []).map Prod.fst
  let gathered := alphas.map fun alpha => (alpha, perEntity.filterMap fun t => t.lookup alpha)
  let tables ← match c.entities with
    | [_] => pure (gathered.filterMap fun (alpha, ts) => ts.head?.map fun t => (alpha, t))
    | _ => do
      let number ← c.builder.entityNumber m.restriction
      gathered.mapM fun (alpha, ts) => do return (alpha, ← (Rewrite.select ts number : Build _))
  let indices ← Recorded.indicesOf f.element basis
  let components ← Build.freshIndices (Shape.ofNats basis.valueShape)
  let entry ← Rewrite.inlineComponent (← Build.indexedAt values indices)
  let derived ← tables.mapM fun (alpha, table) => do return (alpha, ← contract entry table indices components)
  let result ← arrangeDerivatives derived m.derivatives
  Build.require (result.shape == Shape.ofNats shape)
  Build.require (Indices.subset result.freeIndices c.points.indices)
  if isSmallConstant result then Rewrite.unrollAll result else return result

/-- The value of the coordinates of the mesh, which are a coefficient of the kernel. -/
def coordinateValue (c : Context) (d : Domain) (m : Modified Float) : Recorded (Expr Float) := do
  let f ← c.builder.coordinateField d
  let t := Term.referenceValue (Term.coefficient (K := Float) f)
  let t ← MonadExcept.ofExcept (m.construct t)
  let inner ← MonadExcept.ofExcept (Modified.analyse t)
  match inner.terminal with
  | .coefficient f => coefficientValue c f inner t.shape
  | t => Lowering.constant t

/-! ## Geometric quantities -/

def facetVolume (c : Cell) : Build (Expr Float) :=
  if c.isProduct then throw .unsupported
  else Build.number (Polynomial.toFloat (c.subcell (.plain (c.dimension - 1))).volume)

def edgeVectors (d : Domain) (c : Cell) : Build (Expr Float) := do
  if c.isProduct then
    throw (.notProvided "ReferenceCellEdgeVectors not implemented on TensorProductElements yet")
  let edges := (c.entities? (.plain 1)).getD []
  let rows := (List.range edges.length).map fun k => match c.entityVertices (.plain 1) k with
    | [a, b] => Coordinates.sub b a
    | _ => []
  Build.require ([rows.length, (rows.headD []).length] == Quantity.referenceCellEdgeVectors.shape d)
  rational rows

def referenceNormal (c : Cell) (d : Dim) (facet : Nat) : Build (Expr Float) := do
  if c.isProduct then
    if d == c.dim then throw .malformed
  else Build.require (d.total + 1 == c.dimension)
  rationalVector (c.outward d facet)

def cellCoordinate (c : Context) (side : Option Side) : Build (Expr Float) := do
  if c.isInside then c.points.expression
  else
    let table ← c.select side fun entity => do
      let rows := c.points.points.map (Functions.intoCell c.cell c.dim entity)
      let n := (rows.headD []).length
      let shape := match c.points with
        | .many ps _ => [ps.length, n]
        | .one _ => [n]
      Build.literal ⟨shape, rows.flatten.toArray⟩
    Build.partialIndexed table (c.points.indices.map .free)

def unknownQuantity {α : Type} (q : Quantity) : Build α :=
  let name := q.name
  throw (.notProvided s!"Cannot handle geometric quantity type: <class 'ufl.geometry.{name}'>")

def cellEdges (c : Cell) (corners : Expr Float) : Build (Expr Float) := do
  let e ← Build.freshIndex none
  let k ← Build.freshIndex none
  let edges ← match c.entities? (.plain 1) with
    | some edges => pure edges
    | none => throw .missing
  let rows ← edges.mapM fun ends => do
    match ends with
    | [u, v] =>
      let first ← Build.indexed corners [.fixed (Int.ofNat u), .free k]
      let minusOne ← Build.number (Scalar.ofInt (-1) : Float)
      let second ← Build.indexed corners [.fixed (Int.ofNat v), .free k]
      Build.sum first (← Build.product minusOne second)
    | _ => throw .malformed
  let tensor ← Build.listTensor [rows.length] rows
  Build.tensorOver (← Build.indexedAt tensor [e]) [e, k]

def cellCorners (c : Context) (d : Domain) (m : Modified Float) : Recorded (Expr Float) := do
  let points := c.cell.vertices.map fun p => p.map Polynomial.toFloat
  let ps ← PointSet.ofPoints points
  let value ← coordinateValue (c.within ps) d m
  let k ← Build.freshIndex none
  Build.tensorOver (← Build.indexedAt value [k]) (ps.indices ++ [k])

def quantityValue (c : Context) (q : Quantity) (d : Domain) (m : Modified Float) : Recorded (Expr Float) := do
  match q with
  | .quadratureWeight => match c.weights with
    | some ws => c.points.weights ws
    | none => throw .absent
  | .cellOrientation => c.builder.cellOrientation m.restriction
  | .referenceCellVolume => Build.number (Polynomial.toFloat c.cell.volume)
  | .referenceFacetVolume => facetVolume c.cell
  | .cellFacetJacobian =>
    Build.require (!c.isInside)
    c.select m.restriction fun entity => rational (c.cell.entityJacobian c.dim entity)
  | .referenceNormal => c.select m.restriction fun facet => referenceNormal c.cell c.dim facet
  | .referenceCellEdgeVectors => edgeVectors d c.cell
  | .cellCoordinate => cellCoordinate c m.restriction
  | .facetCoordinate =>
    Build.require (!c.isInside)
    c.points.expression
  | .spatialCoordinate => coordinateValue c d m
  | .cellOrigin => coordinateValue (c.within (.one (List.replicate c.cell.dimension 0.0))) d m
  | .cellVertices => cellCorners c d m
  | .cellEdgeVectors => cellEdges c.cell (← cellCorners c d m)
  | q => unknownQuantity q

end Terminal

end FormCompiler
