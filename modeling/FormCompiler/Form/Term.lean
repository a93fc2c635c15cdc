import FormCompiler.Element.Basic
import FormCompiler.Elementary

/-!
# Terms of the form language

A term denotes a tensor field on a cell: functions of finite element spaces, geometric quantities and numbers, joined by
operators of tensor algebra, of calculus, and of restriction to one side of a facet. A term is an operator with its
operands; a terminal has none. Free indices are known by a number, and every term keeps a fingerprint, its shape and its
free indices with their extents, computed once when it is made.
-/

namespace FormCompiler

/-- A mesh: the cell of which its cells are images, the dimension of the space around it, and the element of its
coordinate field. -/
structure Domain where
  cell : Cell
  gdim : Nat
  coordinates : Element
  deriving DecidableEq, Hashable, Repr, Inhabited

namespace Domain

def tdim (d : Domain) : Nat := d.cell.dimension

def plainDegree? : Element → Option Nat
  | .simple _ _ degree _ => some degree
  | .vector p _ => plainDegree? p
  | .tensor p _ _ => plainDegree? p
  | _ => none

/-- Are the cells images of a simplex under affine maps? -/
def isAffine (d : Domain) : Bool := d.cell.isSimplex && plainDegree? d.coordinates == some 1

end Domain

/-- A given function of a finite element space. -/
structure Coefficient where
  count : Nat
  element : Element
  domain : Domain
  deriving DecidableEq, Hashable, Repr, Inhabited

/-- A function that runs through a finite element space. -/
structure Argument where
  number : Nat
  element : Element
  domain : Domain
  deriving DecidableEq, Hashable, Repr, Inhabited

inductive Side where
  | plus | minus
  deriving DecidableEq, Hashable, Repr, Inhabited

inductive Quantity where
  | spatialCoordinate | cellCoordinate | facetCoordinate
  | cellOrigin | facetOrigin | cellFacetOrigin
  | jacobian | facetJacobian | cellFacetJacobian
  | jacobianDeterminant | facetJacobianDeterminant | cellFacetJacobianDeterminant
  | jacobianInverse | facetJacobianInverse | cellFacetJacobianInverse
  | referenceCellEdgeVectors | referenceFacetEdgeVectors
  | cellVertices | cellEdgeVectors | facetEdgeVectors
  | facetNormal | cellNormal | referenceNormal
  | referenceCellVolume | referenceFacetVolume
  | cellVolume | circumradius | cellDiameter | facetArea
  | minCellEdgeLength | maxCellEdgeLength | minFacetEdgeLength | maxFacetEdgeLength
  | cellOrientation | facetOrientation | quadratureWeight
  deriving DecidableEq, Hashable, Repr, Inhabited

namespace Quantity

def table : List (Quantity × String) :=
  [(.spatialCoordinate, "SpatialCoordinate"), (.cellCoordinate, "CellCoordinate"),
   (.facetCoordinate, "FacetCoordinate"), (.cellOrigin, "CellOrigin"), (.facetOrigin, "FacetOrigin"),
   (.cellFacetOrigin, "CellFacetOrigin"), (.jacobian, "Jacobian"), (.facetJacobian, "FacetJacobian"),
   (.cellFacetJacobian, "CellFacetJacobian"), (.jacobianDeterminant, "JacobianDeterminant"),
   (.facetJacobianDeterminant, "FacetJacobianDeterminant"),
   (.cellFacetJacobianDeterminant, "CellFacetJacobianDeterminant"), (.jacobianInverse, "JacobianInverse"),
   (.facetJacobianInverse, "FacetJacobianInverse"), (.cellFacetJacobianInverse, "CellFacetJacobianInverse"),
   (.referenceCellEdgeVectors, "ReferenceCellEdgeVectors"), (.referenceFacetEdgeVectors, "ReferenceFacetEdgeVectors"),
   (.cellVertices, "CellVertices"), (.cellEdgeVectors, "CellEdgeVectors"), (.facetEdgeVectors, "FacetEdgeVectors"),
   (.facetNormal, "FacetNormal"), (.cellNormal, "CellNormal"), (.referenceNormal, "ReferenceNormal"),
   (.referenceCellVolume, "ReferenceCellVolume"), (.referenceFacetVolume, "ReferenceFacetVolume"),
   (.cellVolume, "CellVolume"), (.circumradius, "Circumradius"), (.cellDiameter, "CellDiameter"),
   (.facetArea, "FacetArea"), (.minCellEdgeLength, "MinCellEdgeLength"), (.maxCellEdgeLength, "MaxCellEdgeLength"),
   (.minFacetEdgeLength, "MinFacetEdgeLength"), (.maxFacetEdgeLength, "MaxFacetEdgeLength"),
   (.cellOrientation, "CellOrientation"), (.facetOrientation, "FacetOrientation"),
   (.quadratureWeight, "QuadratureWeight")]

def name (q : Quantity) : String := ((table.find? fun (r, _) => r == q).map Prod.snd).getD ""

def ofName? (s : String) : Option Quantity := (table.find? fun (_, n) => n == s).map Prod.fst

def edgeCount (c : Cell) : Nat :=
  match c with
  | .product _ => (c.census.filterMap fun (d, n) => if d.total == 1 then some n else none).foldl (· + ·) 0
  | c => ((c.entities? (.plain 1)).getD []).length

def shape (q : Quantity) (d : Domain) : List Nat :=
  let g := d.gdim
  let t := d.tdim
  match q with
  | .spatialCoordinate | .cellOrigin | .facetOrigin | .facetNormal | .cellNormal => [g]
  | .cellCoordinate | .cellFacetOrigin | .referenceNormal => [t]
  | .facetCoordinate => [t - 1]
  | .jacobian => [g, t]
  | .facetJacobian => [g, t - 1]
  | .cellFacetJacobian => [t, t - 1]
  | .jacobianInverse => [t, g]
  | .facetJacobianInverse => [t - 1, g]
  | .cellFacetJacobianInverse => [t - 1, t]
  | .referenceCellEdgeVectors => [edgeCount d.cell, t]
  | .cellEdgeVectors => [edgeCount d.cell, g]
  | .referenceFacetEdgeVectors => [edgeCount (Cell.simplex (t - 1)), t]
  | .facetEdgeVectors => [edgeCount (Cell.simplex (t - 1)), g]
  | .cellVertices => [d.cell.vertices.length, g]
  | _ => []

def isCellwiseConstant (q : Quantity) (d : Domain) : Bool :=
  match q with
  | .spatialCoordinate | .cellCoordinate => d.tdim == 0
  | .facetCoordinate => d.tdim ≤ 1
  | .jacobian | .facetJacobian | .jacobianDeterminant | .facetJacobianDeterminant | .jacobianInverse
  | .facetJacobianInverse => d.isAffine
  | .facetNormal => Domain.plainDegree? d.coordinates == some 1 && d.cell.hasSimplexFacets
  | .cellNormal => d.isAffine
  | .quadratureWeight => false
  | _ => true

end Quantity

inductive Bessel where
  | first | second | modifiedFirst | modifiedSecond
  deriving DecidableEq, Hashable, Repr, Inhabited

/-- A position in a multi-index of a term: fixed, or a free index. -/
inductive Place where
  | fixed (n : Nat)
  | label (i : Nat)
  deriving DecidableEq, Hashable, Repr, Inhabited

/-- Free indices with their extents, in ascending order. -/
abbrev FreeIndices := List (Nat × Nat)

inductive Terminal (K : Type) where
  | zero (shape : List Nat) (free : FreeIndices)
  | number (x : K)
  | identity (n : Nat)
  | coefficient (f : Coefficient)
  | argument (v : Argument)
  | geometric (q : Quantity) (d : Domain)
  deriving Repr, Inhabited

inductive Op where
  | sum | product | division | power
  | abs
  /-- The complex conjugate, which is the operand itself in real arithmetic. -/
  | conjugate
  | function (f : MathFunction)
  | bessel (kind : Bessel)
  | arctangent
  | minimum | maximum
  | compare (c : Comparison)
  | conjunction | disjunction | negation
  | conditional
  | indexed (places : List Place)
  | indexSum (i extent : Nat)
  | componentTensor (binders : List (Nat × Nat))
  | listTensor
  | restricted (side : Side)
  | cellAverage | facetAverage
  /-- A term under a name of its own. -/
  | variable (label : Nat)
  | gradient | divergence | rotation
  /-- The function on the reference cell. -/
  | referenceValue
  | referenceGradient | referenceDivergence | referenceRotation
  | transposed | trace | determinant | inverse | symmetric
  | inner | dot | outer | cross
  deriving DecidableEq, Hashable, Repr, Inhabited

namespace FreeIndices

/-- Put an index in its place. -/
def insert (i : Nat × Nat) : FreeIndices → FreeIndices
  | [] => [i]
  | j :: js => if i.1 < j.1 then i :: j :: js else if i.1 == j.1 then j :: js else j :: insert i js

def union (a b : FreeIndices) : FreeIndices := a.foldl (fun acc i => insert i acc) b

def without (a : FreeIndices) (bound : List Nat) : FreeIndices := a.filter fun i => !bound.contains i.1

end FreeIndices

namespace Terminal

variable {K : Type}

def shape : Terminal K → List Nat
  | .zero s _ => s
  | .number _ => []
  | .identity n => [n, n]
  | .coefficient f => f.element.valueShape f.domain.gdim
  | .argument v => v.element.valueShape v.domain.gdim
  | .geometric q d => q.shape d

/-- The extents of the values on the reference cell. -/
def referenceShape : Terminal K → List Nat
  | .coefficient f => f.element.referenceShape
  | .argument v => v.element.referenceShape
  | t => t.shape

def free : Terminal K → FreeIndices
  | .zero _ f => f
  | _ => []

def domain? : Terminal K → Option Domain
  | .coefficient f => some f.domain
  | .argument v => some v.domain
  | .geometric _ d => some d
  | _ => none

/-- Is the terminal a zero, a number or a unit matrix? -/
def isConstantValue : Terminal K → Bool
  | .zero _ _ | .number _ | .identity _ => true
  | _ => false

def isCellwiseConstant : Terminal K → Bool
  | .coefficient f => f.element.isCellwiseConstant
  | .argument _ => false
  | .geometric q d => q.isCellwiseConstant d
  | _ => true

variable [Scalar K]

def digest : Terminal K → UInt64
  | .zero s f => mixHash 2 (mixHash (hash s) (hash f))
  | .number x => mixHash 3 (Scalar.digest x)
  | .identity n => mixHash 5 (hash n)
  | .coefficient f => mixHash 7 (hash f.count)
  | .argument v => mixHash 11 (hash v.number)
  | .geometric q _ => mixHash 13 (hash q)

def same : Terminal K → Terminal K → Bool
  | .zero s f, .zero s' f' => s == s' && f == f'
  | .number x, .number y => Scalar.same x y
  | .identity m, .identity n => m == n
  | .coefficient f, .coefficient g => f == g
  | .argument u, .argument v => u == v
  | .geometric q d, .geometric r e => q == r && d == e
  | _, _ => false

theorem same_self (t : Terminal K) : t.same t = true := by
  cases t <;> simp [same, Scalar.same_self]

end Terminal

namespace Op

/-- Does the operator modify a terminal, so that the whole can be evaluated at once? -/
def isModifier : Op → Bool
  | .restricted _ | .gradient | .referenceValue | .referenceGradient | .referenceDivergence | .referenceRotation
  | .indexed _ => true
  | _ => false

/-- The extents of the curl of a field with the given extents. -/
def curlShape : List Nat → List Nat
  | [] => [2]
  | [2] => []
  | s => s

/-- The shape of a term from the shapes of its operands and the mesh on which they live. -/
def shape (op : Op) (domain : Option Domain) (args : List (List Nat)) : List Nat :=
  let a := args.headD []
  let b := (args.drop 1).headD []
  match op with
  | .sum | .abs | .conjugate | .restricted _ | .cellAverage | .facetAverage | .variable _ | .symmetric | .inverse
  | .indexSum _ _ | .power => a
  | .conditional => b
  | .componentTensor binders => binders.map Prod.snd
  | .listTensor => args.length :: a
  | .gradient => a ++ [(domain.map (·.gdim)).getD 0]
  | .referenceGradient => a ++ [(domain.map (·.tdim)).getD 0]
  | .divergence | .referenceDivergence => a.dropLast
  | .rotation | .referenceRotation => curlShape a
  | .transposed => a.reverse
  | .outer => a ++ b
  | .dot => a.dropLast ++ b.drop 1
  | .cross => [3]
  | .indexed places => a.drop places.length
  | .referenceValue => a
  | _ => []

/-- The free indices of a term from those of its operands and the shape of the first. -/
def free (op : Op) (args : List FreeIndices) (shape : List Nat) : FreeIndices :=
  let below := args.foldr FreeIndices.union []
  match op with
  | .indexed places => FreeIndices.union ((places.zip shape).filterMap fun (p, n) => match p with
      | .label i => some (i, n)
      | .fixed _ => none) below
  | .indexSum i _ => below.without [i]
  | .componentTensor binders => below.without (binders.map Prod.fst)
  | _ => below

def name : Op → String
  | .sum => "Sum"
  | .product => "Product"
  | .division => "Division"
  | .power => "Power"
  | .abs => "Abs"
  | .conjugate => "Conj"
  | .function .sqrt => "Sqrt"
  | .function .exp => "Exp"
  | .function .ln => "Ln"
  | .function .cos => "Cos"
  | .function .sin => "Sin"
  | .function .tan => "Tan"
  | .function .cosh => "Cosh"
  | .function .sinh => "Sinh"
  | .function .tanh => "Tanh"
  | .function .acos => "Acos"
  | .function .asin => "Asin"
  | .function .atan => "Atan"
  | .function .erf => "Erf"
  | .bessel .first => "BesselJ"
  | .bessel .second => "BesselY"
  | .bessel .modifiedFirst => "BesselI"
  | .bessel .modifiedSecond => "BesselK"
  | .arctangent => "Atan2"
  | .minimum => "MinValue"
  | .maximum => "MaxValue"
  | .compare .less => "LT"
  | .compare .greater => "GT"
  | .compare .lessEq => "LE"
  | .compare .greaterEq => "GE"
  | .compare .equal => "EQ"
  | .compare .notEqual => "NE"
  | .conjunction => "AndCondition"
  | .disjunction => "OrCondition"
  | .negation => "NotCondition"
  | .conditional => "Conditional"
  | .indexed _ => "Indexed"
  | .indexSum _ _ => "IndexSum"
  | .componentTensor _ => "ComponentTensor"
  | .listTensor => "ListTensor"
  | .restricted .plus => "PositiveRestricted"
  | .restricted .minus => "NegativeRestricted"
  | .cellAverage => "CellAvg"
  | .facetAverage => "FacetAvg"
  | .variable _ => "Variable"
  | .gradient => "Grad"
  | .divergence => "Div"
  | .rotation => "Curl"
  | .referenceValue => "ReferenceValue"
  | .referenceGradient => "ReferenceGrad"
  | .referenceDivergence => "ReferenceDiv"
  | .referenceRotation => "ReferenceCurl"
  | .transposed => "Transposed"
  | .trace => "Trace"
  | .determinant => "Determinant"
  | .inverse => "Inverse"
  | .symmetric => "Sym"
  | .inner => "Inner"
  | .dot => "Dot"
  | .outer => "Outer"
  | .cross => "Cross"

end Op

/-- Terms over numbers `K`. -/
inductive Term (K : Type) where
  | leaf (t : Terminal K) (digest : UInt64)
  | node (op : Op) (args : List (Term K))
with
  @[computed_field] key : (K : Type) → Term K → UInt64
    | _, .leaf _ digest => digest
    | K, .node op args => mixHash (hash op) (hash (args.map (key K)))
  @[computed_field] domain : (K : Type) → Term K → Option Domain
    | _, .leaf t _ => t.domain?
    | K, .node _ args => (args.filterMap (domain K)).head?
  @[computed_field] isCellwiseConstant : (K : Type) → Term K → Bool
    | _, .leaf t _ => t.isCellwiseConstant
    | K, .node _ args => (args.map (isCellwiseConstant K)).all id
  /-- The extents of the values on the reference cell, for a function. -/
  @[computed_field] referenceShape : (K : Type) → Term K → List Nat
    | _, .leaf t _ => t.referenceShape
    | _, .node _ _ => []
  @[computed_field] shape : (K : Type) → Term K → List Nat
    | _, .leaf t _ => t.shape
    | K, .node op args =>
      if op == .referenceValue then (args.map (referenceShape K)).headD []
      else op.shape ((args.filterMap (domain K)).head?) (args.map (shape K))
  @[computed_field] free : (K : Type) → Term K → FreeIndices
    | _, .leaf t _ => t.free
    | K, .node op args => op.free (args.map (free K)) ((args.map (shape K)).headD [])

end FormCompiler
