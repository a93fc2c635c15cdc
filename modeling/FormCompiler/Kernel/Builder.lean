import FormCompiler.Element.Basis
import FormCompiler.Expr.Traversal
import FormCompiler.Form.Integral
import FormCompiler.Form.Term
import FormCompiler.Kernel.Layout

/-!
# Building kernels

A builder gathers what a kernel is given: the element tensor, the coordinates, the coefficients, the numbers of the facets
and the orientations of the cells. It says which expression stands for each, and in the end puts the arguments and the code
together.
-/

namespace FormCompiler

inductive Piece (K : Type) where
  | text (s : String)
  | statement (s : Code.Statement K)

structure Kernel (K : Type) where
  name : String
  args : List (Option (Code.Declaration K))
  body : List (Piece K)

structure Builder (K : Type) where
  convention : Convention
  integralType : IntegralType
  interior : Bool
  /-- The numbers of the entities, by side; none if the kernel does not know them. -/
  entityNumbers : Option (List (Option Side × Slot (Expr K)))
  orientations : List (Expr K)
  before : List (Piece K) := []
  after : List (Piece K) := []
  coordinateFields : List (Domain × Coefficient) := []
  values : List (Coefficient × Sided (Expr K)) := []
  parts : List (Coefficient × List Coefficient) := []
  elementTensor : Option (Code.Declaration K) := none
  coordinateArgs : Option (List (Code.Declaration K)) := none
  coefficientArgs : Option (List (Code.Declaration K)) := none
  oriented : Bool := false
  coefficients : List Coefficient := []

namespace Builder

open Code (Declaration)

variable {K : Type} [Scalar K]

def orientationVariables (convention : Convention) (interior : Bool) : Build (List (Expr K)) := do
  match convention, interior with
  | .separate, true =>
    let all : Expr K := .var "cell_orientations" [some 2]
    return [← Build.indexed all [.fixed 0], ← Build.indexed all [.fixed 1]]
  | .separate, false => return [← Build.indexed (.var "cell_orientations" [some 1]) [.fixed 0]]
  | .packed, true => return [.var "cell_orientation_0" [], .var "cell_orientation_1" []]
  | .packed, false => return [.var "cell_orientation" []]

/-- The number of the facet or vertex in each cell. -/
def entityVariables (convention : Convention) (t : IntegralType) :
    Build (Option (List (Option Side × Slot (Expr K)))) := do
  let facet := fun (n : Int) (k : Int) => do
    Build.runtimeSlot (← Build.indexed (.var "facet" [some n] : Expr K) [.fixed k])
  let scalar := fun (name : String) => Build.runtimeSlot (.var name [] : Expr K)
  match convention, t with
  | .separate, .exteriorFacet | .separate, .exteriorFacetVert => return some [(none, ← facet 1 0)]
  | .separate, .interiorFacet | .separate, .interiorFacetVert =>
    return some [(some .plus, ← facet 2 0), (some .minus, ← facet 2 1)]
  | .separate, .interiorFacetHoriz => return some [(some .plus, .fixed 1), (some .minus, .fixed 0)]
  | .packed, .exteriorFacet => return some [(none, ← scalar "facet")]
  | .packed, .interiorFacet => return some [(some .plus, ← scalar "facet_0"), (some .minus, ← scalar "facet_1")]
  | .packed, .vertex => return some [(none, ← scalar "vertex")]
  | _, _ => return none

def new (convention : Convention) (t : IntegralType) : Build (Builder K) := do
  let orientations ← orientationVariables convention t.isInterior
  let entityNumbers ← entityVariables convention t
  return { convention, integralType := t, interior := t.isInterior, entityNumbers, orientations
           coefficientArgs := if convention == .separate then some [] else none }

def forExpression : Build (Builder K) := do
  let orientations ← orientationVariables .separate false
  return { convention := .separate, integralType := .other "", interior := false, entityNumbers := none, orientations }

/-- Are components of vectors numbered after functions? -/
def innermost (b : Builder K) : Bool := b.convention == .separate

/-! ## What expressions stand for -/

def coordinateField (b : Builder K) (d : Domain) : Build Coefficient :=
  match b.coordinateFields.lookup d with
  | some f => return f
  | none => throw .missing

def coefficient (b : Builder K) (f : Coefficient) (side : Option Side) : Build (Expr K) :=
  match b.values.lookup f with
  | none => throw .missing
  | some (.one e) => return e
  | some (.two plus minus) => match side with
    | some .plus => return plus
    | some .minus => return minus
    | none => throw .missing

/-- The orientation of the cell on a side: one, or minus one, from a number that is zero or one. -/
def cellOrientation (b : Builder K) (side : Option Side) : Build (Expr K) := do
  let k := if side == some .minus then 1 else 0
  match b.orientations[k]? with
  | none => throw .outOfRange
  | some given =>
    let equals := fun (e : Expr K) => Build.binary (.compare .equal) given e
    let first ← equals (← Build.number Scalar.one)
    let minusOne ← Build.number (Scalar.ofInt (-1))
    let second ← equals Build.zero
    let one ← Build.number Scalar.one
    let undefined ← Build.number (Scalar.div Scalar.zero Scalar.zero)
    Build.conditional first minusOne (← Build.conditional second one undefined)

def entityTable (b : Builder K) : Build (List (Option Side × Slot (Expr K))) :=
  match b.entityNumbers with
  | some table => return table
  | none => throw .absent

def entityNumber (b : Builder K) (side : Option Side) : Build (Slot (Expr K)) := do
  match (← b.entityTable).lookup side with
  | some s => return s
  | none => throw .missing

/-- Do expressions use the orientation of cells? The packed convention always gives it. -/
def needsOrientations (b : Builder K) (es : List (Expr K)) : Bool :=
  b.convention == .packed || (Expr.traversal es).any fun e => match e with
    | .var name _ => name == "cell_orientations"
    | _ => false

/-! ## Gathering -/

/-- The extents of the indices of an element's basis. -/
def indexShape (bases : Bases) (e : Element) : Build (List Nat) := do
  return (← MonadExcept.ofExcept (bases e)).indexShape

def separateValues (bases : Bases) (name : String) (f : Coefficient) (interior : Bool) :
    Build (Sided (Expr K)) := do
  if f.element.isReal then return .one (← Layout.realCoefficient name (f.element.valueShape f.domain.gdim))
  else Layout.coefficient name (← indexShape bases f.element) interior

def packedValues (bases : Bases) (name : String) (row : Nat) (f : Coefficient) (interior : Bool) :
    Build (Sided (Expr K)) := do
  if f.element.isReal then return .one (← Layout.realCoefficientInRow name row (f.element.valueShape f.domain.gdim))
  else Layout.coefficientInRow name row (← indexShape bases f.element) interior

def addCoefficient (b : Builder K) (bases : Bases) (name : String) (f : Coefficient) :
    Build (Builder K × Declaration K) := do
  let values ← separateValues bases name f b.interior
  return ({ b with values := (f, values) :: b.values.filter (fun p => p.1 != f) }, Layout.inputArray name)

/-- The element tensor for arguments with the given index shapes, and its entries at the indices of the arguments. -/
def setArguments (b : Builder K) (shapes : List (List Nat)) (indices : List (Slot (Expr K))) :
    Build (Builder K × List (Expr K)) := do
  match b.convention with
  | .separate =>
    let (declaration, entries) ← Layout.elementTensor shapes indices b.interior
    return ({ b with elementTensor := some declaration }, entries)
  | .packed =>
    let (declaration, clear, entries) ← Layout.flatElementTensor shapes indices b.interior
    return ({ b with elementTensor := some declaration, before := b.before ++ clear.map .text }, entries)

def coordinatesOf (d : Domain) : Coefficient := ⟨0, d.coordinates, d⟩

def setCoordinates (b : Builder K) (bases : Bases) (d : Domain) : Build (Builder K) := do
  let f := coordinatesOf d
  let b := { b with coordinateFields := (d, f) :: b.coordinateFields.filter fun p => p.1 != d }
  match b.convention with
  | .separate =>
    let (b, declaration) ← b.addCoefficient bases "coords" f
    return { b with coordinateArgs := some [declaration] }
  | .packed =>
    match ← MonadExcept.ofExcept (bases f.element) with
    | .tensor base shape _ =>
      let (declarations, values) ← Layout.coordinates "coordinate_dofs" base.indexShape shape b.interior
      return { b with coordinateArgs := some declarations
                      values := (f, values) :: b.values.filter fun p => p.1 != f }
    | _ => throw (.requirement "")

def partOf (f : Coefficient) (k : Nat) (e : Element) : Coefficient := ⟨10 * f.count + k, e, f.domain⟩

def partsOf (f : Coefficient) : List Coefficient := f.element.parts.zipIdx.map fun (e, k) => partOf f k e

/-- Take in the coefficients of a form that the integral uses. -/
def setCoefficients (b : Builder K) (bases : Bases) (all : List Coefficient)
    (enabled : List Bool) : Build (Builder K × List Nat) := do
  let used : List (Nat × Coefficient) := ((all.zip enabled).zipIdx.filter fun p => p.1.2).map fun p => (p.2, p.1.1)
  match b.convention with
  | .separate =>
    let mixed := used.filter fun (_, f) => f.element.isMixed
    let flat := used.flatMap fun (_, f) => if f.element.isMixed then partsOf f else [f]
    let mut b : Builder K :=
      { b with parts := mixed.map (fun (_, f) => (f, partsOf f)) ++ b.parts, coefficients := flat }
    let mut args := #[]
    for (f, k) in flat.zipIdx do
      let (next, declaration) ← b.addCoefficient bases s!"w_{k}" f
      b := next
      args := args.push declaration
    return ({ b with coefficientArgs := b.coefficientArgs.map (· ++ args.toList) }, used.map Prod.fst)
  | .packed =>
    let rows : Declaration K :=
      { type := "double", name := "w", qualifiers := some ["const"], pointers := some [["const"], []] }
    let mut b : Builder K := { b with coefficientArgs := some [rows], coefficients := used.map Prod.snd }
    for (k, f) in used do
      let values ← packedValues bases "w" k f b.interior
      b := { b with values := (f, values) :: b.values.filter fun p => p.1 != f }
    return (b, used.map Prod.fst)

/-- Take in the coefficients of an expression; parts of a mixed one are numbered under it. -/
def setExpressionCoefficients (b : Builder K) (bases : Bases) (all : List Coefficient) :
    Build (Builder K) := do
  let named : List (String × Coefficient) := all.zipIdx.flatMap fun (f, i) =>
    if f.element.isMixed then (partsOf f).zipIdx.map fun (g, j) => (s!"w_{i}_{j}", g) else [(s!"w_{i}", f)]
  let mixed := all.filter fun f => f.element.isMixed
  let mut b : Builder K := { b with parts := mixed.map fun f => (f, partsOf f), coefficients := named.map Prod.snd }
  let mut args := #[]
  for (name, f) in named do
    let (next, declaration) ← b.addCoefficient bases name f
    b := next
    args := args.push declaration
  return { b with coefficientArgs := some args.toList }

/-! ## The kernel -/

def orientationArray : Declaration K :=
  { type := "int", name := "cell_orientations", qualifiers := some ["const"], pointers := some [["restrict"]] }

def scalarArg (type name : String) : Declaration K := { type := type, name := name }

def separateArgs (b : Builder K) : List (Option (Declaration K)) :=
  let facet := fun (n : Int) =>
    some ({ type := "unsigned int", name := "facet", rank := [.fixed n], qualifiers := some ["const"] } : Declaration K)
  let facets := match b.integralType with
    | .exteriorFacet | .exteriorFacetVert => [facet 1]
    | .interiorFacet | .interiorFacetVert => [facet 2]
    | _ => []
  [b.elementTensor, b.coordinateArgs.bind List.head?] ++ (if b.oriented then [some orientationArray] else []) ++
    (b.coefficientArgs.getD []).map some ++ facets

def packedArgs (b : Builder K) : Build (List (Option (Declaration K))) := do
  match b.coefficientArgs, b.coordinateArgs with
  | some coefficients, some coordinates =>
    let number := fun (name : String) => scalarArg "std::size_t" name
    let entities := match b.integralType with
      | .exteriorFacet => [number "facet"]
      | .interiorFacet => [number "facet_0", number "facet_1"]
      | .vertex => [number "vertex"]
      | _ => []
    let orientations := if b.interior then [scalarArg "int" "cell_orientation_0", scalarArg "int" "cell_orientation_1"]
      else [scalarArg "int" "cell_orientation"]
    return b.elementTensor :: (coefficients ++ coordinates ++ entities ++ orientations).map some
  | _, _ => throw .unsupported

/-- The kernel with its body between what goes before and after it. -/
def assemble (b : Builder K) (name : String) (args : List (Option (Declaration K))) (body : List (Piece K)) : Kernel K :=
  ⟨name, args, b.before ++ body ++ b.after⟩

def kernel (b : Builder K) (name : String) (body : List (Piece K)) : Build (Kernel K) := do
  match b.convention with
  | .separate => return b.assemble name b.separateArgs body
  | .packed => return b.assemble name (← b.packedArgs) body

/-- The kernel of an integral that vanishes: none is needed in the separate convention, in the packed one it clears the
element tensor. -/
def emptyKernel (b : Builder K) (name : String) : Build (Option (Kernel K)) := do
  match b.convention with
  | .separate => return none
  | .packed => return some (← b.kernel name [])

/-- The kernel of an expression, which first has the argument in which the values are returned. -/
def expressionKernel (b : Builder K) (result : Declaration K) (body : List (Piece K)) : Build (Kernel K) := do
  match b.coefficientArgs with
  | none => throw .absent
  | some args =>
    let orientations := if b.oriented then [orientationArray] else []
    return b.assemble "expression_kernel" ((result :: orientations ++ args).map some) body

end Builder

end FormCompiler
