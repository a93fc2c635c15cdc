import FormCompiler.Form.Degree
import FormCompiler.Form.Derivative
import FormCompiler.Form.Geometry
import FormCompiler.Form.Integral
import FormCompiler.Form.Pullback
import FormCompiler.Form.Sides

/-!
# Preparing terms

Before a term is lowered to expressions it is written in index notation, its derivatives are carried out, its functions and
its geometry are written on the reference cell. An integrand is also multiplied by the ratio of volumes and the weight of the
point.
-/

namespace FormCompiler

namespace Term

variable {K : Type} [Elementary K]

def isIntegrated (q : Quantity) : Bool := q == .cellVolume || q == .facetArea

/-- The quantities that are left as they are in an integral of the given kind. -/
def preservedIn (type : IntegralType) (q : Quantity) : Bool :=
  isIntegrated q || match type with
    | .vertex => q == .spatialCoordinate || q == .jacobian
    | _ => q == .cellCoordinate

/-- Lower the geometry, and carry out the derivatives that this brings about, and again. -/
def lowerAll (preserve : Quantity → Bool) (t : Term K) : Forming (Term K) := do
  let t ← lowerGeometry preserve t
  let t ← applyDerivatives t
  let t ← lowerGeometry preserve t
  applyDerivatives t

def prepare (t : Term K) : Forming (Term K) := do
  let t ← lowerAlgebra t
  let t ← applyDerivatives t
  let t ← pullBackFunctions t
  lowerAll isIntegrated t

/-- The ratio of volumes in an integral times the weight of the point. -/
def measure (type : IntegralType) (d : Domain) : Term K :=
  let weight := geometric .quadratureWeight d
  let facet := geometric .facetJacobianDeterminant d
  match type with
  | .cell => product (abs (geometric .jacobianDeterminant d)) weight
  | .vertex => int 1
  | type =>
    if d.tdim ≤ 1 then weight
    else if type.isInterior then product (restricted .plus facet) weight
    else product facet weight

/-- The integrand of an integral in index notation, with its derivatives carried out, on the reference cell. -/
def prepareIntegrand (type : IntegralType) (d : Domain) (t : Term K) : Forming (Term K) := do
  let t ← pullBackFunctions t
  let t ← lowerAll (preservedIn type) (product t (measure type d))
  return if type.isInterior then carrySides t else t

def measureDegree (type : IntegralType) (d : Domain) : Forming Degree := do
  let quantity : Option Quantity := match type with
    | .cell => some .jacobianDeterminant
    | .vertex => none
    | _ => if d.tdim ≤ 1 then none else some .facetJacobianDeterminant
  match quantity with
  | none => return .total 0
  | some q => return (← lowerGeometry (fun _ => false) (geometric (K := K) q d)).estimatedDegree

def withoutWeights (t : Term K) : Term K :=
  (Id.run ((memoise (m := Id) (fun t self => match t with
    | .leaf (.geometric .quadratureWeight _) _ => pure (int 1)
    | .leaf u k => pure (.leaf u k)
    | .node op args => reuse (.node op args) self) t).run ∅)).1

/-- The integrand of the volume of what is integrated over, and the degree that a rule needs. -/
def unitIntegrand (type : IntegralType) (d : Domain) : Forming (Term K × Degree) := do
  let t ← prepareIntegrand type d (int 1)
  return (t, (withoutWeights t).estimatedDegree)

end Term

end FormCompiler
