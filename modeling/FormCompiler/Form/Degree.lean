import FormCompiler.Form.Recursion
import FormCompiler.Quadrature

/-!
# Estimated degrees

The degree of the polynomial that a term is on the reference cell, or a guess where it is none. Degrees of products add up. On
a product of cells there is one degree for each factor.
-/

namespace FormCompiler

namespace Degree

/-- An operation on degrees; one number stands for as many as the other has. -/
def zip (f : Int → Int → Int) : Degree → Degree → Degree
  | .total m, .total n => .total (f m n)
  | .total m, .split ns => .split (ns.map (f m))
  | .split ms, .total n => .split (ms.map (f · n))
  | .split ms, .split ns => .split (List.zipWith f ms ns)

def add : Degree → Degree → Degree := zip (· + ·)

def max : Degree → Degree → Degree := zip Max.max

def isZero : Degree → Bool
  | .total n => n == 0
  | .split _ => false

end Degree

namespace Element

mutual

def degree : Element → Degree
  | .simple _ _ d _ => .total d
  | .quadrature _ d _ => .total (d.getD 0)
  | .vector p _ => degree p
  | .tensor p _ _ => degree p
  | .mixed ps => largestDegree ps
  | .enriched ps => largestDegree ps
  | .nodalEnriched ps => largestDegree ps
  | .broken p => degree p
  | .restricted p _ => degree p
  | .product _ ps => .split (plainDegrees ps)
  | .hdiv p => degree p
  | .hcurl p => degree p

def largestDegree : List Element → Degree
  | [] => .total 0
  | p :: ps => Degree.max (degree p) (largestDegree ps)

def plainDegrees : List Element → List Int
  | [] => []
  | p :: ps => (match degree p with
    | .total n => n
    | .split ns => ns.foldl Max.max 0) :: plainDegrees ps

end

end Element

namespace Term

variable {K : Type} [Elementary K]

def coordinateDegree (d : Option Domain) : Degree := (d.map fun d => d.coordinates.degree).getD (.total 1)

def terminalDegree : Terminal K → Degree
  | .coefficient f => f.element.degree
  | .argument v => v.element.degree
  | .geometric .spatialCoordinate d => coordinateDegree (some d)
  | .geometric .cellCoordinate _ => .total 1
  | .geometric q d => if q.isCellwiseConstant d then .total 0 else coordinateDegree (some d)
  | _ => .total 0

def derivativeDegree (d : Option Domain) : Degree → Degree
  | .total n => if d.map (·.cell) == some .quadrilateral then .total n else .total (Max.max (n - 1) 0)
  | n => n

def wholeExponent? (t : Term K) : Option Nat :=
  match t with
  | .leaf (.number x) _ => (List.range 64).find? fun n => Scalar.equal x (Scalar.ofInt n)
  | _ => none

def operatorDegree (op : Op) (d : Option Domain) (args : List (Term K)) (ds : List Degree) : Degree :=
  let total := ds.foldl Degree.add (.total 0)
  let most := match ds with
    | [] => .total 0
    | n :: ns => ns.foldl Degree.max n
  match op, args, ds with
  | .product, _, _ | .division, _, _ | .inner, _, _ | .outer, _, _ | .dot, _, _ | .cross, _, _ => total
  | .power, [_, e], [n, _] => match wholeExponent? e with
    | some k => Degree.zip (fun a _ => a * Int.ofNat k) n n
    | none => Degree.add n (.total 2)
  | .function _, _, [n] => if n.isZero then n else Degree.add n (.total 2)
  | .bessel _, _, [_, n] => Degree.add n (.total 2)
  | .arctangent, _, [m, n] => Degree.add (Degree.max m n) (.total 2)
  | .conditional, _, [_, m, n] => Degree.max m n
  | .minimum, _, [m, n] | .maximum, _, [m, n] => Degree.max m n
  | .gradient, _, [n] | .referenceGradient, _, [n] | .divergence, _, [n] | .rotation, _, [n]
  | .referenceDivergence, _, [n] | .referenceRotation, _, [n] => derivativeDegree d n
  | _, _, _ => most

def degreeStep {m : Type → Type} [Monad m] : Step K m Degree := fun t self =>
  match t with
  | .leaf u _ => return terminalDegree u
  | .node op args => do
    return operatorDegree op t.domain args (← mapChildren (.node op args) self)

def estimatedDegree (t : Term K) : Degree := (Id.run ((memoise (m := Id) degreeStep t).run ∅)).1

end Term

end FormCompiler
