import FormCompiler.Form.AbsoluteValue
import FormCompiler.Form.Prepare
import FormCompiler.Form.Restriction
import FormCompiler.Lowering.Terminal

/-!
# Lowering integrands

A prepared term becomes an expression at the points of a context. Volumes of cells and areas of facets are integrals of their
own, summed over points of their own. On interior facets an integrand has a part for each choice of a side for each argument.
-/

namespace FormCompiler

namespace Integrand

/-- One step of lowering a term: modified terminals by `terminal`, operators by `node`. -/
def step {K : Type} [Scalar K] {m : Type → Type} [Monad m] [MonadExceptOf Error m] (constant : Terminal K → m (Expr K))
    (terminal : Term K → m (Expr K)) (node : Op → List Nat → List (Expr K) → m (Expr K)) :
    Term.Step K m (Expr K) := fun t self =>
  match t with
  | .leaf u k => if u.isConstantValue then constant u else terminal (.leaf u k)
  | .node op args =>
    match op with
    | .gradient | .divergence | .rotation | .referenceDivergence | .referenceRotation =>
      throw (.requirement "Not expected")
    | .restricted _ | .cellAverage | .facetAverage | .referenceGradient | .referenceValue =>
      if Modified.isModified t then terminal t else throw (.requirement "")
    | op => do node op t.shape (← Term.mapChildren (.node op args) self)

def lowerBy (terminal : Term Float → Recorded (Expr Float)) (ts : List (Term Float)) : Recorded (List (Expr Float)) :=
  let constant : Terminal Float → StateT (Term.Store Float (Expr Float)) Recorded (Expr Float) := fun u =>
    StateT.lift (Lowering.constant u)
  let node : Op → List Nat → List (Expr Float) → StateT (Term.Store Float (Expr Float)) Recorded (Expr Float) :=
    fun op shape args => StateT.lift (Recorded.lowering (Lowering.node op shape args))
  (ts.mapM (Term.memoise (m := Recorded) (step constant (fun t => StateT.lift (terminal t)) node))).run' ∅

/-- The class of a constant, by the name under which it is refused. -/
def constantClass : Terminal Float → String
  | .zero _ _ => "Zero"
  | .identity _ => "Identity"
  | .number x => if x.floor == x then "IntValue" else "FloatValue"
  | _ => ""

/-- The value of a modified terminal that needs no integral of its own. -/
def simpleTerminal (c : Context) (t : Term Float) : Recorded (Expr Float) := do
  let m ← MonadExcept.ofExcept (Modified.analyse t)
  match m.terminal with
  | .argument v => Terminal.argumentValue c v m t.shape
  | .coefficient f => Terminal.coefficientValue c f m t.shape
  | .geometric q d => Terminal.quantityValue c q d m
  | u =>
    let name := constantClass u
    throw (.requirement s!"Cannot handle terminal type: <class 'ufl.constantvalue.{name}'>")

/-- The sum over the points of a rule of an integrand that holds no volumes. -/
def integrate (c : Context) (t : Term Float) (degree : Degree) : Recorded (Expr Float) := do
  let rule ← MonadExcept.ofExcept (Quadrature.rule (c.cell.subcell c.dim) degree)
  let ps ← PointSet.ofPoints rule.points
  let c := { c with points := ps, weights := some rule.weights }
  match ← Recorded.apart (lowerBy (simpleTerminal c) [t.simplifyAbs]) with
  | [e] => Build.sumFree e (ps.indices.map .free)
  | _ => throw .malformed

def cellVolume (c : Context) (d : Domain) (side : Option Side) : Recorded (Expr Float) := do
  let (t, degree) ← Recorded.forming (Term.unitIntegrand .cell d)
  integrate { c.within c.points with fixedSide := some side } t degree

def facetArea (c : Context) (d : Domain) : Recorded (Expr Float) := do
  match c.integralType with
  | none => throw .absent
  | some type =>
    Build.require (type != .cell)
    let (t, degree) ← Recorded.forming (Term.unitIntegrand type d)
    integrate { c with integralType := none, arguments := [] } t degree

def terminal (c : Context) (t : Term Float) : Recorded (Expr Float) := do
  match Modified.analyse t with
  | .ok { terminal := .geometric .cellVolume d, restriction := side, .. } => cellVolume c d side
  | .ok { terminal := .geometric .facetArea d, .. } => facetArea c d
  | _ => simpleTerminal c t

/-- All choices of a side for each of some arguments, the last fastest. -/
def sideChoices (n : Nat) : List (List Side) := choices (List.replicate n [Side.plus, Side.minus])

/-- The parts of an integrand: one for each choice of sides on interior facets, else the integrand itself. -/
def parts (interior : Bool) (arguments : Nat) (t : Term Float) : Except Error (List (Term Float)) :=
  if interior then (sideChoices arguments).mapM fun sides => t.pickRestriction sides[0]? sides[1]?
  else .ok [t]

def lower (c : Context) (interior : Bool) (t : Term Float) : Recorded (List (Expr Float)) := do
  let ts ← MonadExcept.ofExcept (parts interior c.arguments.length t.simplifyAbs)
  Recorded.apart (lowerBy (terminal c) ts)

end Integrand

end FormCompiler
