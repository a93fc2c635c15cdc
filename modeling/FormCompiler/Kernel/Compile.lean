import FormCompiler.Code.Generate
import FormCompiler.Form.Integrals
import FormCompiler.Form.Split
import FormCompiler.Kernel.Names
import FormCompiler.Lowering.Integrand

/-!
# Compiling forms

Each group of integrals of a form becomes a kernel, and so does an expression whose values are wanted at points. Integrands
are lowered to expressions at the points of a rule, a mode turns them into assignments to the element tensor, the assignments
are scheduled as a program, and the program becomes code.
-/

namespace FormCompiler

structure IntegralKernel where
  kernel : Kernel Float
  type : IntegralType
  subdomain : Subdomain
  oriented : Bool
  /-- The positions of its coefficients among those of the form. -/
  coefficientNumbers : List Nat
  extents : List Nat

structure ExpressionKernel where
  kernel : Kernel Float
  oriented : Bool
  coefficients : List Coefficient
  /-- The extents of the values: the points, then the shape of the expression. -/
  extents : List Nat

namespace Compile

def ruleFor (p : Parameters) (cell : Cell) (estimated : Degree) : Build Rule :=
  match p.rule with
  | .byDegree => MonadExcept.ofExcept (Quadrature.rule cell (p.degree.getD estimated))
  | .given r => return r
  | .foreign kind => throw (.invalid s!"Expected to find a QuadratureRule object, not a <class '{kind}'>")

/-- What is known after the integrands of some modes were lowered. -/
structure Lowered where
  points : List Index := []
  byMode : List (Mode × List (Expr Float × List (Mode.Integral Float))) := []

/-- Add the integrals of a mode to those of each variable. -/
def Lowered.add (l : Lowered) (mode : Mode) (rows : List (Expr Float × Mode.Integral Float)) : Lowered :=
  let known := (l.byMode.lookup mode).getD []
  let merged := rows.foldl (fun acc (v, r) => insertGroup v r acc) known
  let byMode := if (l.byMode.lookup mode).isSome then
      l.byMode.map fun (m, vs) => if m == mode then (m, merged) else (m, vs)
    else l.byMode ++ [(mode, merged)]
  { l with byMode }

def lowerPart (c : Context) (p : Parameters) (interior : Bool) (targets : List (Expr Float))
    (part : Prepared Float) (l : Lowered) : Recorded Lowered := do
  let p := p.withOptions part.options
  let mode ← MonadExcept.ofExcept (Mode.ofName p.mode)
  let split := c.builder.parts
  let t ← if c.builder.convention == .separate then
      Recorded.forming (Term.splitCoefficients (fun f => split.lookup f) part.integrand)
    else pure part.integrand
  let rule ← ruleFor p (c.cell.subcell c.dim) part.degree
  let ps ← PointSet.ofPoints rule.points
  let c := { c with points := ps, weights := some rule.weights }
  let es ← Integrand.lower c interior t
  let integrals ← mode.integrals es ps.indices c.arguments p.unroll
  return { (l.add mode (targets.zip integrals)) with points := l.points ++ ps.indices }

def assignmentsOf (l : Lowered) : Recorded (List (Expr Float × Expr Float)) := do
  let found ← l.byMode.mapM fun (mode, parts) => do
    let (splits, result) ← mode.assignments parts (← get).splits
    modify fun r => { r with splits }
    (MonadExcept.ofExcept result : Build _)
  return found.flatten

def orderOf (e : Expr Float) : Build (List Index) :=
  match e.indexOrder? with
  | some is => return is
  | none => throw .absent

/-- Compile, or say that there is nothing to compute. -/
def programOf (assignments : List (Expr Float × Expr Float)) (order : List Index) (removeZeros : Bool) :
    Build (Option (Program Float)) :=
  tryCatch (do return some (← Program.compile assignments order removeZeros)) fun e =>
    match e with
    | .nothingToDo => return none
    | e => throw e

def kernelName (stem : String) (g : IntegralGroup Float) : String :=
  let type := g.type.name
  let subdomain := g.subdomain.text
  (s!"{stem}_{type}_integral_{subdomain}").replace "-" "_"

/-- The extents of the element tensor as it is declared. -/
def extentsOf (convention : Convention) (shapes : List (List Nat)) (interior : Bool) : List Nat :=
  let extents := Layout.tensorShape shapes interior
  match convention, shapes with
  | .packed, _ => [Layout.count extents]
  | .separate, [] => [1]
  | .separate, _ => extents

/-- The kernel of a group of integrals, none if there is nothing to integrate and none is needed. -/
def groupKernel (convention : Convention) (bases : Bases) (p : Parameters) (stem : String) (form : PreparedForm Float)
    (g : IntegralGroup Float) : Recorded (Option IntegralKernel) := do
  let cell := form.domain.cell
  let name := kernelName stem g
  let (dim, entities) ← MonadExcept.ofExcept (g.type.entities cell)
  let builder : Builder Float ← Builder.new convention g.type
  let shapes ← (form.arguments.mapM fun v => Builder.indexShape bases v.element : Build _)
  let arguments ← (shapes.mapM fun s => Build.freshIndices (Shape.ofNats s) : Build _)
  let (builder, targets) ← builder.setArguments shapes (arguments.flatten.map .free)
  let builder ← builder.setCoordinates bases form.domain
  let used := Term.coefficientsOf (g.parts.map (·.integrand))
  let (builder, numbers) ← builder.setCoefficients bases (form.coefficients.map Prod.snd)
    (form.coefficients.map fun q => used.contains q.2)
  let epsilon ← MonadExcept.ofExcept (Code.tolerance p.precision)
  let context : Context :=
    { builder, bases, cell, integralType := some g.type, dim, entities, epsilon, arguments, points := .one [] }
  let lowered ← g.parts.foldlM (fun l part => lowerPart context p g.type.isInterior targets part l) {}
  let assignments ← assignmentsOf lowered
  let modes := lowered.byMode.map Prod.fst
  let es ← Program.prepare (assignments.map Prod.snd) (modes.any Mode.lowersDeltas) (modes.any Mode.inlinesComponents)
  let targets := assignments.map Prod.fst
  let builder := if builder.needsOrientations es then { builder with oriented := true } else builder
  let split ← (targets.mapM orderOf : Build _)
  let positions := form.coefficients.map Prod.fst
  let result := fun (k : Kernel Float) => (⟨k, g.type, g.subdomain, builder.oriented,
    numbers.map fun n => positions.getD n 0, extentsOf convention shapes g.type.isInterior⟩ : IntegralKernel)
  match ← programOf (targets.zip es) (lowered.points ++ split.flatten) true with
  | none => return (← builder.emptyKernel name).map result
  | some program =>
    let names := LoopNames.ofKernel (← get).splits lowered.points arguments
    let body ← Code.ofProgram program (Code.doubles p.precision epsilon) names es split.flatten
    return some (result (← builder.kernel name [.statement body]))

def elementsOf (form : PreparedForm Float) : List Element :=
  distinct (form.domain.coordinates :: form.arguments.map (·.element) ++
    form.coefficients.flatMap fun (_, f) => f.element :: f.element.parts)

def formKernels (convention : Convention) (p : Parameters) (stem : String) (d : Domain)
    (integrals : List (FormIntegral Float)) (labels : Nat) : Build (List IntegralKernel) := do
  if integrals.isEmpty then throw (.requirement "")
  let (form, labels) := (PreparedForm.ofIntegrals d integrals).run labels
  let form ← MonadExcept.ofExcept form
  let bases := Bases.foreseen (convention == .separate) (elementsOf form)
  let found ← form.groups.mapM fun g => (groupKernel convention bases p stem form g).run' { labels }
  return found.filterMap id

/-! ## Expressions -/

def hasGeometry (t : Term Float) : Bool := t.terminals.any fun u => match u with
  | .geometric _ _ => true
  | _ => false

/-- The kernel that gives the values of a term at points of the reference cell. The coordinates of the mesh are a coefficient,
which comes first if the term has geometric quantities. -/
def expressionKernel (precision : Int) (t : Term Float) (points : List (List Float)) (coordinates : Coefficient)
    (labels : Nat) : Build ExpressionKernel := do
  let (prepared, labels) := t.prepare.run labels
  let t ← MonadExcept.ofExcept prepared
  let builder : Builder Float ← Builder.forExpression
  let builder := match t.domain with
    | some d => { builder with coordinateFields := [(d, coordinates)] }
    | none => builder
  let coefficients := Term.coefficientsOf [t]
  let coefficients := if hasGeometry t then coordinates :: coefficients else coefficients
  let bases := Bases.foreseen true (distinct (coefficients.flatMap fun f => f.element :: f.element.parts))
  let builder ← builder.setExpressionCoefficients bases coefficients
  let cell := coordinates.domain.cell
  let epsilon ← MonadExcept.ofExcept (Code.tolerance precision)
  let lowered : Recorded (List (Expr Float) × PointSet) := do
    let parts := builder.parts
    let t ← Recorded.forming (Term.splitCoefficients (fun f => parts.lookup f) t)
    let ps ← PointSet.ofPoints points
    let context : Context := { builder, bases, cell, dim := cell.dim, epsilon, points := ps }
    return (← Integrand.lower context false t, ps)
  let (es, ps) ← lowered.run' { labels }
  let e ← match es with
    | [e] => pure e
    | _ => throw .malformed
  let shape ← match Shape.toNats? e.shape with
    | some s => pure s
    | none => throw .unsupported
  let components ← Build.freshIndices (shape.map fun _ => none)
  let entry ← Build.indexedAt e components
  let returned := points.length :: shape
  let indices := ps.indices ++ components
  let target ← Build.indexedAt (.var "A" (Shape.ofNats returned)) indices
  let result : Code.Declaration Float :=
    { type := "double", name := "A", rank := returned.map fun n => .fixed (Int.ofNat n) }
  let es ← Program.prepare [entry]
  let program ← Program.compile ([target].zip es) indices
  let body ← Code.ofProgram program (Code.doubles precision epsilon) (ps.indices.map fun i => (i, "p"))
  let builder := if builder.needsOrientations es then { builder with oriented := true } else builder
  return ⟨← builder.expressionKernel result [.statement body], builder.oriented, builder.coefficients, returned⟩

end Compile

end FormCompiler
