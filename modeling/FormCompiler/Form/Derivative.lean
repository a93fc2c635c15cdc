import FormCompiler.Form.Algebra

/-!
# Derivatives

Gradients are carried down to the functions by the rules of calculus. A gradient is taken along the axes of space or along
those of the reference cell; one along the axes of space of a function on the reference cell is the product of one along
those of the cell with the inverse Jacobian. What remains are derivatives of functions and of coordinates.
-/

namespace FormCompiler

namespace Term

variable {K : Type} [Elementary K]

inductive Axes where
  | space | cell
  deriving DecidableEq, Repr

def indicator (condition : Term K) : Term K := .node .conditional [condition, int 1, int 0]

def sign (f : Term K) : Term K :=
  .node .conditional [.node (.compare .equal) [f, int 0], int 0,
    .node .conditional [.node (.compare .less) [f, int 0], int (-1), int 1]]

def square (f : Term K) : Term K := power f (int 2)

/-- The derivative of a function at a scalar, as a factor of the derivative of the scalar, with the value of the function at
hand. -/
def functionSlope (f : MathFunction) (x value : Term K) : Labels (Term K) := do
  match f with
  | .sqrt => return division (int 1) (product (int 2) value)
  | .exp => return value
  | .ln => return division (int 1) x
  | .cos => negated (function .sin x)
  | .sin => return function .cos x
  | .tan => return division (int 2) (sum (function .cos (product (int 2) x)) (int 1))
  | .cosh => return function .sinh x
  | .sinh => return function .cosh x
  | .tanh =>
    let sech := division (product (int 2) (function .cosh x)) (sum (function .cosh (product (int 2) x)) (int 1))
    return square sech
  | .acos => return division (int (-1)) (function .sqrt (← minus (int 1) (square x)))
  | .asin => return division (int 1) (function .sqrt (← minus (int 1) (square x)))
  | .atan => return division (int 1) (sum (int 1) (square x))
  | .erf =>
    let pi := number (Elementary.angle Scalar.zero (Scalar.ofInt (-1)))
    return product (division (int 2) (function .sqrt pi)) (function .exp (← negated (square x)))

def besselOf (kind : Bessel) (order x : Term K) : Term K := .node (.bessel kind) [order, x]

def besselSlope (kind : Bessel) (order x : Term K) : Labels (Term K) := do
  let below ← minus order (int 1)
  let above := sum order (int 1)
  match kind, order.isZero with
  | .modifiedFirst, true => return besselOf kind (int 1) x
  | _, true => negated (besselOf kind (int 1) x)
  | .modifiedFirst, false => return product half (sum (besselOf kind below x) (besselOf kind above x))
  | .modifiedSecond, false => negated (product half (sum (besselOf kind below x) (besselOf kind above x)))
  | _, false => return product half (← minus (besselOf kind below x) (besselOf kind above x))

/-- A term along the axes of space from its derivative along those of the cell: the last dimension meets the inverse
Jacobian. -/
def alongSpace (d : Domain) (derivative : Term K) : Labels (Term K) := do
  let r ← Labels.several (derivative.shape.length - 1)
  let i ← Labels.fresh
  let j ← Labels.fresh
  let k := geometric .jacobianInverse d
  return asTensor (indexSum (product (k.entry [j, i]) (derivative.entry (r ++ [j]))) j) (r ++ [i])

def terminalDerivative (axes : Axes) (dim : Nat) (t : Terminal K) : Labels (Term K) := do
  let whole := ofTerminal t
  let zero := zero (t.shape ++ [dim]) t.free
  match axes, t with
  | .space, .coefficient _ | .space, .argument _ => return gradient whole
  | .space, .geometric .spatialCoordinate _ => return identity dim
  | .space, .geometric .cellCoordinate d => return geometric .jacobianInverse d
  | .space, .geometric .jacobianInverse d =>
    if t.isCellwiseConstant then return zero else alongSpace d (referenceGradient whole)
  | .space, .geometric _ _ => return if t.isCellwiseConstant then zero else gradient whole
  | .cell, .geometric .spatialCoordinate _ => return referenceGradient whole
  | .cell, .geometric .cellCoordinate _ => return identity dim
  | .cell, .geometric _ _ => return if t.isCellwiseConstant then zero else referenceGradient whole
  | .cell, .coefficient _ | .cell, .argument _ => return referenceGradient whole
  | _, _ => return zero

def entryDerivative (places : List Place) (da : Term K) : Labels (Term K) := do
  let rest ← Labels.several (da.shape.length - places.length)
  let generic := asTensor (indexed da (places ++ rest.map .label)) rest
  match da with
  | .node (.componentTensor binders) [.node (.indexed inner) [c]] =>
    let labels := binders.map Prod.fst
    if labels.all fun j => inner.contains (.label j) then
      let table := labels.zip (places ++ rest.map .label)
      let moved := inner.map fun p => match p with
        | .label j => (table.lookup j).getD p
        | p => p
      return asTensor (indexed c moved) rest
    return generic
  | _ => return generic

/-- The derivative of a scalar that is a sum of factors times derivatives, entry by entry. -/
def combineSlopes (parts : List (Term K × Term K)) : Labels (Term K) := do
  let i ← Labels.fresh
  let terms := parts.map fun (factor, d) => product factor (d.entry [i])
  match terms with
  | [] => return int 0
  | t :: ts => return asTensor (ts.foldl sum t) [i]

def scalarDerivative (op : Op) (whole : Term K) (args ds : List (Term K)) : Labels (Term K) := do
  match op, args, ds with
  | .product, [a, b], [da, db] => combineSlopes [(b, da), (a, db)]
  | .division, [_, g], [df, dg] =>
    let i ← Labels.fresh
    if dg.isZero then return asTensor (division (df.entry [i]) g) [i]
    return asTensor (division (← minus (df.entry [i]) (product whole (dg.entry [i]))) g) [i]
  | .power, [f, g], [df, dg] =>
    if dg.isZero then
      combineSlopes [(product g (power f (← minus g (int 1))), df)]
    else
      let i ← Labels.fresh
      let first := division (product (df.entry [i]) g) f
      let second := product (dg.entry [i]) (function .ln f)
      return asTensor (product whole (sum first second)) [i]
  | .abs, [f], [df] => combineSlopes [(sign f, df)]
  | .function f, [x], [dx] => combineSlopes [(← functionSlope f x whole, dx)]
  | .arctangent, [f, g], [df, dg] =>
    let i ← Labels.fresh
    let top ← minus (product g (df.entry [i])) (product f (dg.entry [i]))
    return asTensor (division top (sum (square f) (square g))) [i]
  | .bessel kind, [order, x], [_, dx] => combineSlopes [(← besselSlope kind order x, dx)]
  | _, _, _ => return zero (whole.shape ++ [((ds.headD (int 0)).shape.getLast?).getD 0]) whole.free

def choiceDerivative (condition da db : Term K) : Labels (Term K) := do
  if da.isZero && db.isZero then return da
  let dc := indicator condition
  return sum (← scaled dc da) (← scaled (← minus (int 1) dc) db)

/-- One step of taking a derivative; the term has no gradients above other operators. -/
def derivativeStep (axes : Axes) (dim : Nat) : Step K (StateT (Store K (Term K)) Forming) (Term K) := fun t self =>
  let lift : Labels (Term K) → StateT (Store K (Term K)) Forming (Term K) := fun x => liftM x
  let vanish := zero (t.shape ++ [dim]) t.free
  match t with
  | .leaf u _ => lift (terminalDerivative axes dim u)
  | .node .gradient [a] => return gradient (.node .gradient [a])
  | .node .referenceValue [f] | .node .referenceGradient [f] =>
    match axes with
    | .cell => return referenceGradient t
    | .space => match f.domain with
      | some d => lift (alongSpace d (referenceGradient t))
      | none => return vanish
  | .node (.variable _) [a] => self a (by simp +arith)
  | .node (.indexed places) [a] => do
    let da ← self a (by simp +arith)
    if da.isZero then return vanish else lift (entryDerivative places da)
  | .node .listTensor args => do
    return listTensor (← mapChildren (.node .listTensor args) self)
  | .node (.componentTensor binders) [a] => do
    let da ← self a (by simp +arith)
    if da.isZero then return vanish
    let jj ← Forming.several da.shape.length
    return asTensor (da.entry jj) (binders.map Prod.fst ++ jj)
  | .node (.indexSum i _) [a] => do
    return indexSum (← self a (by simp +arith)) i
  | .node .sum [a, b] => do
    let da ← self a (by simp +arith)
    return sum da (← self b (by simp +arith))
  | .node (.restricted s) [a] => do
    let da ← self a (by simp +arith)
    return if da.isConstantValue then da else restricted s da
  | .node .conditional [c, a, b] => do
    let da ← self a (by simp +arith)
    let db ← self b (by simp +arith)
    lift (choiceDerivative c da db)
  | .node .maximum [a, b] => do
    let da ← self a (by simp +arith)
    let db ← self b (by simp +arith)
    lift (choiceDerivative (.node (.compare .greater) [a, b]) da db)
  | .node .minimum [a, b] => do
    let da ← self a (by simp +arith)
    let db ← self b (by simp +arith)
    lift (choiceDerivative (.node (.compare .less) [a, b]) da db)
  | .node op args =>
    match op with
    | .cellAverage | .facetAverage | .compare _ | .conjunction | .disjunction | .negation => return vanish
    | op => do
      let ds ← mapChildren (.node op args) self
      lift (scalarDerivative op (.node op args) args ds)

def derivativeOf (axes : Axes) (dim : Nat) (t : Term K) : Forming (Term K) :=
  (memoise (m := Forming) (derivativeStep axes dim) t).run' ∅

def derivativesStep : Step K (StateT (Store K (Term K)) Forming) (Term K) := fun t self =>
  let lift : Forming (Term K) → StateT (Store K (Term K)) Forming (Term K) := fun x => liftM x
  match t with
  | .leaf u k => return .leaf u k
  | .node .gradient [a] => do lift (derivativeOf .space a.gdim (← self a (by simp +arith)))
  | .node .referenceGradient [a] => do lift (derivativeOf .cell a.tdim (← self a (by simp +arith)))
  | .node (.indexed places) [a] => do
    let b ← self a (by simp +arith)
    if b == a then return t
    lift (ExceptT.lift (entryDerivative places b))
  | .node op args => reuse (.node op args) self

def applyDerivatives (t : Term K) : Forming (Term K) := (memoise (m := Forming) derivativesStep t).run' ∅

end Term

end FormCompiler
