import FormCompiler.Form.Recursion

/-!
# Functions on the reference cell

A function on a cell of the mesh is written by the function on the reference cell from which it comes. Values are carried as
they are, or as fluxes by the Jacobian over its determinant, or as circulations by the transposed inverse Jacobian, on one
side or both. The parts of a mixed function are carried each in its way.
-/

namespace FormCompiler

namespace Element

mutual

/-- The largest parts of an element whose values are all carried in one way. -/
def mappedParts (e : Element) : List Element :=
  if mapping e != .mixed then [e]
  else match e with
    | .mixed ps => mappedPartsOf ps
    | .vector p n => (List.replicate n (mappedParts p)).flatten
    | .tensor p shape _ => (List.replicate (size shape) (mappedParts p)).flatten
    | e => [e]

def mappedPartsOf : List Element → List Element
  | [] => []
  | p :: ps => mappedParts p ++ mappedPartsOf ps

end

/-- The place of the entry of a symmetric matrix in the list of those on and above the diagonal. -/
def symmetricPlace (n i j : Nat) : Nat :=
  let a := min i j
  let b := max i j
  a * n - a * (a + 1) / 2 + b

end Element

namespace Term

variable {K : Type} [Elementary K]

/-- A tensor of the given shape from its entries row by row. -/
def nested : List Nat → List (Term K) → Term K
  | [], ts => ts.headD (int 0)
  | n :: rest, ts =>
    let k := Element.size rest
    listTensor ((List.range n).map fun i => nested rest ((ts.drop (i * k)).take k))

/-- The function whose values on the reference cell are given, for a way of carrying values other than as they are. -/
def carry (m : Mapping) (d : Domain) (r : Term K) : Labels (Term K) := do
  let jacobian := geometric .jacobian d
  let inverse := geometric .jacobianInverse d
  let shrink := division (int 1) (geometric .jacobianDeterminant d)
  match m with
  | .contravariant =>
    let transform ← scaled shrink jacobian
    let i ← Labels.fresh
    let j ← Labels.fresh
    return asTensor (indexSum (product (transform.entry [i, j]) (r.entry [j])) j) [i]
  | .covariant =>
    let i ← Labels.fresh
    let j ← Labels.fresh
    return asTensor (indexSum (product (inverse.entry [j, i]) (r.entry [j])) j) [i]
  | .doubleCovariant =>
    let i ← Labels.fresh
    let j ← Labels.fresh
    let m ← Labels.fresh
    let n ← Labels.fresh
    let first := indexSum (product (inverse.entry [m, i]) (r.entry [m, n])) m
    return asTensor (indexSum (product first (inverse.entry [n, j])) n) [i, j]
  | .doubleContravariant =>
    let i ← Labels.fresh
    let j ← Labels.fresh
    let m ← Labels.fresh
    let n ← Labels.fresh
    let first := indexSum (product (product (product shrink shrink) (jacobian.entry [i, m])) (r.entry [m, n])) m
    return asTensor (indexSum (product first (jacobian.entry [j, n])) n) [i, j]
  | _ => return r

/-- The components of a part whose values on the reference cell start at a position. -/
def partComponentsAt (d : Domain) (r : Term K) (start : Nat) (e : Element) : Labels (List (Term K)) := do
  let shape := e.referenceShape
  let entries := (List.range (Element.size shape)).map fun k => r.component [start + k]
  match e.mapping with
  | .identity => return entries
  | .symmetries =>
    let n := (e.valueShape d.gdim).headD 0
    return (tuples [n, n]).map fun ij => match ij with
      | [i, j] => r.component [start + Element.symmetricPlace n i j]
      | _ => int 0
  | m =>
    let f ← carry m d (nested shape entries)
    return (tuples f.shape).map f.component

def componentsFrom (d : Domain) (r : Term K) : Nat → List Element → Labels (List (Term K))
  | _, [] => return []
  | start, e :: es => do
    let here ← partComponentsAt d r start e
    return here ++ (← componentsFrom d r (start + Element.size e.referenceShape) es)

/-- A function by its values on the reference cell. -/
def pullBack (e : Element) (d : Domain) (f : Term K) : Labels (Term K) := do
  let r := referenceValue f
  match e.mapping with
  | .identity => return r
  | .symmetries =>
    let n := (e.valueShape d.gdim).headD 0
    let entries := (tuples [n, n]).map fun ij => match ij with
      | [i, j] => r.component [Element.symmetricPlace n i j]
      | _ => int 0
    return nested [n, n] entries
  | .mixed => return listTensor (← componentsFrom d r 0 e.mappedParts)
  | m => carry m d r

/-- One step of writing a term by functions on the reference cell. -/
def pullbackStep : Step K (StateT (Store K (Term K)) Forming) (Term K) := fun t self =>
  match t with
  | .leaf (.coefficient f) _ => (liftM (pullBack f.element f.domain t) : StateT (Store K (Term K)) Forming (Term K))
  | .leaf (.argument v) _ => (liftM (pullBack v.element v.domain t) : StateT (Store K (Term K)) Forming (Term K))
  | .leaf u k => return .leaf u k
  | .node .referenceValue args => return .node .referenceValue args
  | .node op args => reuse (.node op args) self

def pullBackFunctions (t : Term K) : Forming (Term K) := (memoise (m := Forming) pullbackStep t).run' ∅

end Term

end FormCompiler
