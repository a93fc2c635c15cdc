import FormCompiler.Form.Matrix

/-!
# Index notation

Products of tensors, traces, determinants, divergences and the like are written with indices, so that later passes meet
sums, products, indexing and gradients only. Numbers are real, so conjugates vanish.
-/

namespace FormCompiler

namespace Term

variable {K : Type} [Elementary K]

def sumOver (t : Term K) (labels : List Nat) : Term K := labels.foldl indexSum t

def innerProduct (a b : Term K) : Labels (Term K) := do
  let ii ← Labels.several a.shape.length
  return sumOver (product (a.entry ii) (b.entry ii)) ii

/-- The product summed over the last dimension of one tensor and the first of the other. -/
def dotProduct (a b : Term K) : Labels (Term K) := do
  let ai ← Labels.several (a.shape.length - 1)
  let bi ← Labels.several (b.shape.length - 1)
  let k ← Labels.fresh
  return asTensor (indexSum (product (a.entry (ai ++ [k])) (b.entry (k :: bi))) k) (ai ++ bi)

def outerProduct (a b : Term K) : Labels (Term K) := do
  let ii ← Labels.several a.shape.length
  let jj ← Labels.several b.shape.length
  return asTensor (product (a.entry ii) (b.entry jj)) (ii ++ jj)

def symmetricPart (a : Term K) : Labels (Term K) := do
  let i ← Labels.fresh
  let j ← Labels.fresh
  return asTensor (division (sum (a.entry [i, j]) (a.entry [j, i])) (int 2)) [i, j]

def divergenceOf (a : Term K) : Labels (Term K) := do
  let jj ← Labels.several (a.shape.length - 1)
  let i ← Labels.fresh
  return asTensor (indexSum ((gradient a).entry (jj ++ [i, i])) i) jj

def rotationOf (a : Term K) : Labels (Term K) := do
  let g := gradient a
  let c := fun (i j : Nat) => minus (g.component [j, i]) (g.component [i, j])
  match a.shape with
  | [] => return listTensor [g.component [1], ← negated (g.component [0])]
  | [2] => c 0 1
  | _ => return listTensor [← c 1 2, ← c 2 0, ← c 0 1]

def inIndexNotation (op : Op) (args : List (Term K)) : Option (Labels (Term K)) :=
  match op, args with
  | .inner, [a, b] => some (innerProduct a b)
  | .dot, [a, b] => some (dotProduct a b)
  | .outer, [a, b] => some (outerProduct a b)
  | .cross, [a, b] => some (crossProduct a b)
  | .symmetric, [a] => some (symmetricPart a)
  | .transposed, [a] => some do
    let i ← Labels.fresh
    let j ← Labels.fresh
    return asTensor (a.entry [i, j]) [j, i]
  | .trace, [a] => some do
    let i ← Labels.fresh
    return indexSum (a.entry [i, i]) i
  | .determinant, [a] => some (determinantOf a)
  | .inverse, [a] => some (inverseOf a)
  | .divergence, [a] => some (divergenceOf a)
  | .rotation, [a] => some (rotationOf a)
  | .conjugate, [a] => some (pure a)
  | _, _ => none

/-- One step of writing a term in index notation. -/
def algebraStep : Step K (StateT (Store K (Term K)) Forming) (Term K) := fun t self =>
  match t with
  | .leaf u k => return .leaf u k
  | .node op args => do
    let args ← mapChildren (.node op args) self
    match inIndexNotation op args with
    | some lowered => (liftM lowered : StateT (Store K (Term K)) Forming (Term K))
    | none => return (Term.node op t.children).withOperands args

def lowerAlgebra (t : Term K) : Forming (Term K) := (memoise (m := Forming) algebraStep t).run' ∅

end Term

end FormCompiler
