import FormCompiler.Expr.Traversal
import FormCompiler.Rewrite.Association
import FormCompiler.Rewrite.Local
import FormCompiler.Rewrite.Product

/-!
# Contraction

Sums against a delta are carried out by substitution, and the sums that are left are put in the cheapest order.
-/

namespace FormCompiler

namespace Rewrite

variable {K : Type} [Scalar K]

/-! ## Sums against a delta -/

def redirect (source : Index) (target : Slot (Expr K)) (e : Expr K) : Build (Expr K) := do
  if !e.freeIndices.contains source then return e
  match e with
  | .delta _ _ =>
    match ← substitute [e] [(source, target)] with
    | [r] => return r
    | _ => throw .malformed
  | _ => Build.indexed (← Build.tensorOver e [source]) [target]

/-- The first index that is summed over and stands in a delta, with the other side of the delta. -/
def findDelta (sumIndices : List Index) : List (Expr K) → Option (Index × Slot (Expr K))
  | [] => none
  | .delta i j :: rest =>
    let summed := fun (s : Slot (Expr K)) => (s.index?).filter sumIndices.contains
    match summed i, summed j with
    | some a, _ => some (a, j)
    | none, some b => some (b, i)
    | none, none => findDelta sumIndices rest
  | _ :: rest => findDelta sumIndices rest

/-- Carry out at most `n` sums against a delta. -/
def eliminateWithin : Nat → List Index → List (Expr K) → Build (List Index × List (Expr K))
  | 0, sumIndices, factors => return (sumIndices, factors)
  | n + 1, sumIndices, factors =>
    match findDelta sumIndices factors with
    | none => return (sumIndices, factors)
    | some (source, target) => do
      eliminateWithin n (sumIndices.erase source) (← factors.mapM (redirect source target))

/-- Carry out the sums against a delta: the indices and factors that are left. -/
def eliminateDeltas (sumIndices : List Index) (factors : List (Expr K)) : Build (List Index × List (Expr K)) :=
  eliminateWithin sumIndices.length sumIndices factors

/-! ## Contraction of a product -/

/-- Take a product apart, carry out the sums against a delta, and order the other sums. -/
def rebuildProduct (e : Expr K) : Build (Expr K) := do
  let f ← factors e
  let (sumIndices, terms) ← eliminateDeltas f.sumIndices f.terms
  sumFactorise sumIndices (← inlineComponents terms)

/-- The running indices at which listed tensors are indexed, in the order of a traversal. -/
def listedIndices (roots : List (Expr K)) : List Index :=
  distinct ((Expr.traversal roots).flatMap fun
    | .indexed (.listTensor _ _) slots => slots.filterMap Slot.index?
    | _ => [])

/-- Order the sums of the product at the root. Listed tensors that are indexed by free indices are pulled out, and
each entry is treated on its own. -/
def contraction (e : Expr K) : Build (Expr K) := do
  let e ← inlineComponent e
  let listed := (listedIndices [e]).filter e.freeIndices.contains
  if listed.isEmpty then rebuildProduct e
  else
    let tensor ← Build.tensorOver e listed
    let some shape := Shape.toNats? tensor.shape | throw .unsupported
    let entries ← inlineComponents (← (tuples shape).mapM (Build.entryAt tensor))
    Build.indexedAt (← Build.listTensor shape (← entries.mapM rebuildProduct)) listed

/-- Write out all dimensions and all sums. -/
def unrollAll (e : Expr K) : Build (Expr K) := do
  let mut e := e
  if !e.shape.isEmpty then
    let some shape := Shape.toNats? e.shape | throw .unsupported
    let entries ← (tuples shape).mapM (Build.entryAt e)
    e ← inlineComponent (← Build.listTensor shape entries)
  match ← unrollSums [e] (fun _ => true) with
  | [r] => inlineComponent r
  | _ => throw .malformed

end Rewrite

end FormCompiler
