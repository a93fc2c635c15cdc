import FormCompiler.Grouping
import FormCompiler.Rewrite.Substitution

/-!
# Selection

One of several expressions is selected by a slot. Rather than to list the expressions, the selection is pushed down
to where they differ, so that a table of tables is left at the leaves.
-/

namespace FormCompiler

namespace Rewrite

variable {K : Type} [Scalar K]

/-- Does the node carry something besides its children? -/
def hasPayload : Expr K → Bool
  | .binary (.compare _) _ _ => true
  | .binary _ _ _ | .negation _ | .conditional _ _ _ | .listTensor _ _ | .concatenate _ => false
  | _ => true

/-- The child of an entry, or a zero tensor of the given shape. -/
def selectionChild (shape : Shape) : Expr K → Expr K
  | .indexed t _ => t
  | _ => .zero shape

def allOfKinds (kinds : List String) (es : List (Expr K)) : Bool := es.all fun e => kinds.contains e.kindName

/-- The selection among scalar expressions, pushed down `depth` levels at most. -/
def selectWithin : Nat → List (Expr K) → Slot (Expr K) → Build (Expr K)
  | 0, _, _ => throw .endless
  | depth + 1, es, slot => do
    let expr :: _ := es | throw .outOfRange
    if es.all (· == expr) then return expr
    if allOfKinds ["Indexed", "Zero"] es then
      let indexings := distinct (es.filterMap fun | .indexed _ s => some s | _ => none)
      let [slots] := indexings | throw .malformed
      let shape ← (← Build.runningIndices slots).mapM Build.extent
      let tensor ← selectWithin depth (es.map (selectionChild shape)) slot
      Build.indexed tensor slots
    else if allOfKinds ["Literal", "Zero", "Failure"] es then
      Build.partialIndexed (← Build.listTensor [es.length] es) [slot]
    else if allOfKinds ["ComponentTensor", "Zero"] es then
      let [shape] := distinct (es.map Expr.shape) | throw .malformed
      let indices ← Build.freshIndices shape
      let entries ← inlineComponents (← es.mapM fun e => Build.indexedAt e indices)
      Build.tensorOver (← selectWithin depth entries slot) indices
    else if es.all fun e => e.kindName == expr.kindName then
      if hasPayload expr then throw (.cannotFactorKind expr.kindName)
      Build.require (es.all fun e => e.children.length == expr.children.length)
      Build.require (!expr.children.isEmpty)
      let children ← (List.range expr.children.length).mapM fun n =>
        selectWithin depth (es.filterMap fun e => e.children[n]?) slot
      Build.reconstruct expr children
    else throw .cannotFactorMixed

/-- The selection among scalar expressions without components of tensors. -/
def selectRaw (es : List (Expr K)) (slot : Slot (Expr K)) : Build (Expr K) :=
  selectWithin (es.foldl (fun acc e => max acc e.height) 0 + 1) es slot

/-- The expression at the position that the slot gives, for expressions of one shape. -/
def select (es : List (Expr K)) (slot : Slot (Expr K)) : Build (Expr K) := do
  let first :: _ := es | throw .outOfRange
  Build.require (es.all fun e => e.shape == first.shape)
  let indices ← Build.freshIndices (first.shape.map fun _ => none)
  let entries ← inlineComponents (← es.mapM fun e => Build.indexedAt e indices)
  Build.tensorOver (← selectRaw entries slot) indices

end Rewrite

end FormCompiler
