import FormCompiler.Expr.Build
import Std.Data.HashMap
import Std.Data.HashSet

/-!
# Traversal

The distinct nodes that are reachable from some roots, parents first, and how often each is referred to.
-/

namespace FormCompiler

namespace Expr

variable {K : Type} [Scalar K]

/-- Nodes seen for the first time are marked and put on the stack. -/
def pushUnseen (seen : Std.HashSet (Expr K)) (stack : List (Expr K)) :
    List (Expr K) → Std.HashSet (Expr K) × List (Expr K)
  | [] => (seen, stack)
  | e :: es =>
    if seen.contains e then pushUnseen seen stack es
    else pushUnseen (seen.insert e) (e :: stack) es

/-- The work left: each entry of the stack counts with all of its descendants. -/
noncomputable def stackSize : List (Expr K) → Nat
  | [] => 0
  | e :: stack => sizeOf e + stackSize stack

/-- Entries pushed onto a stack add at most their own sizes to the work. -/
theorem stackSize_pushUnseen (seen : Std.HashSet (Expr K)) (stack es : List (Expr K)) :
    stackSize (pushUnseen seen stack es).2 ≤ stackSize stack + stackSize es := by
  induction es generalizing seen stack with
  | nil => simp [pushUnseen, stackSize]
  | cons e es ih =>
    unfold pushUnseen
    split
    · have := ih seen stack
      simp only [stackSize] at this ⊢
      omega
    · have := ih (seen.insert e) (e :: stack)
      simp only [stackSize] at this ⊢
      omega

omit [Scalar K] in
theorem stackSize_append (as bs : List (Expr K)) : stackSize (as ++ bs) = stackSize as + stackSize bs := by
  induction as with
  | nil => simp [stackSize]
  | cons a as ih => simp only [List.cons_append, stackSize, ih]; omega

omit [Scalar K] in
theorem stackSize_reverse (es : List (Expr K)) : stackSize es.reverse = stackSize es := by
  induction es with
  | nil => rfl
  | cons e es ih => simp only [List.reverse_cons, stackSize_append, stackSize, ih]; omega

omit [Scalar K] in
/-- The children of a node together are smaller than the node. -/
theorem stackSize_children_lt (e : Expr K) : stackSize e.children < sizeOf e := by
  have hlist : ∀ es : List (Expr K), stackSize es < sizeOf es := by
    intro es
    induction es with
    | nil => simp [stackSize]
    | cons e es ih => simp only [stackSize, List.cons.sizeOf_spec]; omega
  cases e <;> simp only [stackSize, children]
  case call args => have := hlist args; simp only [call.sizeOf_spec]; omega
  case listTensor es => have := hlist es; simp only [listTensor.sizeOf_spec]; omega
  case concatenate es => have := hlist es; simp only [concatenate.sizeOf_spec]; omega
  case access name shape dims =>
    have : 0 < sizeOf dims := by cases dims <;> simp only [List.nil.sizeOf_spec, List.cons.sizeOf_spec] <;> omega
    simp only [var.sizeOf_spec, access.sizeOf_spec]
    omega
  all_goals
    simp only [binary.sizeOf_spec, conditional.sizeOf_spec, negation.sizeOf_spec, indexed.sizeOf_spec,
      componentTensor.sizeOf_spec, indexSum.sizeOf_spec, zero.sizeOf_spec, identity.sizeOf_spec,
      literal.sizeOf_spec, var.sizeOf_spec, failure.sizeOf_spec, delta.sizeOf_spec]
    omega

/-- Visit the nodes on the stack and what becomes reachable from them. -/
def traverse (seen : Std.HashSet (Expr K)) (visited : Array (Expr K)) :
    List (Expr K) → Array (Expr K)
  | [] => visited
  | e :: stack =>
    let next := pushUnseen seen stack e.children.reverse
    traverse next.1 (visited.push e) next.2
termination_by stack => stackSize stack
decreasing_by
  have h1 := stackSize_pushUnseen seen stack e.children.reverse
  have h2 := stackSize_children_lt e
  rw [stackSize_reverse] at h1
  simp only [stackSize]
  omega

/-- The distinct nodes reachable from the roots. The last distinct root comes first; below a node its children
come from left to right. -/
def traversal (roots : List (Expr K)) : List (Expr K) :=
  let start := pushUnseen ∅ [] roots
  (traverse start.1 #[] start.2).toList

/-- How often each node is referred to: as a root and as a child of a distinct reachable node. -/
abbrev RefCount (K : Type) [Scalar K] := Std.HashMap (Expr K) Nat

def RefCount.addAll (counts : RefCount K) (es : List (Expr K)) : RefCount K :=
  es.foldl (fun m e => m.insert e (m.getD e 0 + 1)) counts

def refCount (roots : List (Expr K)) : RefCount K :=
  (traversal roots).foldl (fun m e => m.addAll e.children) (RefCount.addAll ∅ roots)

end Expr

end FormCompiler
