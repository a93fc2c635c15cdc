import FormCompiler.Grouping
import FormCompiler.Schedule.Operation

/-!
# Loop trees

Operations in order, gathered into loops: neighbours with the same outer index share a loop. Places that only hold an
expression are left out, and so are loops without operations.
-/

namespace FormCompiler

inductive Statement (K : Type) where
  | run (op : Operation K)
  | loop (index : Index) (body : List (Statement K))

namespace Statement

variable {K : Type}

mutual

def operations : Statement K → List (Operation K)
  | .run op => [op]
  | .loop _ body => operationsOf body

/-- The operations of a block from left to right. -/
def operationsOf : List (Statement K) → List (Operation K)
  | [] => []
  | s :: ss => s.operations ++ operationsOf ss

end

abbrev Pending (K : Type) := List Index × Operation K

/-- The statements of a run of operations with the same outer index, given how the inner ones are made. -/
def ofRun (inner : List (Pending K) → List (Statement K)) (ops : List (Pending K)) : List (Statement K) :=
  match ops with
  | ([], _) :: _ => ops.filterMap fun p => if p.2.isHold then none else some (.run p.2)
  | (i :: _, _) :: _ =>
    match inner (ops.map fun p => (p.1.drop 1, p.2)) with
    | [] => []
    | body => [.loop i body]
  | [] => []

/-- Operations gathered into loops, at most `depth` deep. -/
def gather : Nat → List (Pending K) → List (Statement K)
  | 0, ops => ops.filterMap fun p => if p.2.isHold then none else some (.run p.2)
  | depth + 1, ops => (ops.splitBy fun a b => a.1.head? == b.1.head?).flatMap (ofRun (gather depth))

def ofOperations (order : IndexOrder) (ops : List (Operation K)) : Build (List (Statement K)) := do
  let pending ← ops.mapM fun op => do return (← order.loops op.loopExpr, op)
  let depth := pending.foldl (fun acc p => max acc p.1.length) 0
  return gather (depth + 1) pending

end Statement

end FormCompiler
