import FormCompiler.Schedule.Operation
import FormCompiler.Schedule.Queue

/-!
# The order of operations

The operations of a kernel are found backwards, from what it returns to what is needed for it. An expression is ready
once all that refers to it has been scheduled. The queue keeps operations with the same loops together.
-/

namespace FormCompiler

namespace Schedule

variable {K : Type} [Scalar K]

/-- What waits in the queue: an expression to be provided, or an operation. -/
inductive Task (K : Type) where
  | provide (e : Expr K)
  | run (op : Operation K)

/-- The state of scheduling: operations found so far, the last one first, and references still to come. -/
structure State (K : Type) [Scalar K] where
  operations : List (Operation K) := []
  waiting : Expr.RefCount K

abbrev Scheduling (K : Type) [Scalar K] := StateT (Queue Index (Task K)) (StateT (State K) Build)

def emit (op : Operation K) : Scheduling K Unit :=
  modifyThe (State K) fun s => { s with operations := op :: s.operations }

def push (order : IndexOrder) (op : Operation K) : Scheduling K Unit := do
  let loops ← liftM (order.loops op.loopExpr)
  modify fun q => q.insert loops (.run op)

/-- Take away one reference to an expression, which is ready when it was the last. -/
def release (order : IndexOrder) (e : Expr K) : Scheduling K Unit := do
  match (← getThe (State K)).waiting[e]? with
  | none | some 0 => throw (.requirement "")
  | some (n + 1) =>
    modifyThe (State K) fun s => { s with waiting := s.waiting.insert e n }
    if n = 0 then
      let loops ← liftM (order.loops e)
      modify fun q => q.insert loops (.provide e)

/-- Provide an expression. Variables, numbers and indexing need no operation of their own. -/
def provide (order : IndexOrder) (e : Expr K) : Scheduling K Unit := do
  match e with
  | .var _ _ => return
  | .zero _ | .identity _ | .literal _ _ => if !e.shape.isEmpty then emit (.evaluate e)
  | .indexed tensor _ => release order tensor
  | .access name shape _ => release order (.var name shape)
  | .indexSum _ _ =>
    emit (.hold e)
    push order (.accumulate e)
  | e =>
    emit (.evaluate e)
    for c in e.children do release order c

def treat (order : IndexOrder) : Task K → Scheduling K Unit
  | .provide e => provide order e
  | .run op => do
    emit op
    match op with
    | .accumulate s =>
      push order (.initialise s)
      release order (Operation.summand s)
    | .give _ e => release order e
    | .giveSum _ s => release order (Operation.summand s)
    | _ => return

/-- An assignment as an operation. A sum that nothing else refers to is added up in the variable itself. -/
def stage (counts : Expr.RefCount K) (target e : Expr K) : Build (Operation K × Expr.RefCount K) := do
  let alone := counts.getD e 0 == 1 && target.freeIndices == e.freeIndices
  match e with
  | .indexSum _ _ =>
    if alone then return (.giveSum target e, counts.insert e 0)
    else return (← Operation.makeGive target e, counts)
  | _ => return (← Operation.makeGive target e, counts)

def stageAll (counts : Expr.RefCount K) (assignments : List (Expr K × Expr K)) :
    Build (List (Operation K) × Expr.RefCount K) :=
  assignments.foldlM (fun (ops, counts) (target, e) => do
    let (op, counts) ← stage counts target e
    return (ops ++ [op], counts)) ([], counts)

/-- More steps than scheduling can take: each node and each operation passes through the queue once. -/
def stepBound (assignments : List (Expr K × Expr K)) : Nat :=
  8 * ((Expr.traversal (assignments.map Prod.snd)).length + assignments.length + 1)

/-- The operations that compute the assignments, in the order in which they run. -/
def operations (assignments : List (Expr K × Expr K)) (order : IndexOrder) : Build (List (Operation K)) := do
  let (staged, counts) ← stageAll (Expr.refCount (assignments.map Prod.snd)) assignments
  let run : Scheduling K Unit := do
    for op in staged do push order op
    Queue.process (treat order) (stepBound assignments)
  let (_, state) ← (run.run' {}).run { waiting := counts }
  Build.require (state.waiting.toList.all fun p => p.2 == 0)
  return state.operations

def operationsOfLeaf (e : Expr K) : Build (List (Operation K)) := do
  let (_, state) ← ((provide [] e).run' {}).run { waiting := ∅ }
  return state.operations

end Schedule

end FormCompiler
