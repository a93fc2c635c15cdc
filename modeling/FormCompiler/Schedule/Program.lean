import FormCompiler.Rewrite.Local
import FormCompiler.Rewrite.Substitution
import FormCompiler.Schedule.Emit
import FormCompiler.Schedule.LoopTree

/-!
# Loop programs

A list of assignments becomes a loop tree with temporaries. A temporary is declared in the innermost block that holds
all references to it, with a dimension for each loop that it has to outlive.
-/

namespace FormCompiler

variable {K : Type} [Scalar K]

/-- A loop tree with its temporaries: where each is declared, and the indices it keeps. -/
structure Program (K : Type) where
  tree : List (Statement K)
  temporaries : List (Expr K)
  /-- The temporaries that blocks declare, by the path of loops to the block. -/
  declared : List (List Nat × List (Expr K))
  /-- The indices of each temporary that loops outside its block do not fix. -/
  kept : List (Expr K × List Index)

namespace Program

/-- Expressions with how often they are referred to. -/
abbrev Tally (K : Type) [Scalar K] := Std.HashMap (Expr K) Nat

/-- Count one more reference. -/
def Tally.add (t : Tally K) (e : Expr K) (n : Nat := 1) : Tally K := t.insert e (t.getD e 0 + n)

/-- Add the counts of another tally. -/
def Tally.merge (t u : Tally K) : Tally K := u.fold (fun acc e n => acc.add e n) t

/-- Count references to temporaries below an expression, not looking into temporaries. -/
def countStep (temporaries : Std.HashMap (Expr K) Nat) : Expr.Step K (StateM (Tally K)) Unit := fun e self => do
  if temporaries.contains e then modify fun t => t.add e
  else let _ ← Expr.mapChildren e self

def countRefs (temporaries : Std.HashMap (Expr K) Nat) (e : Expr K) (t : Tally K) : Tally K :=
  (Expr.recurse (countStep temporaries) e t).2

def countTop (temporaries : Std.HashMap (Expr K) Nat) (e : Expr K) (t : Tally K) : Tally K :=
  let t := if temporaries.contains e then t.add e else t
  e.children.foldl (fun t c => countRefs temporaries c t) t

def references (temporaries : Std.HashMap (Expr K) Nat) : Operation K → Tally K
  | .initialise s => Tally.add ∅ s
  | .accumulate s => countTop temporaries s ∅
  | .evaluate e => countTop temporaries e ∅
  | .give _ e => countRefs temporaries e ∅
  | .giveSum _ s => countRefs temporaries (Operation.summand s) ∅
  | .hold _ => ∅

/-! ## Temporaries -/

/-- Drop computations of scalars that are used once, unless that would move them into an inner loop. -/
def inlineTemporaries (roots : List (Expr K)) (ops : List (Operation K)) : List (Operation K) :=
  let counts := Expr.refCount roots
  let once : Std.HashSet (Expr K) := ops.foldl (fun acc op => match op with
    | .evaluate e => if e.shape.isEmpty && counts.getD e 0 == 1 then acc.insert e else acc
    | _ => acc) ∅
  let outer := fun (child parent : Expr K) =>
    Indices.subset child.freeIndices parent.freeIndices && child.freeIndices != parent.freeIndices
  let inlined := (Expr.traversal roots).foldl (fun acc e =>
    e.children.foldl (fun acc c => if outer c e then acc.erase c else acc) acc) once
  ops.filter fun
    | .evaluate e => !inlined.contains e
    | _ => true

/-- The expressions that get temporaries, in the order in which they are computed. -/
def temporariesOf (ops : List (Operation K)) : List (Expr K) :=
  ops.filterMap fun
    | .accumulate s => some s
    | .evaluate e => some e
    | _ => none

/-! ## Declarations -/

/-- What is found while a tree is visited: declarations of blocks, and the indices of temporaries. -/
structure Placement (K : Type) where
  declared : List (List Nat × List (Expr K)) := []
  kept : List (Expr K × List Index) := []

/-- What placing needs to know: the numbers of the temporaries, all references, and the order of loops. -/
structure PlacementFrame (K : Type) [Scalar K] where
  numbering : Std.HashMap (Expr K) Nat
  total : Tally K
  order : IndexOrder

/-- Declare in a block the temporaries to which all references lie within it; the others are left over. -/
def declareIn (frame : PlacementFrame K) (path : List Nat) (loops : List Index) (found : Tally K) :
    StateT (Placement K) Build (Tally K) := do
  let sorted := found.toList.mergeSort fun a b => frame.numbering.getD a.1 0 ≤ frame.numbering.getD b.1 0
  let complete := sorted.filter fun (e, n) => n == frame.total.getD e 0
  let mut declared := []
  for (e, _) in complete do
    let own ← liftM (frame.order.loops e)
    liftM (Build.require (loops == own.take loops.length))
    let kept := own.drop loops.length
    modify fun p => { p with kept := p.kept ++ [(e, kept)] }
    if !kept.isEmpty then declared := declared ++ [e]
  modify fun p => { p with declared := p.declared ++ [(path, declared)] }
  return complete.foldl (fun acc (e, _) => acc.erase e) found

mutual

/-- Place declarations below a statement; the references that are left over. -/
def placeStatement (frame : PlacementFrame K) (path : List Nat) (loops : List Index) :
    Statement K → StateT (Placement K) Build (Tally K)
  | .run op => return references frame.numbering op
  | .loop i body => do
    let found ← placeAll frame path 0 (loops ++ [i]) body ∅
    declareIn frame path (loops ++ [i]) found

/-- Place declarations below the statements of a block; adds up the references. -/
def placeAll (frame : PlacementFrame K) (path : List Nat) (n : Nat) (loops : List Index) :
    List (Statement K) → Tally K → StateT (Placement K) Build (Tally K)
  | [], found => return found
  | s :: ss, found => do
    let here ← placeStatement frame (path ++ [n]) loops s
    placeAll frame path (n + 1) loops ss (found.merge here)

end

/-- Find where temporaries are declared and which indices they keep. -/
def place (tree : List (Statement K)) (temporaries : List (Expr K)) (order : IndexOrder) :
    Build (Placement K) := do
  let numbering : Std.HashMap (Expr K) Nat := temporaries.zipIdx.foldl (fun m (t, n) => m.insert t n) ∅
  Build.require (numbering.size == temporaries.length)
  let distinctOps := distinct (Statement.operationsOf tree)
  let total : Tally K := distinctOps.foldl (fun acc op => acc.merge (references numbering op)) ∅
  Build.require (total.size == temporaries.length && temporaries.all total.contains)
  let frame : PlacementFrame K := ⟨numbering, total, order⟩
  let rootBlock : StateT (Placement K) Build (Tally K) := do
    let found ← placeAll frame [] 0 [] tree ∅
    declareIn frame [] [] found
  let (rest, placement) ← rootBlock.run {}
  Build.require rest.isEmpty
  return placement

def declaredAt (p : Program K) (path : List Nat) : List (Expr K) :=
  match p.declared.find? fun d => d.1 == path with
  | some (_, es) => es
  | none => []

def keptIndices? (p : Program K) (e : Expr K) : Option (List Index) :=
  (p.kept.find? fun k => k.1 == e).map Prod.snd

def declares (p : Program K) : Operation K → Bool
  | .evaluate e | .initialise e => p.keptIndices? e == some []
  | _ => false

/-! ## Compilation -/

/-- The indices at which entries are taken, in the order of a traversal. -/
def usedIndices (roots : List (Expr K)) : List Index :=
  distinct ((Expr.traversal roots).flatMap fun e => (e.indexOrder?).getD [])

/-- The program that computes assignments. Loops of the given indices come first. -/
def compile (assignments : List (Expr K × Expr K)) (outer : List Index) (removeZeros : Bool := false) :
    Build (Program K) := do
  let assignments := if removeZeros then assignments.filter fun a => !a.2.isZero else assignments
  let roots := assignments.map Prod.snd
  let order := IndexOrder.startingWith outer (usedIndices roots)
  let ops ← Schedule.operations assignments order
  if ops.isEmpty then throw .nothingToDo
  let ops := inlineTemporaries roots ops
  let tree ← Statement.ofOperations order ops
  let temporaries := temporariesOf (distinct (Statement.operationsOf tree))
  let placement ← place tree temporaries order
  return ⟨tree, temporaries, placement.declared, placement.kept⟩

/-- Prepare expressions for compilation: carry out indexings of tensors made of components, and lower deltas. -/
def prepare (es : List (Expr K)) (lowerDeltas inlineComponents : Bool := true) : Build (List (Expr K)) := do
  let es ← if inlineComponents then Rewrite.inlineComponents es else pure es
  if lowerDeltas then Rewrite.lowerDeltas es else pure es

end Program

end FormCompiler
