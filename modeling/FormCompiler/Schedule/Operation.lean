import FormCompiler.Expr.Traversal

/-!
# Operations

What a kernel does step by step: it computes expressions into temporaries, starts and adds to sums, and adds to the
variables that it returns. Each operation runs inside the loops of its indices.
-/

namespace FormCompiler

inductive Operation (K : Type) where
  /-- Compute an expression into a temporary. -/
  | evaluate (e : Expr K)
  /-- Start a sum. -/
  | initialise (sum : Expr K)
  /-- Add a summand to a sum. -/
  | accumulate (sum : Expr K)
  /-- Do nothing, but hold the place of an expression. -/
  | hold (e : Expr K)
  /-- Add an expression to a variable. -/
  | give (target e : Expr K)
  /-- Add the summands of a sum to a variable. -/
  | giveSum (target sum : Expr K)

namespace Operation

variable {K : Type} [Scalar K]

def summand : Expr K → Expr K
  | .indexSum body _ => body
  | e => e

def loopExpr : Operation K → Expr K
  | .evaluate e => e
  | .initialise s => s
  | .accumulate s => summand s
  | .hold e => e
  | .give v _ => v
  | .giveSum _ s => summand s

def isHold : Operation K → Bool
  | .hold _ => true
  | _ => false

def same : Operation K → Operation K → Bool
  | .evaluate a, .evaluate b | .initialise a, .initialise b | .accumulate a, .accumulate b | .hold a, .hold b => a == b
  | .give v a, .give w b | .giveSum v a, .giveSum w b => v == w && a == b
  | _, _ => false

instance : BEq (Operation K) := ⟨same⟩

/-- An addition of an expression to a variable that has all its indices. -/
def makeGive (target e : Expr K) : Build (Operation K) := do
  Build.require (Indices.subset e.freeIndices target.freeIndices)
  return .give target e

end Operation

/-! ## Order of indices -/

/-- The order of loops: the earlier index is the outer one. -/
abbrev IndexOrder := List Index

namespace IndexOrder

/-- The position of an index; the last one counts. -/
def position? (order : IndexOrder) (i : Index) : Option Nat :=
  (order.zipIdx.reverse.find? fun p => p.1 == i).map Prod.snd

/-- Indices in the order of loops. -/
def sort (order : IndexOrder) (indices : List Index) : Build (List Index) := do
  let keyed ← indices.mapM fun i =>
    match order.position? i with
    | some n => return (n, i)
    | none => throw .missing
  return (keyed.mergeSort fun a b => a.1 ≤ b.1).map Prod.snd

def loops {K : Type} (order : IndexOrder) (e : Expr K) : Build (List Index) := order.sort e.freeIndices

def startingWith (start rest : List Index) : IndexOrder := start ++ rest.filter fun i => !start.contains i

end IndexOrder

end FormCompiler
