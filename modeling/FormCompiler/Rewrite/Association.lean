import FormCompiler.Expr.Build
import FormCompiler.Grouping

/-!
# Order of operations

Sums and products of many operands are built from pairs, the cheapest first, where the cost of an operation is the
number of points that its free indices run over. For a product with indices to be summed over, all orders of the
summations are tried.
-/

namespace FormCompiler

namespace Rewrite

variable {K : Type} [Scalar K]

/-- The number of points that indices run over. -/
def pointCount (indices : List Index) : Build Int := do
  return (← indices.mapM Build.knownExtent).foldl (· * ·) 1

def pairCost (a b : Expr K) : Build Int := pointCount (Indices.union a.freeIndices b.freeIndices)

def cheapestPair (operands : List (Expr K)) : Build (Option (Int × Expr K × Expr K)) :=
  (pairs operands).foldlM (fun best (a, b) => do
    let cost ← pairCost a b
    match best with
    | some (least, _) => return if cost < least then some (cost, a, b) else best
    | none => return some (cost, a, b)) none

/-- Join operands, the cheapest pair first, in at most `n` steps; adds up the cost. -/
def joinCheapest (op : Expr K → Expr K → Build (Expr K)) : Nat → List (Expr K) → Int → Build (Expr K × Int)
  | _, [e], cost => return (e, cost)
  | 0, _, _ => throw .malformed
  | n + 1, operands, cost => do
    match ← cheapestPair operands with
    | none => throw .malformed
    | some (least, a, b) =>
      joinCheapest op n (((operands.erase a).erase b) ++ [← op a b]) (cost + least)

/-- Join operands by an associative operator at low cost: the expression and its cost. -/
def associate (op : Expr K → Expr K → Build (Expr K)) (operands : List (Expr K)) : Build (Expr K × Int) := do
  if operands.length > 32 then throw .tooManyOperands
  joinCheapest op operands.length operands 0

/-- Join the members of each group of operands with the same free indices. -/
def joinGroups (op : Expr K → Expr K → Build (Expr K)) (operands : List (Expr K)) : Build (List (Expr K)) :=
  (groupBy (fun e => e.freeIndices) operands).mapM fun (_, members) =>
    match members with
    | [] => throw .malformed
    | first :: rest => rest.foldlM op first

/-- Multiply what depends on an index and sum over it; the rest is kept aside. -/
def contractIndex (state : List (Expr K) × Int) (i : Index) : Build (List (Expr K) × Int) := do
  let (terms, cost) := state
  let (product, joining) ← associate Build.product (terms.filter fun t => t.freeIndices.contains i)
  let term ← Build.sumOver product [i]
  let adding ← pointCount product.freeIndices
  return ((terms.filter fun t => !t.freeIndices.contains i) ++ [term], cost + joining + adding)

/-- The product of the terms, summed over the indices in the given order, with its cost. -/
def contractInOrder (terms : List (Expr K)) (order : List Index) : Build (Expr K × Int) := do
  let (rest, cost) ← order.foldlM contractIndex (terms, 0)
  let (product, joining) ← associate Build.product rest
  return (product, cost + joining)

/-- The product of the factors summed over the indices, at the least cost among all orders of summation. -/
def sumFactorise (sumIndices : List Index) (factors : List (Expr K)) : Build (Expr K) := do
  if factors.isEmpty && sumIndices.isEmpty then return Build.one
  if sumIndices.length > 6 then throw .tooManySumIndices
  let terms ← joinGroups Build.product factors
  let best ← (arrangements sumIndices.length sumIndices).foldlM (fun best order => do
    let (e, cost) ← contractInOrder terms order
    match best with
    | some (_, least) => return if cost < least then some (e, cost) else best
    | none => return some (e, cost)) none
  match best with
  | some (e, _) => return e
  | none => throw .malformed

def makeSum (summands : List (Expr K)) : Build (Expr K) := do
  return (← associate Build.sum (← joinGroups Build.sum summands)).1

/-- The product of expressions, summed over indices, at low cost. -/
def makeProduct (factors : List (Expr K)) (sumIndices : List Index := []) : Build (Expr K) :=
  sumFactorise sumIndices factors

end Rewrite

end FormCompiler
