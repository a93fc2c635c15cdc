import FormCompiler.Monomial.Basic
import FormCompiler.Rewrite.Association

/-!
# Common factors of monomials

Atomics are chosen such that each monomial has one of them, as few as possible and of large extent; monomials that
share a chosen atomic are put together.
-/

namespace FormCompiler

namespace Monomial

variable {K : Type} [Scalar K]

/-- The expression of a list of monomials. Those with the same indices are put under one sum. -/
def toExpr (ms : List (Monomial K)) : Build (Expr K) := do
  let sums ← (groupBy (fun m => Indices.ofList m.sumIndices) ms).mapM fun (_, members) => do
    let products ← members.mapM fun m => Rewrite.makeProduct (m.atomics ++ [m.rest])
    let indices := (members.head?.map sumIndices).getD []
    Build.sumOver (← Rewrite.makeSum products) indices
  Rewrite.makeSum sums

/-- The number of points that the linear indices of an expression run over. -/
def linearExtent (linear : List Index) (e : Expr K) : Build Int :=
  Rewrite.pointCount (e.freeIndices.filter linear.contains)

/-- The cost of a cover: fewer atomics first, then larger extent. -/
def coverCost (linear : List Index) (cover : List (Expr K)) : Build (Nat × Int) := do
  let extents ← cover.mapM (linearExtent linear)
  return (cover.length, -(extents.foldl (· + ·) 0))

/-- The state of the search for a cover: the best so far, and how many covers may still be looked at. -/
structure CoverSearch (K : Type) where
  best : List (Expr K)
  remaining : Nat
  stopped : Bool := false

def searchCovers (linear : List Index) (chosen : List (Expr K)) :
    List (Monomial K) → CoverSearch K → Build (CoverSearch K)
  | [], s => do
    let (n, e) ← coverCost linear chosen
    let (n', e') ← coverCost linear s.best
    let s := if n < n' || (n == n' && e < e') then { s with best := chosen } else s
    if s.remaining = 0 then return { s with stopped := true }
    return { s with remaining := s.remaining - 1 }
  | m :: ms, s => do
    if m.atomics.any chosen.contains then searchCovers linear chosen ms s
    else if chosen.length < s.best.length then
      m.atomics.foldlM (fun s a =>
        if s.stopped then return s
        else searchCovers linear (if chosen.contains a then chosen else chosen ++ [a]) ms s) s
    else return s

/-- Atomics of which each monomial has one, in the order in which they are first met. -/
def optimalAtomics (ms : List (Monomial K)) (linear : List Index) : Build (List (Expr K)) := do
  let atomics := distinct (ms.flatMap atomics)
  let search ← searchCovers linear [] ms { best := atomics, remaining := 4096 }
  return atomics.filter search.best.contains

/-- Put together the monomials that share one of the atomics; `optimise` treats what is left of them. -/
def factoriseWith (optimise : List (Monomial K) → Build (List (Monomial K))) (ms : List (Monomial K))
    (common : List (Expr K)) (linear : List Index) : Build (List (Monomial K)) := do
  if common.isEmpty || ms.length ≤ 1 then return ms
  let keyed ← ms.mapM fun m =>
    match common.find? m.atomics.contains with
    | some a => return (a, m)
    | none => throw (.requirement "Expect at least one optimal atomic per monomial.")
  let indices := (ms.head?.map sumIndices).getD []
  (groupBy Prod.fst keyed).mapM fun (a, members) => do
    let subs ← optimise (members.map fun (_, m) => ⟨[], m.atomics.erase a, m.rest⟩)
    match subs with
    | [sub] => return ⟨indices, a :: sub.atomics, sub.rest⟩
    | subs =>
      let e ← toExpr subs
      if Indices.meet linear e.freeIndices then return ⟨indices, [a, e], Build.one⟩
      else return ⟨indices, [a], e⟩

/-- Factorise monomials with the same indices, `depth` factors deep. -/
def optimiseWithin (linear : List Index) : Nat → List (Monomial K) → Build (List (Monomial K))
  | depth, ms => do
    Build.require ((distinct (ms.map fun m => Indices.ofList m.sumIndices)).length ≤ 1)
      "All monomials required to have same sum indices for factorisation"
    let plain := ms.filter fun m => m.atomics.isEmpty
    let active := ms.filter fun m => !m.atomics.isEmpty
    let common ← optimalAtomics active linear
    match depth with
    | 0 => return plain ++ active
    | depth + 1 => return plain ++ (← factoriseWith (optimiseWithin linear depth) active common linear)

/-- The number of atomics of the longest monomial. -/
def depth (ms : List (Monomial K)) : Nat := ms.foldl (fun acc m => max acc m.atomics.length) 0

def optimise (ms : List (Monomial K)) (linear : List Index) : Build (List (Monomial K)) :=
  optimiseWithin linear (depth ms + 1) ms

/-- Put together the monomials that share one of the given atomics, and factorise what is left of them. -/
def factorise (ms : List (Monomial K)) (common : List (Expr K)) (linear : List Index) : Build (List (Monomial K)) :=
  factoriseWith (optimiseWithin linear (depth ms + 1)) ms common linear

/-- The expression of monomials after factorisation of each group with the same indices. -/
def optimisedExpr (ms : List (Monomial K)) (linear : List Index) : Build (Expr K) := do
  let groups ← (groupBy (fun m => Indices.ofList m.sumIndices) ms).mapM fun (_, members) => optimise members linear
  toExpr groups.flatten

end Monomial

end FormCompiler
