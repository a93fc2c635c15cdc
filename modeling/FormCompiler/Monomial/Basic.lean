import FormCompiler.Grouping
import FormCompiler.Rewrite.Product

/-!
# Sums of monomials

A monomial is a product with some distinguished factors, its atomics, summed over indices. In a sum of monomials
those with the same indices and the same atomics, in any order, are one.
-/

namespace FormCompiler

variable {K : Type} [Scalar K]

/-- The product of the atomics and the rest, summed over the indices. -/
structure Monomial (K : Type) where
  sumIndices : List Index
  atomics : List (Expr K)
  rest : Expr K

namespace Monomial

def sameMembers {α : Type} [BEq α] : List α → List α → Bool
  | [], bs => bs.isEmpty
  | a :: as, bs => bs.contains a && sameMembers as (bs.erase a)

/-- Do the monomials differ in nothing but the rest? -/
def similar (m n : Monomial K) : Bool :=
  Indices.ofList m.sumIndices == Indices.ofList n.sumIndices && m.atomics.length == n.atomics.length &&
    sameMembers m.atomics n.atomics

end Monomial

/-- A sum of monomials, no two of which are similar, in the order in which they were added. -/
structure MonomialSum (K : Type) where
  monomials : List (Monomial K) := []

namespace MonomialSum

/-- Add a monomial to those of a list: similar ones become one. -/
def addTo (m : Monomial K) : List (Monomial K) → Build (List (Monomial K))
  | [] => do return [{ m with rest := ← Build.sum Build.zero m.rest }]
  | n :: rest => do
    if n.similar m then return { n with rest := ← Build.sum n.rest m.rest } :: rest
    else return n :: (← addTo m rest)

def add (s : MonomialSum K) (m : Monomial K) : Build (MonomialSum K) := do
  Build.require (m.sumIndices.length == (Indices.ofList m.sumIndices).length)
  return ⟨← addTo m s.monomials⟩

def sum (args : List (MonomialSum K)) : Build (MonomialSum K) := do
  return ⟨← args.foldlM (fun acc s => s.monomials.foldlM (fun acc m => addTo m acc) acc) []⟩

/-- The product of monomials; indices that clash are renamed. -/
def multiply (ms : List (Monomial K)) : Rewrite.Renaming (Monomial K) :=
  ms.foldlM (fun acc m => do
    let (indices, names) ← Rewrite.takeNames m.sumIndices
    let atomics ← liftM (m.atomics.mapM (Rewrite.applyNames names))
    let rest ← liftM (m := Build) do Build.product (← Rewrite.applyNames names m.rest) acc.rest
    return ⟨acc.sumIndices ++ indices, acc.atomics ++ atomics, rest⟩) ⟨[], [], Build.one⟩

/-- The product of sums, expanded, with the names that indices got. -/
def product (args : List (MonomialSum K)) (names : Rewrite.RenameMap := []) :
    Build (MonomialSum K × Rewrite.RenameMap) :=
  (choices (args.map monomials)).foldlM (fun (acc, names) ms => do
    let (m, r) ← (multiply ms).run { names }
    return (← acc.add m, r.names)) ({}, names)

end MonomialSum

end FormCompiler
