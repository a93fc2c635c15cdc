import FormCompiler.Monomial.Basic
import FormCompiler.Rewrite.Contraction

/-!
# Expansion into monomials

A classification of expressions says which are atomic, which are compound and have to be broken up, and which do not
matter. An expression is expanded by the distributive law until no compound factor is left.
-/

namespace FormCompiler

namespace Monomial

variable {K : Type} [Scalar K]

/-- How an expression takes part in an expansion. -/
inductive Role where
  /-- Need not be broken up. -/
  | atomic
  /-- Must be broken up. -/
  | compound
  | other
  /-- No known role. -/
  | unknown
  deriving DecidableEq, Repr

/-- Sums kept by expression, and the names that indices got. -/
structure Collected (K : Type) [Scalar K] where
  sums : Std.HashMap (Expr K) (MonomialSum K) := ∅
  names : Rewrite.RenameMap := []

/-- Computations that expand expressions. -/
abbrev Collecting (K : Type) [Scalar K] := StateT (Collected K) Build

/-- The factors of a product by role. -/
structure Sorted (K : Type) where
  atomics : List (Expr K) := []
  compounds : List (Expr K) := []
  others : List (Expr K) := []

def sortByRole (role : Expr K → Role) (terms : List (Expr K)) : Build (Sorted K) :=
  terms.foldlM (fun acc t => match role t with
    | .atomic => return { acc with atomics := acc.atomics ++ [t] }
    | .compound => return { acc with compounds := acc.compounds ++ [t] }
    | .other => return { acc with others := acc.others ++ [t] }
    | .unknown => throw .illegalLabel) {}

/-- Multiply a monomial by common factors. Indices that no atomic depends on are summed over at once. -/
def withCommon (indices : List Index) (common : Sorted K) (m : Monomial K) : Rewrite.Renaming (Monomial K) := do
  let _ ← Rewrite.takeNames indices
  let (own, names) ← Rewrite.takeNames m.sumIndices
  let all := indices ++ own
  let atomics := common.atomics ++ (← liftM (m.atomics.mapM (Rewrite.applyNames names)))
  let shared := fun (i : Index) => atomics.any fun a => a.freeIndices.contains i
  let rest ← liftM (m := Build) do
    Rewrite.sumFactorise (all.filter fun i => !shared i) (common.others ++ [← Rewrite.applyNames names m.rest])
  return ⟨all.filter shared, atomics, rest⟩

def expandSummands (role : Expr K → Role) (expand : Expr K → Collecting K (MonomialSum K)) (c : Expr K) :
    Collecting K (MonomialSum K) := do
  let parts := Rewrite.summands (fun t => role t != .compound) c
  if parts.length ≤ 1 then throw .factorisation
  let expanded ← parts.mapM expand
  liftM (MonomialSum.sum expanded)

def multiplyOut (indices : List Index) (common : Sorted K) (sums : List (MonomialSum K)) : Collecting K (MonomialSum K) := do
  let (product, names) ← liftM (MonomialSum.product sums (← get).names)
  modify fun s => { s with names }
  product.monomials.foldlM (fun acc m => do
    let (m, r) ← liftM ((withCommon indices common m).run { names := (← get).names })
    modify fun s => { s with names := r.names }
    liftM (acc.add m)) ({} : MonomialSum K)

/-- Expand the compound factors of a product, and multiply out. -/
def expandFactors (role : Expr K → Role) (expand : Expr K → Collecting K (MonomialSum K)) (f : Rewrite.Factors K) :
    Collecting K (MonomialSum K) := do
  let common ← liftM (sortByRole role f.terms)
  let sums ← common.compounds.mapM (expandSummands role expand)
  multiplyOut f.sumIndices common sums

/-- Expand an expression of at most the given height; each distinct expression is expanded once. -/
def collectOne (role : Expr K → Role) : Nat → Expr K → Collecting K (MonomialSum K)
  | 0, _ => throw .endless
  | height + 1, e => do
    match (← get).sums[e]? with
    | some s => return s
    | none =>
      let f ← liftM (Rewrite.factors e fun t => role t != .compound)
      let result ← expandFactors role (collectOne role height) f
      modify fun s => { s with sums := s.sums.insert e result }
      return result

/-- The slots at which compound entries of listed tensors are indexed. -/
def slotsToUnroll (role : Expr K → Role) (roots : List (Expr K)) : List (Slot (Expr K)) :=
  (Expr.traversal roots).flatMap fun
    | .indexed (.listTensor shape entries) slots =>
      if role (.indexed (.listTensor shape entries) slots) = .compound then slots else []
    | _ => []

def collect (es : List (Expr K)) (role : Expr K → Role) : Build (List (MonomialSum K)) := do
  let mut es ← Rewrite.inlineComponents es
  let unroll := slotsToUnroll role es
  if !unroll.isEmpty then
    let indices := unroll.filterMap Slot.index?
    es ← Rewrite.inlineComponents (← Rewrite.unrollSums es fun b => indices.contains b.1)
  es ← Rewrite.expandConditionals es fun e => role e = .compound
  let height := es.foldl (fun acc e => max acc e.height) 0
  (es.mapM (collectOne role (height + 1))).run' {}

end Monomial

end FormCompiler
