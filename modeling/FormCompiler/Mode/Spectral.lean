import FormCompiler.Mode.Integral

/-!
# Spectral mode

Monomials are freed of deltas, which may turn indices of the variable into others, and their sums are factorised
index by index.
-/

namespace FormCompiler

namespace Mode

namespace Spectral

variable {K : Type} [Scalar K]

def integrals (es : List (Expr K)) (quadrature : List Index) (limit : Option Int) : Build (List (Expr K)) := do
  let es ← unrollShort limit (← Rewrite.reciprocals es)
  es.mapM (sumQuadrature quadrature)

/-! ## Deltas of a monomial -/

/-- A monomial that is added to a variable. -/
structure Term (K : Type) where
  variable_ : Expr K
  monomial : Monomial K

/-- Carry out indexings of components in all factors but the last. -/
def pruneFirst (factors : List (Expr K)) : Build (List (Expr K)) := do
  let first ← Rewrite.inlineComponents factors.dropLast
  return first ++ factors.getLast?.toList

/-- Cancel the deltas of a monomial against its sum indices and against the indices of the variable. -/
def eliminateDeltas (target : Expr K) (m : Monomial K) : Build (Term K) := do
  let factors := m.atomics ++ [target, m.rest]
  let (sumIndices, factors) ← Rewrite.eliminateDeltas m.sumIndices factors
  let factors ← pruneFirst factors
  let (own, factors) ← Rewrite.eliminateDeltas target.freeIndices factors
  let factors ← pruneFirst factors
  match factors.reverse with
  | rest :: target :: args =>
    Build.require (Indices.ofList own == target.freeIndices)
    return ⟨target, ⟨sumIndices, args.reverse.filter (· != Build.one), rest⟩⟩
  | _ => throw .outOfRange

/-! ## Sum factorisation -/

/-- A monomial split at the tail indices: the outer indices and atomics, and what depends on the tail. -/
def splitTail (tail : List Index) (m : Monomial K) : (List Index × List (Expr K)) × Monomial K :=
  let inner := m.sumIndices.filter tail.contains
  let innerAtomics := m.atomics.filter fun a => Indices.meet inner a.freeIndices
  let outerAtomics := m.atomics.filter fun a => !innerAtomics.contains a
  ((m.sumIndices.filter fun i => !tail.contains i, outerAtomics), ⟨inner, innerAtomics, m.rest⟩)

/-- The indices of a variable in the order in which it uses them. -/
def variableOrder (target : Expr K) : Build (List Index) :=
  match target.indexOrder? with
  | some is => return is
  | none => throw .absent

/-- Factorise a sum of monomials, the sums over the tail indices innermost and one by one. -/
def sumFactorise (target : Expr K) : List Index → List (Monomial K) → Build (Expr K)
  | [], ms => do Monomial.optimisedExpr ms (← variableOrder target)
  | i :: tail, ms => do
    let parts := ms.map (splitTail (i :: tail))
    let sums ← (groupBy Prod.fst parts).mapM fun (key, members) => do
      let sum ← members.foldlM (fun (s : MonomialSum K) p => s.add p.2) {}
      return (key, sum)
    let total ← sums.foldlM (fun (s : MonomialSum K) ((indices, atomics), inner) => do
      s.add ⟨indices, atomics, ← sumFactorise target tail inner.monomials⟩) {}
    Monomial.optimisedExpr total.monomials (← variableOrder target)

/-! ## Assignments -/

/-- The argument indices of integrals, which must be those of the variable and of all integrals. -/
def checkArguments (target : Expr K) (integrals : List (Integral K)) : Build Unit := do
  let [arguments] := distinct (integrals.map Integral.arguments) | throw .malformed
  Build.require (target.freeIndices == Indices.ofList arguments)
  Build.require (integrals.all fun r => Indices.subset r.expression.freeIndices arguments)

/-- Sums of monomials by variable, in the order in which variables are met. -/
abbrev ByVariable (K : Type) := List (Expr K × MonomialSum K)

def addTerm (t : Term K) : ByVariable K → Build (ByVariable K)
  | [] => do return [(t.variable_, ← MonomialSum.add {} t.monomial)]
  | (v, s) :: rest => do
    if v == t.variable_ then return (v, ← s.add t.monomial) :: rest
    else return (v, s) :: (← addTerm t rest)

/-- The monomials of assignments, free of deltas, by variable. -/
def collectTerms (pairs : List (Expr K × Expr K)) : Build (ByVariable K) :=
  (groupBy (fun (p : Expr K × Expr K) => p.1.freeIndices) pairs).foldlM (fun acc (free, members) => do
    let sums ← Monomial.collect (members.map Prod.snd) (argumentRole free)
    ((members.map Prod.fst).zip sums).foldlM (fun acc (target, s) =>
      s.monomials.foldlM (fun acc m => do addTerm (← eliminateDeltas target m) acc) acc) acc) []

/-- The sum indices of monomials in the order of factorisation: short ones first. -/
def tailOrder (quadrature : List Index) (ms : List (Monomial K)) : Build (List Index) := do
  let used := quadrature.filter fun i => ms.any fun m => m.sumIndices.contains i
  let keyed ← used.mapM fun i => do return (← Build.extent i, i)
  if used.length > 1 && keyed.any fun p => p.1.isNone then throw .unsupported
  return (keyed.mergeSort fun a b => a.1.getD 0 ≤ b.1.getD 0).map Prod.snd

def assignments (quadrature : List Index) (pairs : List (Expr K × Expr K)) : Build (List (Expr K × Expr K)) := do
  (← collectTerms pairs).mapM fun (target, s) => do
    let tail ← tailOrder quadrature s.monomials
    return (target, ← sumFactorise target tail s.monomials)

end Spectral

end Mode

end FormCompiler
