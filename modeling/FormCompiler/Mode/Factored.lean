import FormCompiler.Mode.Integral

/-!
# Factored mode

Expressions are expanded into monomials of their argument indices, and common factors are pulled out.
-/

namespace FormCompiler

namespace Mode

variable {K : Type} [Scalar K]

/-- Factorise expressions by argument indices, unless one of them holds a failure. -/
def optimiseExpressions (es : List (Expr K)) (arguments : List Index) : Build (List (Expr K)) := do
  let fails := (Expr.traversal es).any fun
    | .failure _ _ _ _ => true
    | _ => false
  if fails then return es
  let sums ← Monomial.collect es (argumentRole arguments)
  sums.mapM fun s => Monomial.optimisedExpr s.monomials arguments

namespace Factored

def integrals (es : List (Expr K)) (quadrature : List Index) (limit : Option Int) : Build (List (Expr K)) := do
  let es ← unrollShort limit es
  Rewrite.reciprocals (← es.mapM (sumQuadrature quadrature))

/-- Factorise assignments, those to variables with the same indices together. -/
def assignments (pairs : List (Expr K × Expr K)) : Build (List (Expr K × Expr K)) := do
  let groups ← (groupBy (fun (p : Expr K × Expr K) => p.1.freeIndices) pairs).mapM fun (arguments, members) => do
    let es ← optimiseExpressions (members.map Prod.snd) arguments
    return (members.map Prod.fst).zip es
  return groups.flatten

end Factored

end Mode

end FormCompiler
