import FormCompiler.Concatenation
import FormCompiler.Monomial.Collect
import FormCompiler.Monomial.Factorise

/-!
# Integrals

What all modes share: the summed integrand that stands for an integral, the writing out of short sums, and the role of
an expression in a factorisation by argument indices.
-/

namespace FormCompiler

namespace Mode

variable {K : Type} [Scalar K]

/-- An integral: the summed integrand, the quadrature indices, and the indices of the arguments. -/
structure Integral (K : Type) where
  expression : Expr K
  quadrature : List Index
  arguments : List Index

/-- Write out sums of at most the given extent; none or zero writes out nothing. -/
def unrollShort (limit : Option Int) (es : List (Expr K)) : Build (List (Expr K)) :=
  match limit with
  | none => return es
  | some n => if n = 0 then return es else Rewrite.unrollSums es fun b => b.2 ≤ n

def sumQuadrature (quadrature : List Index) (e : Expr K) : Build (Expr K) :=
  Build.sumFree e (quadrature.map .free)

def sumAll : List (Expr K) → Build (Expr K)
  | [] => throw .unsupported
  | e :: es => es.foldlM Build.sum e

/-- Assignments after splitting, and how indices have been split. -/
abbrev Outcome (K : Type) := Concatenation.Splits × Except Error (List (Expr K × Expr K))

def argumentRole (arguments : List Index) (e : Expr K) : Monomial.Role :=
  match (distinct arguments).countP e.freeIndices.contains with
  | 0 => .other
  | 1 => match e with
    | .delta _ _ | .indexed _ _ => .atomic
    | _ => .compound
  | _ => .compound

/-- Sum up the integrals of each variable and split along concatenations. -/
def splitSums (splits : Concatenation.Splits) (parts : List (Expr K × List (Integral K))) : Build (Outcome K) := do
  let assignments ← Concatenation.attempt (parts.mapM fun (v, integrals) => do
    return (v, ← sumAll (integrals.map Integral.expression)))
  match assignments with
  | .error e => return (splits, .error e)
  | .ok assignments => Concatenation.splitWith splits assignments

/-- Go on with assignments unless they were refused. -/
def Outcome.andThen (outcome : Outcome K) (f : List (Expr K × Expr K) → Build (List (Expr K × Expr K))) :
    Build (Outcome K) := do
  match outcome.2 with
  | .error e => return (outcome.1, .error e)
  | .ok assignments => return (outcome.1, ← Concatenation.attempt (f assignments))

end Mode

end FormCompiler
