import FormCompiler.Mode.Factored
import FormCompiler.Mode.Spectral
import FormCompiler.Mode.Tensor

/-!
# Modes

The ways in which integrals are turned into assignments: plainly, with common factors pulled out, with deltas
cancelled and sums factorised, or with the tables of the quadrature points multiplied out.
-/

namespace FormCompiler

/-- How integrals become assignments. -/
inductive Mode where
  | plain | factored | spectral | tensor
  deriving DecidableEq, Repr

namespace Mode

variable {K : Type} [Scalar K]

def ofName (name : String) : Except Error Mode :=
  match name with
  | "vanilla" => .ok .plain
  | "coffee" => .ok .factored
  | "spectral" => .ok .spectral
  | "tensor" => .ok .tensor
  | _ => .error (.invalid s!"Unknown mode: {name}")

def integrals (mode : Mode) (es : List (Expr K)) (quadrature : List Index) (arguments : List (List Index))
    (limit : Option Int) : Build (List (Integral K)) := do
  let sums ← match mode with
    | .plain => do (← unrollShort limit es).mapM (sumQuadrature quadrature)
    | .factored => Factored.integrals es quadrature limit
    | .spectral => Spectral.integrals es quadrature limit
    | .tensor => TensorMode.integrals es quadrature limit
  return sums.map fun e => ⟨e, quadrature, arguments.flatten⟩

/-- The assignments that compute the integrals of each variable, with known splits of indices. -/
def assignments (mode : Mode) (parts : List (Expr K × List (Integral K))) (splits : Concatenation.Splits) :
    Build (Outcome K) := do
  match mode with
  | .plain => splitSums splits parts
  | .factored => (← splitSums splits parts).andThen Factored.assignments
  | .tensor => return (splits, .ok (parts.flatMap fun (v, is) => is.map fun r => (v, r.expression)))
  | .spectral =>
    match ← Concatenation.attempt (parts.forM fun (v, is) => do
        Spectral.checkArguments v is
        let _ ← sumAll (is.map Integral.expression)) with
    | .error e => return (splits, .error e)
    | .ok _ =>
      let quadrature := distinct (parts.flatMap fun p => p.2.flatMap Integral.quadrature)
      (← splitSums splits parts).andThen (Spectral.assignments quadrature)

/-- Are indexings of components still to be carried out after this mode? -/
def inlinesComponents : Mode → Bool
  | .plain | .factored => false
  | .spectral | .tensor => true

def lowersDeltas : Mode → Bool
  | .spectral => false
  | _ => true

end Mode

end FormCompiler
