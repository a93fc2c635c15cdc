import FormCompiler.Scalar.Float

/-!
# Elementary functions

The functions of one number that terms can apply. Numbers over which terms are built come with them, so that a function of
a constant is a constant.
-/

namespace FormCompiler

inductive MathFunction where
  | sqrt | exp | ln | cos | sin | tan | cosh | sinh | tanh | acos | asin | atan | erf
  deriving DecidableEq, Hashable, Repr, Inhabited

class Elementary (K : Type) extends Scalar K where
  /-- The value of a function, none outside its domain. -/
  function? : MathFunction → K → Option K
  /-- The angle of a point in the plane, given its second and first coordinate. -/
  angle : K → K → K

namespace Double

/-- The error function by a series of terms of one sign, and one away from zero. -/
def erf (x : Float) : Float :=
  if x.isNaN then x
  else if x.abs > 6.0 then (if x > 0.0 then 1.0 else -1.0)
  else
    let (sum, _) := (List.range 200).foldl (fun ((s, t) : Float × Float) n =>
      let k := Float.ofNat n
      (s + t, t * 2.0 * x * x / (2.0 * k + 3.0))) (0.0, x)
    sum * 1.1283791670955126 * Float.exp (-(x * x))

def function? (f : MathFunction) (x : Float) : Option Float :=
  match f with
  | .sqrt => if x < 0.0 then none else some x.sqrt
  | .exp => some x.exp
  | .ln => if x > 0.0 || x.isNaN then some x.log else none
  | .cos => some x.cos
  | .sin => some x.sin
  | .tan => some x.tan
  | .cosh => some x.cosh
  | .sinh => some x.sinh
  | .tanh => some x.tanh
  | .acos => some x.acos
  | .asin => some x.asin
  | .atan => some x.atan
  | .erf => some (erf x)

instance : Elementary Float where
  function? := function?
  angle := Float.atan2

end Double

end FormCompiler
