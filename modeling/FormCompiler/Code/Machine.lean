import FormCompiler.Code.Run
import FormCompiler.Elementary
import FormCompiler.Scalar.Bessel

/-!
# The machine for double precision

The functions that generated code calls, by the names under which code calls them.
-/

namespace FormCompiler

namespace Code

namespace Machine

def unary (name : String) (x : Float) : Option Float :=
  match name with
  | "fabs" => some x.abs
  | "log" => some x.log
  | "sqrt" => some x.sqrt
  | "exp" => some x.exp
  | "sin" => some x.sin
  | "cos" => some x.cos
  | "tan" => some x.tan
  | "sinh" => some x.sinh
  | "cosh" => some x.cosh
  | "tanh" => some x.tanh
  | "asin" => some x.asin
  | "acos" => some x.acos
  | "atan" => some x.atan
  | "erf" => some (Double.erf x)
  | "j0" => some (Double.besselFirst 0 x)
  | "j1" => some (Double.besselFirst 1 x)
  | "y0" => some (Double.besselSecond 0 x)
  | "y1" => some (Double.besselSecond 1 x)
  | _ => none

def binary (name : String) (x y : Float) : Option Float :=
  match name with
  | "pow" => some (x.pow y)
  | "atan2" => some (x.atan2 y)
  | "fmin" => some (if x.isNaN || y < x then y else x)
  | "fmax" => some (if x.isNaN || x < y then y else x)
  | "jn" => some (Double.besselFirst x.toUInt64.toNat y)
  | "yn" => some (Double.besselSecond x.toUInt64.toNat y)
  | "boost::math::cyl_bessel_i" => some (Double.besselModifiedFirst x.toUInt64.toNat y)
  | "boost::math::cyl_bessel_k" => some (Double.besselModifiedSecond x y)
  | _ => none

def double : Machine Float where
  call name args := match args with
    | [x] => unary name x
    | [x, y] => binary name x y
    | _ => none
  position x := if x.isNaN || x < 0.0 then none else some x.toUInt64.toNat

end Machine

end Code

end FormCompiler
