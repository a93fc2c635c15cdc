/-!
# Scalars

Tensor expressions are built over a type of numbers that this class describes. The program runs over
double precision; what it computes in exact arithmetic is said over other instances. Two notions of
equality are kept apart: `equal` is numeric equality, under which a value that is not a number differs
from itself, and `same` is the equality by which literals are recognised, which every value has to itself.
-/

namespace FormCompiler

/-- The outcome of folding a power of two constants. -/
inductive Power (K : Type) where
  | value (x : K)
  /-- The result is too large to be written. -/
  | overflow
  /-- A negative base has a fractional exponent. -/
  | notReal

/-- The six ways in which numbers are compared. -/
inductive Comparison where
  | less | lessEq | equal | notEqual | greater | greaterEq
  deriving DecidableEq, Hashable, Repr

/-- The numbers over which expressions are built. -/
class Scalar (K : Type) where
  zero : K
  one : K
  ofInt : Int → K
  add : K → K → K
  sub : K → K → K
  mul : K → K → K
  div : K → K → K
  abs : K → K
  foldPower : K → K → Power K
  /-- Power as it is computed on arrays of values. -/
  power : K → K → K
  /-- The natural logarithm, none outside its domain. -/
  log? : K → Option K
  /-- The nearest multiple of a tenth, a half to the even neighbour. -/
  roundTenth : K → K
  less : K → K → Bool
  equal : K → K → Bool
  isNaN : K → Bool
  same : K → K → Bool
  same_self : ∀ x, same x x = true
  /-- A fingerprint that values which are the same share. -/
  digest : K → UInt64

namespace Scalar

variable {K : Type} [Scalar K]

def compare (c : Comparison) (a b : K) : Bool :=
  match c with
  | .less => less a b
  | .lessEq => less a b || equal a b
  | .equal => equal a b
  | .notEqual => !equal a b
  | .greater => less b a
  | .greaterEq => less b a || equal a b

/-- The smaller of two values; the first unless the second is less. -/
def minimum (a b : K) : K := if less b a then b else a

/-- The larger of two values; the first unless the second is greater. -/
def maximum (a b : K) : K := if less a b then b else a

/-- The value of a truth in a table of numbers. -/
def ofBool (b : Bool) : K := if b then one else zero

/-- Is the value zero, of either sign? -/
def isZero (x : K) : Bool := equal x zero

end Scalar

end FormCompiler
