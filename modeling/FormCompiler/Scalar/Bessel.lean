import FormCompiler.Scalar.Float

/-!
# Bessel functions

Bessel functions of whole order, by their integrals. The integrand of the functions of the first kind is periodic and that
of the modified function of the second kind falls off at both ends, so that equally spaced points converge fast. The function
of the second kind is a series of functions of the first kind, and higher orders follow by recurrence.
-/

namespace FormCompiler

namespace Double

/-- The ratio of the circumference of a circle to its diameter. -/
def pi : Float := 3.141592653589793

/-- The limit of the harmonic numbers less the logarithm. -/
def eulerGamma : Float := 0.5772156649015329

/-- The sum of a function over the first whole numbers. -/
def sumTo (n : Nat) (f : Float → Float) : Float :=
  (List.range n).foldl (fun s k => s + f (Float.ofNat k)) 0.0

/-- The mean over equally spaced angles of a function with the period of a full turn. -/
def meanOverTurn (n : Nat) (f : Float → Float) : Float :=
  sumTo n (fun k => f (2.0 * pi * k / Float.ofNat n)) / Float.ofNat n

/-- How many angles resolve a function of an order at an argument. -/
def anglesFor (order : Nat) (x : Float) : Nat := 64 + 2 * order + (4.0 * Float.abs x).toUInt64.toNat

def besselFirst (order : Nat) (x : Float) : Float :=
  meanOverTurn (anglesFor order x) fun t => Float.cos (Float.ofNat order * t - x * Float.sin t)

def besselModifiedFirst (order : Nat) (x : Float) : Float :=
  meanOverTurn (anglesFor order x) fun t => Float.exp (x * Float.cos t) * Float.cos (Float.ofNat order * t)

def besselModifiedSecond (order x : Float) : Float :=
  let step := 0.015625
  let value := fun (k : Float) => Float.exp (-(x * Float.cosh (k * step))) * Float.cosh (order * (k * step))
  step * (sumTo 2000 (fun k => if k == 0.0 then 0.0 else
    let y := value k
    if y.isNaN then 0.0 else y) + 0.5 * value 0.0)

/-- A sign that alternates, plus for the even numbers. -/
def alternating (k : Nat) : Float := if k % 2 == 0 then 1.0 else -1.0

/-- The function of the second kind of order zero and one. -/
def besselSecondPair (x : Float) : Float × Float :=
  let terms := 20 + (Float.abs x).toUInt64.toNat
  let log := Float.log (x / 2.0) + eulerGamma
  let evens := (List.range terms).foldl (fun s n =>
    let k := n + 1
    s + alternating k * besselFirst (2 * k) x / Float.ofNat k) 0.0
  let odds := (List.range terms).foldl (fun s n =>
    let k := n + 1
    s + alternating k * Float.ofNat (2 * k + 1) / Float.ofNat (k * (k + 1)) * besselFirst (2 * k + 1) x) 0.0
  (2.0 / pi * log * besselFirst 0 x - 4.0 / pi * evens,
    2.0 / pi * (log - 1.0) * besselFirst 1 x - 2.0 / (pi * x) * besselFirst 0 x - 2.0 / pi * odds)

def besselSecond (order : Nat) (x : Float) : Float :=
  let start := besselSecondPair x
  ((List.range order).foldl (fun ((a, b) : Float × Float) n =>
    (b, 2.0 * Float.ofNat (n + 1) / x * b - a)) start).1

end Double

end FormCompiler
