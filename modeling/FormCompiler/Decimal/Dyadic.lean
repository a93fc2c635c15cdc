/-!
# Dyadic numbers

The exact value of a finite double, as a signed whole number times a power of two, and division of whole
numbers rounded to the nearest, a half to the even neighbour. Decimal text is decided on these, so that
no rounding of the machine's own reaches it.
-/

namespace FormCompiler.Decimal

/-- The number `± mantissa * 2 ^ exponent`. -/
structure Dyadic where
  negative : Bool
  mantissa : Nat
  exponent : Int
  deriving Repr

/-- The exact value of a double, none for infinities and what is not a number. -/
def Dyadic.ofFloat? (x : Float) : Option Dyadic :=
  let bits : Nat := x.toBits.toNat
  let negative : Bool := bits / Nat.pow 2 63 == 1
  let biased : Nat := bits / Nat.pow 2 52 % Nat.pow 2 11
  let fraction : Nat := bits % Nat.pow 2 52
  if biased = 2047 then none
  else if biased = 0 then some ⟨negative, fraction, -1074⟩
  else some ⟨negative, Nat.pow 2 52 + fraction, Int.ofNat biased - 1075⟩

/-- Numerator of the magnitude in lowest power of two. -/
def Dyadic.numerator (d : Dyadic) : Nat := d.mantissa * Nat.pow 2 d.exponent.toNat

def Dyadic.denominator (d : Dyadic) : Nat := Nat.pow 2 (-d.exponent).toNat

/-- The quotient nearest to `n / d`, a half to the even neighbour. -/
def roundDiv (n d : Nat) : Nat :=
  let q := n / d
  let r := n % d
  if 2 * r < d then q
  else if 2 * r > d then q + 1
  else if q % 2 = 0 then q else q + 1

/-- The number of decimal digits of `n`, one for zero. -/
def digitCount (n : Nat) : Nat := (Nat.toDigits 10 n).length

/-- `n * 10 ^ k`, for negative `k` the fraction's two parts. -/
def scale (n d : Nat) (k : Int) : Nat × Nat := (n * Nat.pow 10 k.toNat, d * Nat.pow 10 (-k).toNat)

/-- The exponent of the leading decimal digit of the positive fraction `n / d`. -/
def leadingExponent (n d : Nat) : Int :=
  let guess : Int := (digitCount n : Int) - (digitCount d : Int)
  let (a, b) := scale n d (-guess)
  if b ≤ a then guess else guess - 1

end FormCompiler.Decimal
