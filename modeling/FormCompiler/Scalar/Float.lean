import FormCompiler.Scalar

/-!
# Double precision

The instance the program runs over. Values of equal magnitude and different sign of zero are the same,
and a value that is not a number is the same as one with its bits.
-/

namespace FormCompiler

namespace Double

/-- Nearest integer, a half to the even neighbour. -/
def rint (x : Float) : Float :=
  let f := x.floor
  let d := x - f
  if d < 0.5 then f
  else if d > 0.5 then f + 1.0
  else if d == 0.5 then
    if (f / 2.0).floor * 2.0 == f then f else f + 1.0
  else x

/-- Constants are raised with every exceptional case decided: a fractional power of a negative number is
no real number, and a finite operation with an infinite result has overflowed. -/
def foldPower (b e : Float) : Power Float :=
  if e == 0.0 then .value 1.0
  else if b.isNaN then .value b
  else if e.isNaN then .value (if b == 1.0 then 1.0 else e)
  else if e.isInf || b.isInf then .value (Float.pow b e)
  else if b < 0.0 && e.floor != e then .notReal
  else
    let r := Float.pow b e
    if r.isInf then .overflow else .value r

/-- The sign of a value decides nothing for zeros. -/
def digest (x : Float) : UInt64 :=
  if x == 0.0 then 0 else hash x.toBits

instance : Scalar Float where
  zero := 0.0
  one := 1.0
  ofInt := Float.ofInt
  add := (· + ·)
  sub := (· - ·)
  mul := (· * ·)
  div := (· / ·)
  abs := Float.abs
  foldPower := foldPower
  power := Float.pow
  log? x := if x > 0.0 || x.isNaN then some (Float.log x) else none
  roundTenth x := rint (x * 10.0) / 10.0
  less a b := decide (a < b)
  equal a b := a == b
  isNaN := Float.isNaN
  same a b := a == b || a.toBits == b.toBits
  same_self x := by simp
  digest := digest

end Double

end FormCompiler
