import FormCompiler.Proofs.Exact

/-!
# Rational numbers

Rational numbers are computed exactly. A power with a fractional exponent counts as zero.
-/

namespace FormCompiler

/-- The power with a whole exponent. -/
def wholePower (a b : ℚ) : ℚ := if b.den = 1 then a ^ b.num else 0

instance : Scalar ℚ where
  zero := 0
  one := 1
  ofInt := fun n => n
  add := (· + ·)
  sub := (· - ·)
  mul := (· * ·)
  div := (· / ·)
  abs := fun a => |a|
  foldPower := fun a b => .value (wholePower a b)
  power := wholePower
  log? := fun _ => none
  roundTenth := fun a => a
  less := fun a b => decide (a < b)
  equal := fun a b => decide (a = b)
  isNaN := fun _ => false
  same := fun a b => decide (a = b)
  same_self := fun a => decide_eq_true rfl
  digest := fun a => mixHash (hash a.num) (hash a.den)

instance : Exact ℚ where
  zero_eq := rfl
  one_eq := rfl
  add_eq _ _ := rfl
  mul_eq _ _ := rfl
  div_eq _ _ := rfl
  equal_iff _ _ := decide_eq_true_iff
  same_iff _ _ := decide_eq_true_iff
  isNaN_eq _ := rfl
  foldPower_eq h := by
    cases h
    rfl
  zero_power {b} h := by
    change wholePower 0 b = 0
    unfold wholePower
    split
    · exact zero_zpow _ (Rat.num_ne_zero.2 h)
    · rfl
  power_zero {a} _ := by
    change wholePower a 0 = 1
    simp [wholePower]

end FormCompiler
