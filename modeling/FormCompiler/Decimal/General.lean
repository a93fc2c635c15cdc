import FormCompiler.Decimal.Shortest

/-!
# Decimal text of a given precision

A number in the general notation of a given number of significant digits, zeros at the end dropped, and a
number rounded to one decimal place. Both round the exact value, a half to the even neighbour.
-/

namespace FormCompiler.Decimal

/-- The value rounded to `p` significant digits, as digits and the exponent of the last one. -/
def significant (p : Nat) (n d : Nat) : Nat × Int :=
  let lead := leadingExponent n d
  let last : Int := lead - (p : Int) + 1
  let (a, b) := scale n d (-last)
  let q := roundDiv a b
  if digitCount q > p then (q / 10, last + 1) else (q, last)

/-- Drop a point and zeros at the end of the fraction. -/
def trimFraction (s : String) : String :=
  if s.any (· == '.') then
    let cs := (s.toList.reverse.dropWhile (· == '0'))
    let cs := match cs with
      | '.' :: rest => rest
      | other => other
    String.ofList cs.reverse
  else s

/-- General notation with `precision` significant digits: positional while the leading exponent is at least -4
and below the precision, scientific otherwise. -/
def general (precision : Nat) (x : Float) : String :=
  let p := max precision 1
  match Dyadic.ofFloat? x with
  | none => if x.isNaN then "nan" else if x > 0.0 then "inf" else "-inf"
  | some d =>
    let sign := if d.negative then "-" else ""
    if d.mantissa = 0 then sign ++ "0"
    else
      let (n, last) := significant p d.numerator d.denominator
      let lead : Int := last + (digitCount n : Int) - 1
      if -4 ≤ lead ∧ lead < (p : Int) then sign ++ trimFraction (positional n last)
      else
        let (n, last) := stripZeros 400 n last
        sign ++ scientific n last

/-- The double nearest to the value rounded to one decimal place. -/
def roundOnePlace (x : Float) : Float :=
  match Dyadic.ofFloat? x with
  | none => x
  | some d =>
    let tenths := roundDiv (d.numerator * 10) d.denominator
    let r := Float.ofScientific tenths true 1
    if d.negative then -r else r

end FormCompiler.Decimal
