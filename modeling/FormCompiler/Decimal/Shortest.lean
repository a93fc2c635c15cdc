import FormCompiler.Decimal.Dyadic

/-!
# Shortest decimal text

The text of a double with the fewest digits that read back as the same double; of two such texts the nearer,
and of two equally near the one with an even last digit. Positional notation is used while the leading
digit's exponent is at least -4 and below 16.
-/

namespace FormCompiler.Decimal

/-- The whole number closest to `n / d` among its two neighbours that lie in the reals rounding to the double,
given as `lo / d ≤ x ≤ hi / d` in quarter units, ends included iff `closed`. -/
def gridHit (n lo hi d : Nat) (closed : Bool) : Option Nat :=
  let within (k : Nat) : Bool :=
    if closed then lo ≤ k * d && k * d ≤ hi else lo < k * d && k * d < hi
  let below := n / d
  let above := below + 1
  match within below, within above with
  | true, true =>
    let r := n % d
    if 2 * r < d then some below
    else if 2 * r > d then some above
    else if below % 2 = 0 then some below else some above
  | true, false => some below
  | false, true => some above
  | false, false => none

/-- Digits and exponent of the last digit: the shortest decimal that reads back as `mantissa * 2 ^ exponent`. -/
def shortestDigits (d : Dyadic) : Nat × Int :=
  -- quarter units give whole ends to the interval of reals that round to the value
  let unit : Dyadic := { d with mantissa := 4, exponent := d.exponent - 2 }
  let scaleBy := unit.mantissa
  let low := if d.mantissa = Nat.pow 2 52 ∧ d.exponent > -1074 then 1 else 2
  let centre := d.mantissa * scaleBy
  let lo := centre - low
  let hi := centre + 2
  let num (m : Nat) : Nat := m * Nat.pow 2 unit.exponent.toNat
  let den : Nat := Nat.pow 2 (-unit.exponent).toNat
  let lead := leadingExponent (num centre) den
  let closed := d.mantissa % 2 = 0
  let attempt (digits : Nat) : Option (Nat × Int) :=
    let last : Int := lead - (digits : Int) + 1
    let up := Nat.pow 10 (-last).toNat
    let down := den * Nat.pow 10 last.toNat
    (gridHit (num centre * up) (num lo * up) (num hi * up) down closed).map (·, last)
  match (List.range 17).findSome? fun k => attempt (k + 1) with
  | some r => r
  | none => (0, 0)

/-- Strip zeros at the end of a positive whole number. -/
def stripZeros (fuel : Nat) (n : Nat) (last : Int) : Nat × Int :=
  match fuel with
  | 0 => (n, last)
  | fuel + 1 => if n % 10 = 0 && n != 0 then stripZeros fuel (n / 10) (last + 1) else (n, last)

/-- An exponent with its sign and at least two digits. -/
def exponentText (e : Int) : String :=
  let digits := toString e.natAbs
  (if e < 0 then "e-" else "e+") ++ (if digits.length < 2 then "0" ++ digits else digits)

/-- The digits of `n` with a point so that the last digit has the exponent `last`, always with a fractional part. -/
def positional (n : Nat) (last : Int) : String :=
  let digits := toString n
  if last ≥ 0 then digits ++ String.ofList (List.replicate last.toNat '0') ++ ".0"
  else
    let places := (-last).toNat
    if digits.length > places then
      let cs := digits.toList
      String.ofList (cs.take (cs.length - places)) ++ "." ++ String.ofList (cs.drop (cs.length - places))
    else "0." ++ String.ofList (List.replicate (places - digits.length) '0') ++ digits

/-- Scientific notation: one digit, a point if more follow, the exponent. -/
def scientific (n : Nat) (last : Int) : String :=
  let cs := (toString n).toList
  let lead : Int := last + (cs.length : Int) - 1
  let mantissa := match cs with
    | [] => "0"
    | [c] => String.ofList [c]
    | c :: rest => String.ofList (c :: '.' :: rest)
  mantissa ++ exponentText lead

/-- The text of a double in the fewest digits that read back. -/
def shortest (x : Float) : String :=
  match Dyadic.ofFloat? x with
  | none => if x.isNaN then "nan" else if x > 0.0 then "inf" else "-inf"
  | some d =>
    let sign := if d.negative then "-" else ""
    if d.mantissa = 0 then sign ++ "0.0"
    else
      let (n, last) := shortestDigits d
      let (n, last) := stripZeros 20 n last
      let lead : Int := last + ((toString n).length : Int) - 1
      sign ++ (if -4 ≤ lead ∧ lead < 16 then positional n last else scientific n last)

end FormCompiler.Decimal
