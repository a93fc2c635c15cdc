import FormCompiler.Mode
import FormCompiler.Quadrature

/-!
# Parameters

What a user can ask of the compiler: how integrals are approximated, in which mode they are optimised, up to which
extent sums are written out, and how many digits numbers have. Options of one integral override those of the form.
-/

namespace FormCompiler

inductive RuleChoice where
  /-- One that is exact up to a degree. -/
  | byDegree
  | given (rule : Rule)
  /-- Something that is no rule, by the name of its kind. -/
  | foreign (kind : String)

structure Parameters where
  rule : RuleChoice := .byDegree
  /-- The degree up to which the rule is exact, or none if it is estimated. -/
  degree : Option Degree := none
  mode : String := "spectral"
  unroll : Option Int := some 3
  precision : Int := 15

structure IntegralOptions where
  degree : Option Degree := none
  mode : Option String := none
  unroll : Option (Option Int) := none
  /-- The kind of something that is no rule and stands for one. -/
  foreignRule : Option String := none
  deriving DecidableEq, Repr, Inhabited

namespace Parameters

def withOptions (p : Parameters) (o : IntegralOptions) : Parameters :=
  { p with
    rule := (o.foreignRule.map .foreign).getD p.rule
    degree := o.degree.or p.degree
    mode := o.mode.getD p.mode
    unroll := o.unroll.getD p.unroll }

end Parameters

end FormCompiler
