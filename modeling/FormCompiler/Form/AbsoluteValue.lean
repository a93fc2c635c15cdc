import FormCompiler.Form.Recursion

/-!
# Simplifying absolute values

The absolute value of a product or quotient is taken apart, inner absolute values are dropped, and what cannot change the
value is removed: the orientation of a cell is one or minus one, and a square root is not negative. Inside an absolute value
a step gives a term for the absolute value of its operand; outside it gives one for the operand itself.
-/

namespace FormCompiler

namespace Term

variable {K : Type} [Elementary K] {m : Type → Type} [Monad m]

/-- The operand of an absolute value, or the term itself, and whether there was one. -/
def stripAbs : Term K → Term K × Bool
  | .node .abs [a] => (a, true)
  | t => (t, false)

def absStep : StepArg K Bool m (Term K) := fun t self inside =>
  match t with
  | .node .abs [a] => self a (by simp +arith) true
  | .node (.function .sqrt) [a] => do
    return t.withOperands [← self a (by simp +arith) false]
  | .leaf (.number x) _ => return if inside then number (Scalar.abs x) else t
  | .leaf (.geometric .cellOrientation _) _ => return if inside then int 1 else t
  | .node op args => do
    if inside && (op == .product || op == .division) then
      let stripped := (← mapChildren (.node op args) fun c h => self c h true).map stripAbs
      let result := (Term.node op args).withOperands (stripped.map Prod.fst)
      return if stripped.any Prod.snd then abs result else result
    let result ← reuse (.node op args) fun c h => self c h false
    return if inside then abs result else result
  | t => return if inside then abs t else t

def simplifyAbs (t : Term K) : Term K :=
  (Id.run ((memoiseArg (m := Id) absStep t false).run ∅)).1

end Term

end FormCompiler
