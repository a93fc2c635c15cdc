import FormCompiler.Form.Modified

/-!
# Splitting mixed coefficients

A coefficient of a mixed element is taken apart into coefficients of the parts. A modified terminal of the mixed coefficient
becomes the vector of all components of the parts, each under the same modifiers.
-/

namespace FormCompiler

namespace Term

variable {K : Type} [Elementary K]

/-- The components of a part under modifiers, at the given derivative indices. -/
def partComponents (m : Modified K) (beta : List Nat) (f : Coefficient) : Except Error (List (Term K)) := do
  let whole ← m.construct (coefficient f)
  .ok ((tuples f.element.referenceShape).map fun alpha =>
    whole.indexed (alpha.map .fixed ++ beta.map .label))

/-- Take a mixed coefficient apart. -/
def splitTerminal (split : Coefficient → Option (List Coefficient)) (t : Term K) : Forming (Term K) := do
  let m ← liftExcept (Modified.analyse t)
  match m.terminal with
  | .coefficient f =>
    if !f.element.isMixed then return t
    if !m.referenceValue then throw (.requirement "")
    let beta ← Forming.several m.derivatives
    match split f with
    | none => throw .missing
    | some parts =>
      let components ← liftExcept (parts.mapM (partComponents m beta))
      let c ← Forming.fresh
      return componentTensor (indexed (listTensor components.flatten) [.label c]) (c :: beta)
  | _ => return t
where
  liftExcept {α : Type} : Except Error α → Forming α
    | .ok a => return a
    | .error e => throw e

/-- Take the mixed coefficients of a term apart. -/
def splitCoefficients (split : Coefficient → Option (List Coefficient)) (t : Term K) : Forming (Term K) :=
  (memoise (m := Forming) (modifiedStep fun t => StateT.lift (splitTerminal split t)) t).run' ∅

end Term

end FormCompiler
