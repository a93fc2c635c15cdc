import FormCompiler.Form.Recursion

/-!
# Sides of facets

A restriction to a side of a facet is carried down to the terminals. A terminal that is not restricted is taken from the
first cell, unless it does not belong to a cell at all.
-/

namespace FormCompiler

namespace Term

variable {K : Type} [Elementary K] {m : Type → Type} [Monad m]

/-- Does the terminal have the same value on both sides, whatever the cells? -/
def isSideless : Terminal K → Bool
  | .zero _ _ | .number _ | .identity _ => true
  | .geometric q _ => q == .facetCoordinate || q == .quadratureWeight || q == .referenceCellVolume ||
      q == .referenceFacetVolume
  | _ => false

/-- One step of carrying a restriction down. -/
def sidesStep : StepArg K (Option Side) m (Term K) := fun t self side =>
  match t with
  | .leaf u k => return if isSideless u then .leaf u k else restricted (side.getD .plus) (.leaf u k)
  | .node (.restricted s) [_] => onOperand self (some s)
  | .node (.variable _) [_] => onOperand self side
  | .node .referenceValue args => return restricted (side.getD .plus) (.node .referenceValue args)
  | .node .referenceGradient args => return restricted (side.getD .plus) (.node .referenceGradient args)
  | .node .gradient args => return restricted (side.getD .plus) (.node .gradient args)
  | .node op args => reuse (.node op args) fun c h => self c h side

def carrySides (t : Term K) : Term K := (Id.run ((memoiseArg (m := Id) sidesStep t none).run ∅)).1

end Term

end FormCompiler
