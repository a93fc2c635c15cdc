import FormCompiler.Expr.Recursion

/-!
# Consistent renaming

All indices of an expression, free and bound, are replaced by new ones of the same extent.
-/

namespace FormCompiler

namespace Expr

variable {K : Type} [Scalar K]

/-- Computations that replace indices, with the results by expression and the new indices by the old ones. -/
abbrev Renewing (K : Type) [Scalar K] := StateT (Store K (Expr K)) (StateT (List (Index × Index)) Build)

def renewIndex (i : Index) : Renewing K Index := do
  match (← getThe (List (Index × Index))).find? fun p => p.1 == i with
  | some (_, j) => return j
  | none =>
    let j ← liftM (m := Build) do Build.freshIndex (← Build.extent i)
    modifyThe (List (Index × Index)) fun table => (i, j) :: table
    return j

/-- One node with its indices replaced. -/
def renewStep : Step K (Renewing K) (Expr K) := fun e self =>
  match e with
  | .indexed t slots => do
    let t' ← self t (sizeOf_tensor t slots)
    let slots' ← slots.attach.mapM fun ⟨s, hs⟩ => match s, hs with
      | .fixed n, _ => pure (.fixed n)
      | .free i, _ => do return .free (← renewIndex i)
      | .runtime r, hs => do
        return .runtime (← self r (sizeOf_slot hs))
    return .indexed t' slots'
  | .access name shape dims => do
    let dims' ← dims.mapM fun d => do
      return (⟨d.offset, ← d.terms.mapM fun (i, s) => do return (← renewIndex i, s)⟩ : DimAccess)
    return .access name shape dims'
  | .componentTensor body binders => do
    let body' ← self body (sizeOf_component body binders)
    return .componentTensor body' (← binders.mapM fun (i, n) => do return (← renewIndex i, n))
  | .indexSum body binders => do
    let body' ← self body (sizeOf_summand body binders)
    return .indexSum body' (← binders.mapM fun (i, n) => do return (← renewIndex i, n))
  | .delta i j => do
    let renew := fun (s : Slot (Expr K)) (h : sizeOf s ≤ sizeOf i + sizeOf j) => match s, h with
      | .fixed n, _ => pure (.fixed n)
      | .free i, _ => do return .free (← renewIndex i)
      | .runtime r, h => do
        return .runtime (← self r (sizeOf_deltaSlot h))
    return .delta (← renew i (sizeOf_firstSlot i j)) (← renew j (sizeOf_secondSlot i j))
  | e => do
    let children ← mapChildren e self
    liftM (Build.reconstruct e children)

def renew (e : Expr K) : Build (Expr K) := ((memoise renewStep e).run' ∅).run' []

end Expr

end FormCompiler
