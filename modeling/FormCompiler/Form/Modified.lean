import FormCompiler.Form.Recursion

/-!
# Modified terminals

A terminal under modifiers is evaluated as a whole: the function on the reference cell, with derivatives along its axes,
averaged, and restricted to one side of a facet. `analyse` reads the modifiers off a term, and `construct` puts them around
another terminal.
-/

namespace FormCompiler

inductive Averaged where
  | cell | facet
  deriving DecidableEq, Hashable, Repr, Inhabited

structure Modified (K : Type) where
  terminal : Terminal K
  /-- The function on the reference cell is meant. -/
  referenceValue : Bool := false
  /-- The number of derivatives along the axes of the reference cell. -/
  derivatives : Nat := 0
  averaged : Option Averaged := none
  restriction : Option Side := none

namespace Modified

variable {K : Type}

def isModified : Term K → Bool
  | .leaf _ _ => true
  | .node op args => op.isModifier && match args with
    | [] => false
    | a :: _ => isModified a

/-- The terminal under the modifiers, if there is nothing else. -/
def strip? : Term K → Option (Terminal K)
  | .leaf t _ => some t
  | .node op args => if op.isModifier then match args with
    | [] => none
    | a :: _ => strip? a
    else none

/-- Take a modifier off, checking that it is the first of its kind. -/
def peel : Term K → Modified K → Except Error (Modified K)
  | .leaf t _, m => .ok { m with terminal := t }
  | .node .referenceValue [a], m =>
    if m.referenceValue then .error (.requirement "Got twice pulled back terminal!")
    else peel a { m with referenceValue := true }
  | .node .referenceGradient [a], m => peel a { m with derivatives := m.derivatives + 1 }
  | .node (.restricted s) [a], m =>
    if m.restriction.isSome then .error (.requirement "Got twice restricted terminal!")
    else peel a { m with restriction := some s }
  | .node .cellAverage [a], m =>
    if m.averaged.isSome then .error (.requirement "Got twice averaged terminal!")
    else peel a { m with averaged := some .cell }
  | .node .facetAverage [a], m =>
    if m.averaged.isSome then .error (.requirement "Got twice averaged terminal!")
    else peel a { m with averaged := some .facet }
  | .node _ _, _ => .error (.invalid "Missing handler")

/-- Quantities of which derivatives are taken without reference to a function on the reference cell. -/
def isPosition : Terminal K → Bool
  | .geometric .spatialCoordinate _ | .geometric .jacobian _ => true
  | _ => false

def analyse (t : Term K) : Except Error (Modified K) := do
  let m ← peel t ⟨.identity 0, false, 0, none, none⟩
  if m.derivatives != 0 && !m.referenceValue && !isPosition m.terminal then
    .error (.invalid "Local derivatives of non-local value?")
  else .ok m

variable [Elementary K]

/-- Take a derivative along the axes of the reference cell, which is zero for a field constant in each cell. -/
def derive (dim : Nat) (t : Term K) : Term K :=
  if t.isCellwiseConstant then .zero (t.shape ++ [dim]) t.free else .node .referenceGradient [t]

def construct (m : Modified K) (t : Term K) : Except Error (Term K) := do
  let t := if m.referenceValue then t.referenceValue else t
  match t.domain with
  | none => .error .absent
  | some d =>
    let t := m.derivatives.fold (fun _ _ t => derive d.tdim t) t
    let t := match m.averaged with
      | some .cell => t.cellAverage
      | some .facet => t.facetAverage
      | none => t
    .ok (if t.isConstantValue then t else match m.restriction with
      | some s => t.restricted s
      | none => t)

def same (a b : Modified K) : Bool :=
  a.terminal.same b.terminal && a.referenceValue == b.referenceValue && a.derivatives == b.derivatives &&
    a.averaged == b.averaged && a.restriction == b.restriction

/-- The place of a terminal in the order of terminals: its kind, then its number. -/
def rank : Terminal K → Nat × Nat × String
  | .zero _ _ => (0, 0, "")
  | .number _ => (1, 0, "")
  | .identity n => (2, n, "")
  | .argument v => (3, v.number, "")
  | .coefficient f => (4, f.count, "")
  | .geometric q _ => (5, 0, q.name)

/-- The order of two values of which one may be absent: an absent value stands in no order to another. -/
def lessOption {α : Type} [BEq α] (less : α → α → Bool) : Option α → Option α → Except Error (Option Bool)
  | none, none => .ok none
  | some a, some b => .ok (if a == b then none else some (less a b))
  | _, _ => .error .unsupported

/-- Does the first come before the second? By terminal, then modifier by modifier. -/
def less (a b : Modified K) : Except Error Bool := do
  if !a.terminal.same b.terminal then
    let (k, n, s) := rank a.terminal
    let (k', n', s') := rank b.terminal
    return k < k' || (k == k' && (n < n' || (n == n' && s < s')))
  if a.referenceValue != b.referenceValue then return !a.referenceValue
  if a.derivatives != b.derivatives then return a.derivatives < b.derivatives
  match ← lessOption (fun x _ => x == .cell) a.averaged b.averaged with
  | some r => return r
  | none =>
    match ← lessOption (fun x _ => x == .plus) a.restriction b.restriction with
    | some r => return r
    | none => return false

end Modified

/-!
## Passes that look at modified terminals

Gradients, divergences and rotations have been resolved before; averages are not taken.
-/

namespace Term

variable {K : Type} [Elementary K] {m : Type → Type} [Monad m] [MonadExceptOf Error m]

/-- One step of a pass that treats modified terminals by `f` and goes into all other terms. -/
def modifiedStep (f : Term K → m (Term K)) : Step K m (Term K) := fun t self =>
  match t with
  | .leaf u k => f (.leaf u k)
  | .node op args =>
    match op with
    | .gradient | .divergence | .rotation | .referenceDivergence | .referenceRotation =>
      throw (.requirement "Not expected")
    | .restricted _ | .cellAverage | .facetAverage | .referenceGradient | .referenceValue =>
      if Modified.isModified t then f t else throw (.requirement "")
    | op => reuse (.node op args) self

end Term

end FormCompiler
