import FormCompiler.Expr.Recursion

/-!
# Substitution of indices

Free indices are replaced by slots, all at once. Where a tensor made of components is indexed, its body takes the
slots in place of the bound indices, so that no such tensor is left below an indexing.
-/

namespace FormCompiler

namespace Rewrite

variable {K : Type} [Scalar K]

/-- Which index is replaced by which slot, in ascending order of the indices. -/
abbrev Substitution (K : Type) := List (Index × Slot (Expr K))

namespace Substitution

def apply (s : Substitution K) (i : Index) : Slot (Expr K) :=
  match s.find? fun p => p.1 == i with
  | some p => p.2
  | none => .free i

def applySlot (s : Substitution K) : Slot (Expr K) → Slot (Expr K)
  | .free i => s.apply i
  | slot => slot

/-- Replace one more index; a rule for the same index gives way. -/
def insert (i : Index) (slot : Slot (Expr K)) : Substitution K → Substitution K
  | [] => [(i, slot)]
  | (j, t) :: rest =>
    if i.number < j.number then (i, slot) :: (j, t) :: rest
    else if i.number = j.number then (i, slot) :: rest
    else (j, t) :: insert i slot rest

/-- Replace further indices, later rules over earlier ones. -/
def insertAll (s : Substitution K) (rules : List (Index × Slot (Expr K))) : Substitution K :=
  rules.foldl (fun s (i, slot) => insert i slot s) s

/-- The rules for indices that are free in an expression. -/
def restrict (s : Substitution K) (e : Expr K) : Substitution K :=
  s.filter fun p => e.freeIndices.contains p.1

end Substitution

/-- Results kept while indices are replaced. -/
abbrev SubstBuild (K : Type) [Scalar K] := Expr.MemoArgBuild K (Substitution K) (Expr K)

/-- Replace free indices in one node. Rules that do not concern the node are dropped first. -/
def substituteStep : Expr.StepArg K (Substitution K) (SubstBuild K) (Expr K) := fun e self rules =>
  let rules := rules.restrict e
  match e with
  | .delta i j => do
    let i' := rules.applySlot i
    let j' := rules.applySlot j
    if i' == i && j' == j then return .delta i j else liftM (Build.delta i' j')
  | .indexed (.componentTensor body binders) slots => do
    let slots' := slots.map rules.applySlot
    self body (Expr.sizeOf_inlined body binders slots)
      (rules.insertAll ((binders.map Prod.fst).zip slots'))
  | .indexed tensor slots => do
    let slots' := slots.map rules.applySlot
    let tensor' ← self tensor (Expr.sizeOf_tensor tensor slots) rules
    if tensor' == tensor && slots' == slots then return .indexed tensor slots
    else liftM (Build.indexed tensor' slots')
  | .access name shape dims => do
    if dims.any fun d => d.terms.any fun t => rules.any fun r => r.1 == t.1 && r.2 != .free r.1 then
      let dims' := dims.map fun d => (d.offset, d.terms.map fun (i, s) => (rules.apply i, s))
      liftM (Build.access (.var name shape) dims')
    else return .access name shape dims
  | e => Expr.reuse e fun c h => self c h rules

/-- Replace free indices in the expressions, all rules at once. -/
def substitute (es : List (Expr K)) (rules : Substitution K) : Build (List (Expr K)) :=
  Expr.mapMemoArg substituteStep es rules

/-- Carry out all indexings of tensors made of components. -/
def inlineComponents (es : List (Expr K)) : Build (List (Expr K)) := substitute es []

/-- Carry out all indexings of tensors made of components in one expression. -/
def inlineComponent (e : Expr K) : Build (Expr K) := do
  match ← inlineComponents [e] with
  | [r] => return r
  | _ => throw .malformed

end Rewrite

end FormCompiler
