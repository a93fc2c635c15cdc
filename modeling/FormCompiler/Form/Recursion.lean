import FormCompiler.Form.Build
import FormCompiler.Error
import Std.Data.HashMap

/-!
# Recursion over terms

A recursive function on terms is given by one step, which receives the term and the means to call the function on smaller
terms. Run with a store, each distinct term is computed once.
-/

namespace FormCompiler

/-- Making terms from terms: it may fail, and it may draw new indices. -/
abbrev Forming := ExceptT Error Labels

namespace Forming

def fresh : Forming Nat := ExceptT.lift Labels.fresh

def several (n : Nat) : Forming (List Nat) := ExceptT.lift (Labels.several n)

end Forming

namespace Term

variable {K α β : Type} {m : Type → Type} [Monad m]

/-- One step of a recursive function, which may call itself on smaller terms. -/
abbrev Step (K : Type) (m : Type → Type) (β : Type) : Type :=
  (t : Term K) → ((c : Term K) → sizeOf c < sizeOf t → m β) → m β

abbrev StepArg (K α : Type) (m : Type → Type) (β : Type) : Type :=
  (t : Term K) → ((c : Term K) → sizeOf c < sizeOf t → α → m β) → α → m β

def recurse (step : Step K m β) (t : Term K) : m β :=
  step t fun c _ => recurse step c
termination_by sizeOf t

def recurseArg (step : StepArg K α m β) (t : Term K) (a : α) : m β :=
  step t (fun c _ => recurseArg step c) a
termination_by sizeOf t

variable [Scalar K]

abbrev Store (K : Type) [Scalar K] (β : Type) := Std.HashMap (Term K) β

abbrev StoreArg (K : Type) [Scalar K] (α : Type) [BEq α] [Hashable α] (β : Type) := Std.HashMap (Term K × α) β

/-- Recursion that computes each distinct term once. -/
def memoise (step : Step K (StateT (Store K β) m) β) (t : Term K) : StateT (Store K β) m β := do
  match (← get)[t]? with
  | some r => return r
  | none =>
    let r ← step t fun c _ => memoise step c
    modify fun s => s.insert t r
    return r
termination_by sizeOf t

/-- Recursion that computes each distinct term once with each argument. -/
def memoiseArg [BEq α] [Hashable α] (step : StepArg K α (StateT (StoreArg K α β) m) β) (t : Term K) (a : α) :
    StateT (StoreArg K α β) m β := do
  match (← get)[(t, a)]? with
  | some r => return r
  | none =>
    let r ← step t (fun c _ => memoiseArg step c) a
    modify fun s => s.insert (t, a) r
    return r
termination_by sizeOf t

/-- A function on smaller terms, at the only operand of a node. -/
def onOperand {op : Op} {a : Term K} {β : Type} (f : (c : Term K) → sizeOf c < sizeOf (node op [a]) → β) : β :=
  f a (by simp +arith)

/-- The operands under a function on smaller terms. -/
def mapChildren (t : Term K) (f : (c : Term K) → sizeOf c < sizeOf t → m β) : m (List β) :=
  t.children.attach.mapM fun ⟨c, h⟩ => f c (sizeOf_lt_of_mem_children h)

/-- The term with its operands under a function; the term itself if they stay the same. -/
def reuse {K : Type} [Elementary K] (t : Term K) (f : (c : Term K) → sizeOf c < sizeOf t → m (Term K)) : m (Term K) := do
  return t.withOperands (← mapChildren t f)

end Term

end FormCompiler
