import FormCompiler.Expr.Build
import Std.Data.HashMap

/-!
# Recursion with kept results

A recursive function on expressions is given by one step, which receives the expression and the means to call the
function on smaller expressions. Run plainly, shared parts are computed as often as they are met; run with a store,
each distinct expression is computed once. An argument that is handed down takes part in what is kept.
-/

namespace FormCompiler

namespace Expr

variable {K α β : Type} {m : Type → Type} [Monad m]

/-- One step of a recursive function, which may call itself on smaller expressions. -/
abbrev Step (K : Type) (m : Type → Type) (β : Type) : Type :=
  (e : Expr K) → ((c : Expr K) → sizeOf c < sizeOf e → m β) → m β

abbrev StepArg (K α : Type) (m : Type → Type) (β : Type) : Type :=
  (e : Expr K) → ((c : Expr K) → sizeOf c < sizeOf e → α → m β) → α → m β

def recurse (step : Step K m β) (e : Expr K) : m β :=
  step e fun c _ => recurse step c
termination_by sizeOf e

def recurseArg (step : StepArg K α m β) (e : Expr K) (a : α) : m β :=
  step e (fun c _ => recurseArg step c) a
termination_by sizeOf e

variable [Scalar K]

abbrev Store (K : Type) [Scalar K] (β : Type) := Std.HashMap (Expr K) β

abbrev StoreArg (K : Type) [Scalar K] (α : Type) [BEq α] [Hashable α] (β : Type) := Std.HashMap (Expr K × α) β

/-- Recursion that computes each distinct expression once. -/
def memoise (step : Step K (StateT (Store K β) m) β) (e : Expr K) : StateT (Store K β) m β := do
  match (← get)[e]? with
  | some r => return r
  | none =>
    let r ← step e fun c _ => memoise step c
    modify fun s => s.insert e r
    return r
termination_by sizeOf e

/-- Recursion that computes each distinct expression once with each argument. -/
def memoiseArg [BEq α] [Hashable α] (step : StepArg K α (StateT (StoreArg K α β) m) β) (e : Expr K) (a : α) :
    StateT (StoreArg K α β) m β := do
  match (← get)[(e, a)]? with
  | some r => return r
  | none =>
    let r ← step e (fun c _ => memoiseArg step c) a
    modify fun s => s.insert (e, a) r
    return r
termination_by sizeOf e

/-- Results kept while expressions are built. -/
abbrev MemoBuild (K : Type) [Scalar K] (β : Type) := StateT (Store K β) Build

/-- Results kept by expression and argument while expressions are built. -/
abbrev MemoArgBuild (K : Type) [Scalar K] (α : Type) [BEq α] [Hashable α] (β : Type) :=
  StateT (StoreArg K α β) Build

/-- Apply a step to all the expressions, keeping results across them. -/
def mapMemo (step : Step K (MemoBuild K β) β) (es : List (Expr K)) : Build (List β) :=
  (es.mapM (memoise step)).run' ∅

/-- Apply a step with an argument to all the expressions, keeping results across them. -/
def mapMemoArg [BEq α] [Hashable α] (step : StepArg K α (MemoArgBuild K α β) β) (es : List (Expr K)) (a : α) :
    Build (List β) :=
  (es.mapM fun e => memoiseArg step e a).run' ∅

/-- The children of a node under a function on smaller expressions. -/
def mapChildren {n : Type → Type} [Monad n] (e : Expr K) (f : (c : Expr K) → sizeOf c < sizeOf e → n β) :
    n (List β) :=
  e.children.attach.mapM fun ⟨c, h⟩ => f c (sizeOf_lt_of_mem_children h)

/-- Are the lists the same member by member, as far as the shorter goes? -/
def sameAll (as bs : List (Expr K)) : Bool := (as.zip bs).all fun (a, b) => a == b

/-- The node itself if all children stay the same, else the node with its new children. -/
def reuse {n : Type → Type} [Monad n] [MonadLiftT Build n] (e : Expr K)
    (f : (c : Expr K) → sizeOf c < sizeOf e → n (Expr K)) : n (Expr K) := do
  let children ← mapChildren e f
  if sameAll children e.children then return e else liftM (Build.reconstruct e children)

end Expr

end FormCompiler
