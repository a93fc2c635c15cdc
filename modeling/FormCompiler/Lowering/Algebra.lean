import FormCompiler.Expr.Build
import FormCompiler.Form.Term
import Std.Data.HashMap

/-!
# Lowering tensor algebra

An operator of tensor algebra becomes an expression of its lowered operands. Expressions add, compare and choose between
scalars only, so an operator on tensors is lifted: its operands are indexed by new indices, and the result is bound over
them. Each free index of terms has one index of expressions for the whole of a lowering.
-/

namespace FormCompiler

/-- The names under which expressions know the functions of numbers. -/
def MathFunction.name : MathFunction → String
  | .sqrt => "sqrt"
  | .exp => "exp"
  | .ln => "ln"
  | .cos => "cos"
  | .sin => "sin"
  | .tan => "tan"
  | .cosh => "cosh"
  | .sinh => "sinh"
  | .tanh => "tanh"
  | .acos => "acos"
  | .asin => "asin"
  | .atan => "atan"
  | .erf => "erf"

/-- The names under which expressions know the Bessel functions. -/
def Bessel.name : Bessel → String
  | .first => "cyl_bessel_j"
  | .second => "cyl_bessel_y"
  | .modifiedFirst => "cyl_bessel_i"
  | .modifiedSecond => "cyl_bessel_k"

/-- The indices of expressions by the free indices of terms. -/
abbrev IndexMap := Std.HashMap Nat Index

/-- Making expressions while free indices of terms become indices. -/
abbrev Lowering := StateT IndexMap Build

namespace Lowering

variable {K : Type} [Scalar K]

/-- The index for a free index of terms, which is new if it is first met. -/
def indexOf (label : Nat) : Lowering Index := do
  match (← get)[label]? with
  | some i => return i
  | none =>
    let i ← Build.freshIndex none
    modify fun m => m.insert label i
    return i

def slots (places : List Place) : Lowering (List (Slot (Expr K))) :=
  places.mapM fun p => match p with
    | .fixed n => return .fixed (Int.ofNat n)
    | .label i => do return .free (← indexOf i)

/-- An operation on scalars, lifted to tensors with as many dimensions as the shape has. -/
def lifted (shape : List Nat) (f : List (Expr K) → Build (Expr K)) (args : List (Expr K)) : Build (Expr K) := do
  if shape.isEmpty then f args
  else
    let indices ← Build.freshIndices (shape.map fun _ => none)
    Build.tensorOver (← f (← args.mapM fun a => Build.indexedAt a indices)) indices

def onTwo (f : Expr K → Expr K → Build (Expr K)) : List (Expr K) → Build (Expr K)
  | [a, b] => f a b
  | _ => throw .unsupported

def onScalars (name : String) (args : List (Expr K)) : Build (Expr K) := Build.call name args

def sum (shape : List Nat) : List (Expr K) → Build (Expr K) := lifted shape (onTwo Build.sum)

def product (shape : List Nat) (args : List (Expr K)) : Build (Expr K) := do
  Build.require shape.isEmpty
  onTwo Build.product args

/-- The absolute value, entry by entry. -/
def abs (shape : List Nat) : List (Expr K) → Build (Expr K) := lifted shape (onScalars "abs")

/-- A choice between two tensors. -/
def conditional (shape : List Nat) : List (Expr K) → Build (Expr K)
  | [c, yes, no] => do
    Build.require c.shape.isEmpty
    lifted shape (onTwo (Build.conditional c)) [yes, no]
  | _ => throw .unsupported

def indexSum (shape : List Nat) (summed : List (Slot (Expr K))) (args : List (Expr K)) : Build (Expr K) := do
  match summed with
  | [i] => lifted shape (fun args => match args with
    | [a] => Build.indexSum a [i]
    | _ => throw .unsupported) args
  | _ => throw .malformed

def listTensor (rows : List (Expr K)) : Build (Expr K) := Build.listTensor [rows.length] rows

def onOne (f : Expr K → Build (Expr K)) : List (Expr K) → Build (Expr K)
  | [a] => f a
  | _ => throw .unsupported

/-- An operator of tensor algebra that gives a tensor of the given shape, applied to lowered operands. -/
def node (op : Op) (shape : List Nat) (args : List (Expr K)) : Lowering (Expr K) := do
  match op with
  | .sum => sum shape args
  | .product => product shape args
  | .division => onTwo Build.quotient args
  | .power => onTwo Build.power args
  | .abs => abs shape args
  | .function f => onScalars f.name args
  | .arctangent => onScalars "atan2" args
  | .bessel kind => onScalars kind.name args
  | .minimum => onTwo (Build.binary .minimum) args
  | .maximum => onTwo (Build.binary .maximum) args
  | .compare c => onTwo (Build.binary (.compare c)) args
  | .conjunction => onTwo (Build.binary .conjunction) args
  | .disjunction => onTwo (Build.binary .disjunction) args
  | .negation => onOne Build.negation args
  | .conditional => conditional shape args
  | .indexed places =>
    let slots ← slots places
    onOne (fun a => Build.indexed a slots) args
  | .indexSum i _ =>
    let index ← indexOf i
    indexSum shape [.free index] args
  | .componentTensor binders =>
    let indices ← binders.mapM fun b => indexOf b.1
    onOne (fun a => Build.tensorOver a indices) args
  | .listTensor => listTensor args
  | .variable _ => onOne pure args
  | _ => throw (.requirement "")

def constant : Terminal K → Build (Expr K)
  | .zero shape _ => return .zero (Shape.ofNats shape)
  | .number x => Build.number x
  | .identity n => return .identity n
  | _ => throw (.requirement "")

end Lowering

end FormCompiler
