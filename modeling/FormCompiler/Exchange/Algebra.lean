import FormCompiler.Exchange.Read
import FormCompiler.Exchange.Write

/-!
# Requests about single operators

An operator of tensor algebra applied to given expressions.
-/

namespace FormCompiler

namespace Work

/-- An operand: an expression, or a multi-index. -/
inductive Operand where
  | expr (e : Expr Float)
  | slots (s : List (Slot (Expr Float)))

def operand (d : Doc) : Work Operand := do
  match d with
  | .object _ => return .slots (← slots (← field d "indices"))
  | d => return .expr (← expr d)

/-- A place in a multi-index of a term: a number, or a mark and the number of a free index. -/
def place : Doc → Work Place
  | .str s => match (s.drop 1).toString.toNat? with
    | some n => return .label n
    | none => throw (.unreadable s)
  | d => do return .fixed (← nat d)

/-- An operator by its name, where it needs no more than its operands and the shape of its result. -/
def plainOperator? (method name : String) : Option Op :=
  match method with
  | "sum" => some .sum
  | "product" => some .product
  | "division" => some .division
  | "power" => some .power
  | "abs" => some .abs
  | "atan_2" => some .arctangent
  | "min_value" => some .minimum
  | "max_value" => some .maximum
  | "not_condition" => some .negation
  | "and_condition" => some .conjunction
  | "or_condition" => some .disjunction
  | "conditional" => some .conditional
  | "list_tensor" => some .listTensor
  | "binary_condition" => (comparison? name).map .compare
  | _ => none

/-- The expression of an operator given by its name, with the name of a function and other details aside. -/
def lowerOperator (method : String) (o : Doc) (operands : List Operand) : Work (Option (Expr Float)) := do
  let shape ← match o.get? "shape" with
    | some (.list ds) => ds.mapM nat
    | _ => pure []
  let name := match o.get? "name" with
    | some (.str s) => s
    | _ => ""
  let es := operands.filterMap fun a => match a with
    | .expr e => some e
    | .slots _ => none
  match method, operands with
  | "scalar_value", _ => do
    let x ← float (← field o "value")
    return some (← build (Build.number x))
  | "identity", _ => do return some (.identity (← nat (← field o "dim")))
  | "zero", _ => return some (.zero (Shape.ofNats shape))
  | "math_function", [.expr a] => return some (← build (Lowering.onScalars name [a]))
  | "bessel_i", _ | "bessel_j", _ | "bessel_k", _ | "bessel_y", _ =>
    if es.length == 2 then return some (← build (Lowering.onScalars name es)) else refuse .unsupported
  | "indexed", [.expr a, .slots s] => return some (← build (Build.indexed a s))
  | "component_tensor", [.expr a, .slots s] => return some (← build (Build.componentTensor a s))
  | "index_sum", [.expr a, .slots s] => return some (← build (Lowering.indexSum shape s [a]))
  | "variable", .expr a :: _ => return some a
  | "label", _ => return none
  | method, _ =>
    match plainOperator? method name with
    | some op => return some (← lower (Lowering.node op shape es))
    | none =>
      if method == "binary_condition" then refuse .invalidComparison
      refuse .unsupported

def operatorRequest (d : Doc) : Work Doc := do
  let method ← stringAt d "method"
  if method == "multi_index" then
    let places ← (← itemsAt d "indices").mapM place
    let slots ← lower (Lowering.slots (K := Float) places)
    return .list (← slots.mapM slotDoc)
  let operands ← (← itemsAt d "args").mapM operand
  match ← lowerOperator method ((d.get? "o").getD .null) operands with
  | some e => giveExpr d e
  | none => return .null

end Work

end FormCompiler
