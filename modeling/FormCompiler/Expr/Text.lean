import FormCompiler.Expr.Recursion
import FormCompiler.Scalar.Float
import FormCompiler.Text.Table

/-!
# The text of an expression

An expression is shown as the name of its kind and what it is made from in round brackets.
-/

namespace FormCompiler

namespace Expr

def kindText (kind : String) (args : List String) : String := kind ++ "(" ++ ", ".intercalate args ++ ")"

def varText (name : String) (shape : Shape) : String := kindText "Variable" [Text.quoted name, shape.text]

/-- Nested lists of words that stand row by row. -/
def nestedList : List Nat → List String → String
  | [], words => words.headD ""
  | n :: shape, words =>
    let size := count shape
    Text.bracketed ((List.range n).map fun k => nestedList shape ((words.drop (k * size)).take size))

def dimText (d : DimAccess) : Build String := do
  let terms ← d.terms.mapM fun (i, s) => do
    let stride := if s.composite then s!"np.int64({s.value})" else toString s.value
    return Text.tuple [← Build.indexText i, stride]
  return Text.tuple [toString d.offset, Text.tuple terms]

def textStep {K : Type} [Scalar K] (tableText : Tensor K → String) : Step K Build String := fun e self =>
  let children := mapChildren e self
  match e with
  | .zero shape => return kindText "Zero" [shape.text]
  | .identity n => return kindText "Identity" [toString n]
  | .literal t _ => return kindText "Literal" [tableText t]
  | .var name shape => return varText name shape
  | .failure shape kind text _ =>
    return kindText "Failure" [shape.text, kindText kind [Text.quoted text]]
  | .binary (.compare c) _ _ => do return kindText "Comparison" (Text.quoted (comparisonText c) :: (← children))
  | .call name _ => do return kindText "MathFunction" (Text.quoted name :: (← children))
  | .indexed t slots => do
    let texts ← slots.attach.mapM fun ⟨s, hs⟩ => match s, hs with
      | .fixed n, _ => pure (toString n)
      | .free i, _ => Build.indexText i
      | .runtime r, hs => do
        return kindText "VariableIndex" [← self r (sizeOf_slot hs)]
    return kindText "Indexed" ((← children) ++ [Text.tuple texts])
  | .access _ _ dims => do return kindText "FlexiblyIndexed" ((← children) ++ [Text.tuple (← dims.mapM dimText)])
  | .componentTensor _ binders => do
    return kindText "ComponentTensor" ((← children) ++ [Text.tuple (← binders.mapM fun b => Build.indexText b.1)])
  | .indexSum _ binders => do
    return kindText "IndexSum" ((← children) ++ [Text.tuple (← binders.mapM fun b => Build.indexText b.1)])
  | .listTensor shape _ => do return kindText "ListTensor" [nestedList shape (← children)]
  | .delta i j => do
    let show_ := fun (s : Slot (Expr K)) (h : sizeOf s ≤ sizeOf i + sizeOf j) => match s, h with
      | .fixed n, _ => pure (toString n)
      | .free i, _ => Build.indexText i
      | .runtime r, h => do
        return kindText "VariableIndex" [← self r (sizeOf_deltaSlot h)]
    return kindText "Delta" [← show_ i (sizeOf_firstSlot i j), ← show_ j (sizeOf_secondSlot i j)]
  | e => do return kindText e.kindName (← children)

def text (e : Expr Float) : Build String := recurse (textStep Text.table) e

end Expr

end FormCompiler
