import FormCompiler.Tensor

/-!
# Kernel code

The imperative code of a kernel: declarations, loops, assignments and increments over symbols with ranks. A number
keeps the text under which it is written.
-/

namespace FormCompiler

namespace Code

inductive Rank (α : Type) where
  | fixed (n : Int)
  | named (name : String)
  /-- A position that is computed and stands in the rank as text. -/
  | printed (e : α)
  /-- A position that is computed and stands in the rank as code. -/
  | nested (e : α)

inductive Operator where
  | product | sum | quotient
  | compare (c : Comparison)
  | negation | conjunction | disjunction
  /-- A choice between two values. -/
  | ternary
  deriving DecidableEq, Repr

inductive Value (K : Type) where
  /-- A symbol; each offset holds a factor and a shift of the position in its dimension. -/
  | symbol (name : String) (rank : List (Rank (Value K))) (offset : Option (List (Int × Int)))
  /-- A number with its text. -/
  | number (x : K) (text : String)
  | apply (op : Operator) (args : List (Value K))
  | call (function : String) (args : List (Value K))

/-- What a declared symbol starts with. -/
inductive Initial (K : Type) where
  /-- The number zero. -/
  | zero
  | value (v : Value K)
  /-- Values entry by entry. -/
  | entries (shape : List Nat) (values : List (Value K)) (precision : Int)
  /-- A constant table. -/
  | table (t : Tensor K) (precision : Int)

structure Declaration (K : Type) where
  type : String
  name : String
  rank : List (Rank (Value K)) := []
  initial : Option (Initial K) := none
  qualifiers : Option (List String) := none
  pointers : Option (List (List String)) := none

inductive Statement (K : Type) where
  | declare (d : Declaration K)
  /-- Set a symbol to zero. -/
  | clear (target : Value K)
  | assign (target value : Value K)
  | increment (target value : Value K) (mark : Option String)
  /-- Count a symbol up from zero to below an extent. -/
  | loop (counter : String) (extent : Int) (body : Statement K) (mark : Option String)
  /-- Statements one after the other; whether they open a scope of their own. -/
  | block (statements : List (Statement K)) (ownScope : Bool)

def plain {K : Type} (name : String) : Value K := .symbol name [] none

/-- The text of a value that stands in a rank: symbols are spelt out, all else is named by its kind. -/
def printed {K : Type} : Value K → String
  | .symbol name rank _ => name ++ String.join (rank.map fun
    | .fixed n => s!"[{n}]"
    | .named s => "[" ++ s ++ "]"
    | .printed _ | .nested _ => "[?]")
  | .number _ text => text
  | .apply op _ => match op with
    | .product => "<Prod>"
    | .sum => "<Sum>"
    | .quotient => "<Div>"
    | .compare .less => "<Less>"
    | .compare .lessEq => "<LessEq>"
    | .compare .equal => "<Eq>"
    | .compare .notEqual => "<NEq>"
    | .compare .greater => "<Greater>"
    | .compare .greaterEq => "<GreaterEq>"
    | .negation => "<Not>"
    | .conjunction => "<And>"
    | .disjunction => "<Or>"
    | .ternary => "<Ternary>"
  | .call _ _ => "<FunCall>"

def classText (kind : String) (args : List String) : String := kind ++ "(" ++ Text.tuple args ++ ", \x7b\x7d)"

end Code

end FormCompiler
