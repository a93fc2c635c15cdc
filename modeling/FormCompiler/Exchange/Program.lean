import FormCompiler.Code.Basic
import FormCompiler.Exchange.Write

/-!
# Writing programs and code

Loop programs are written as trees whose blocks list what they declare; code is written node by node.
-/

namespace FormCompiler

namespace Work

/-! ## Loop programs -/

def operationWord : Operation Float → String
  | .evaluate _ => "Evaluate"
  | .hold _ => "Noop"
  | .initialise _ => "Initialise"
  | .accumulate _ => "Accumulate"
  | .give _ _ => "Return"
  | .giveSum _ _ => "ReturnAccumulate"

def operationParts : Operation Float → List (Expr Float)
  | .evaluate e | .hold e | .initialise e | .accumulate e => [e]
  | .give v e | .giveSum v e => [v, e]

def operationDocs (op : Operation Float) : Work (List Doc) := do
  return .str (operationWord op) :: (← (operationParts op).mapM refDoc)

def blockDoc (p : Program Float) (path : List Nat) (rows : List Doc) : Doc :=
  .list [.str "Block", .list rows,
    .nats ((p.declaredAt path).map fun e => p.temporaries.findIdx (· == e))]

mutual

def statementDoc (p : Program Float) (path : List Nat) : Statement Float → Work Doc
  | .run op => do return .list ((← operationDocs op) ++ [.bool (p.declares op)])
  | .loop i body => do
    let i ← indexDoc i
    let rows ← statementDocs p path 0 body
    return .list [.str "For", i, blockDoc p path rows]

/-- The statements of a block from some position on. -/
def statementDocs (p : Program Float) (path : List Nat) (n : Nat) : List (Statement Float) → Work (List Doc)
  | [] => return []
  | s :: ss => do
    let d ← statementDoc p (path ++ [n]) s
    return d :: (← statementDocs p path (n + 1) ss)

end

/-- A program: its tree, its temporaries and the indices that each of them keeps. -/
def programDoc (p : Program Float) : Work Doc := do
  let rows ← statementDocs p [] 0 p.tree
  let temporaries ← refsDoc p.temporaries
  let indices ← p.temporaries.mapM fun t => indicesDoc ((p.keptIndices? t).getD [])
  return .object [("tree", blockDoc p [] rows), ("temporaries", temporaries), ("indices", .list indices)]

end Work

/-! ## Code -/

namespace Code

def operatorWord : Operator → String
  | .product => "Prod"
  | .sum => "Sum"
  | .quotient => "Div"
  | .compare .less => "Less"
  | .compare .lessEq => "LessEq"
  | .compare .equal => "Eq"
  | .compare .notEqual => "NEq"
  | .compare .greater => "Greater"
  | .compare .greaterEq => "GreaterEq"
  | .negation => "Not"
  | .conjunction => "And"
  | .disjunction => "Or"
  | .ternary => "Ternary"

def symbolDoc (name : String) (rank : List Doc) (offset : Doc) : Doc :=
  .object [("sym", .str name), ("rank", .list rank), ("offset", offset)]

/-- A node of code by its kind and arguments. -/
def callDoc (word : String) (args : List Doc) (more : List (String × Doc) := []) : Doc :=
  .object ([("call", .str word), ("args", .list args)] ++ more)

def offsetDoc : Option (List (Int × Int)) → Doc
  | none => .null
  | some os => .list (os.map fun (a, b) => .ints [a, b])

mutual

def valueDoc : Value Float → Doc
  | .symbol name rank offset => symbolDoc name (rankDocs rank) (offsetDoc offset)
  | .number _ text => symbolDoc text [] .null
  | .apply op args => callDoc (operatorWord op) (valueDocs args)
  | .call f args => callDoc "FunCall" (.str f :: valueDocs args)

def valueDocs : List (Value Float) → List Doc
  | [] => []
  | v :: vs => valueDoc v :: valueDocs vs

def rankDoc : Rank (Value Float) → Doc
  | .fixed n => .int n
  | .named s => .str s
  | .printed e => .str (printed e)
  | .nested e => valueDoc e

def rankDocs : List (Rank (Value Float)) → List Doc
  | [] => []
  | r :: rs => rankDoc r :: rankDocs rs

end

def realDoc (x : Float) : Doc := .object [("f", .float x)]

def arrayDoc (shape : List Nat) (values : List Doc) (precision : Int) : Doc :=
  .object [("array", .nats shape), ("values", .list values), ("precision", .int precision)]

def initialDoc : Initial Float → Doc
  | .zero => realDoc 0.0
  | .value v => valueDoc v
  | .entries shape vs p => arrayDoc shape (valueDocs vs) p
  | .table t p => arrayDoc t.shape (t.entries.toList.map realDoc) p

def declDoc (type : String) (sym init qualifiers pointers : Doc) : Doc :=
  .object [("decl", .str type), ("sym", sym), ("init", init), ("qualifiers", qualifiers), ("pointers", pointers)]

def declarationDoc (d : Declaration Float) : Doc :=
  declDoc d.type (symbolDoc d.name (rankDocs d.rank) .null)
    (match d.initial with | some i => initialDoc i | none => .null)
    (match d.qualifiers with | some q => .list (q.map .str) | none => .null)
    (match d.pointers with | some p => .list (p.map fun l => .list (l.map .str)) | none => .null)

mutual

def statementDoc : Statement Float → Doc
  | .declare d => declarationDoc d
  | .clear t => callDoc "Assign" [valueDoc t, realDoc 0.0]
  | .assign t v => callDoc "Assign" [valueDoc t, valueDoc v]
  | .increment t v mark => callDoc "Incr" [valueDoc t, valueDoc v] [("pragma", .str? mark)]
  | .loop counter extent body mark =>
    let i := symbolDoc counter [] .null
    .object [("for", .list [declDoc "int" i (.nat 0) .null .null, callDoc "Less" [i, .int extent],
      callDoc "Incr" [i, .nat 1]]), ("body", statementDoc body), ("pragma", .str? mark)]
  | .block ss own => .object [("block", .list (statementDocs ss)), ("open_scope", .bool own)]

def statementDocs : List (Statement Float) → List Doc
  | [] => []
  | s :: ss => statementDoc s :: statementDocs ss

end

end Code

end FormCompiler
