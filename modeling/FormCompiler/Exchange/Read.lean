import FormCompiler.Exchange.Workbench
import FormCompiler.Mode

/-!
# Reading expressions

Expressions in requests: a name, or the kind of a node followed by its parts, which are built from left to right.
-/

namespace FormCompiler

namespace Work

def comparison? : String → Option Comparison
  | "<" => some .less
  | "<=" => some .lessEq
  | "==" => some .equal
  | "!=" => some .notEqual
  | ">" => some .greater
  | ">=" => some .greaterEq
  | _ => none

def operator? : String → Option BinaryOp
  | "Sum" => some .sum
  | "Product" => some .product
  | "Division" => some .quotient
  | "Power" => some .power
  | "MinValue" => some .minimum
  | "MaxValue" => some .maximum
  | "LogicalAnd" => some .conjunction
  | "LogicalOr" => some .disjunction
  | _ => none

def slice (d : Doc) : Work Slice := do
  match ← items d with
  | [stop] => return ⟨none, ← extent stop, none⟩
  | [start, stop] => return ⟨← extent start, ← extent stop, none⟩
  | [start, stop, step] => return ⟨← extent start, ← extent stop, ← extent step⟩
  | _ => refuse .unsupported

/-- The functions of an expression and slots by name. -/
def maker? : String → Option Maker
  | "Indexed" => some Build.indexed
  | "ComponentTensor" => some Build.componentTensor
  | "IndexSum" => some Build.indexSum
  | _ => none

mutual

/-- An expression, nested at most as deep as given. -/
def readExpr : Nat → Doc → Work (Expr Float)
  | 0, _ => throw (.unreadable "expression")
  | n + 1, d => do
    match d with
    | .str name =>
      match ← named name with
      | .expr e => return e
      | _ => refuse .unsupported
    | .list (.str head :: args) => readNode n head args
    | _ => throw (.unreadable "expression")

/-- A node of some kind with its parts. -/
def readNode (n : Nat) (head : String) (args : List Doc) : Work (Expr Float) := do
  match head, args with
  | "Zero", [] => return .zero []
  | "Zero", s :: _ => return .zero (← shape s)
  | "Identity", [d] => return .identity (← nat d)
  | "one", _ => return Build.one
  | "Literal", [v] => let t ← tensor v; build (Build.literal t)
  | "Variable", [name, s] => return .var (← string name) (← shape s)
  | "Failure", [s, k, t] =>
    let shape ← shape s
    let kind ← string k
    let text ← string t
    return .failure shape kind text (← build Build.nextSerial)
  | "LogicalNot", [a] => let a ← readExpr n a; build (Build.negation a)
  | "Conditional", [c, y, no] =>
    let c ← readExpr n c
    let y ← readExpr n y
    let no ← readExpr n no
    build (Build.conditional c y no)
  | "MathFunction", name :: args =>
    let name ← string name
    let args ← args.mapM (readExpr n)
    build (Build.call name args)
  | "Comparison", [o, a, b] =>
    let a ← readExpr n a
    let b ← readExpr n b
    match comparison? (← string o) with
    | some c => build (Build.binary (.compare c) a b)
    | none => build do
      Build.requireScalar a
      Build.requireScalar b
      throw .invalidComparison
  | "FlexiblyIndexed", [e, dims] =>
    let e ← readExpr n e
    let dims ← (← items dims).mapM fun d => do
      match ← items d with
      | [offset, terms] =>
        let offset ← int offset
        let terms ← (← items terms).mapM fun t => do
          match ← items t with
          | [i, s] => return (← readSlot n i, (⟨← int s, false⟩ : Stride))
          | _ => throw (.unreadable "expression")
        return (offset, terms)
      | _ => throw (.unreadable "expression")
    build (Build.access e dims)
  | "ListTensor", [s, es] =>
    let shape ← (← items s).mapM nat
    let es ← (← items es).mapM (readExpr n)
    if es.length != count shape then refuse .malformed
    build (Build.listTensor shape es)
  | "Concatenate", es =>
    let es ← es.mapM (readExpr n)
    build (Build.concatenate es)
  | "Delta", [i, j] =>
    let i ← readSlot n i
    let j ← readSlot n j
    build (Build.delta i j)
  | "reshape", e :: shapes =>
    let e ← readExpr n e
    let shapes ← shapes.mapM fun s => do (← items s).mapM int
    build (Build.reshape e shapes)
  | "view", e :: slices =>
    let e ← readExpr n e
    let slices ← slices.mapM slice
    build (Build.view e slices)
  | head, [a, b] =>
    match (maker? head).or ((← get).makers.lookup head) with
    | some make =>
      let a ← readExpr n a
      let slots ← (← items b).mapM (readSlot n)
      build (make a slots)
    | none =>
      match operator? head with
      | some op =>
        let a ← readExpr n a
        let b ← readExpr n b
        build (Build.binary op a b)
      | none => throw (.unreadable ("expression " ++ head))
  | head, _ => throw (.unreadable ("expression " ++ head))

/-- A slot: a number, the name of an index, or an expression. -/
def readSlot (n : Nat) (d : Doc) : Work (Slot (Expr Float)) := do
  match d with
  | .str name =>
    match (← get).slots[name]? with
    | some s => return s
    | none => throw (.undefined name)
  | .int k => return .fixed k
  | _ =>
    match d.get? "var" with
    | some e => let e ← readExpr n e; build (Build.runtimeSlot e)
    | none => throw (.unreadable "index")

end

def expr (d : Doc) : Work (Expr Float) := readExpr (d.height + 1) d

def slot (d : Doc) : Work (Slot (Expr Float)) := readSlot (d.height + 1) d

def slots (d : Doc) : Work (List (Slot (Expr Float))) := do (← items d).mapM slot

/-- The indices of a multi-index, all of which must run. -/
def indices (d : Doc) : Work (List Index) := do
  let slots ← slots d
  build (Build.runningIndices slots)

def running (d : Doc) : Work (List Index) := do return (← slots d).filterMap Slot.index?

def exprs (d : Doc) : Work (List (Expr Float)) := do
  match d with
  | .str name =>
    match ← named name with
    | .exprs es => return es
    | .expr e => return [e]
    | _ => refuse .unsupported
  | d => (← items d).mapM expr

def exprAt (d : Doc) (key : String) : Work (Expr Float) := do expr (← field d key)

def exprsAt (d : Doc) (key : String) : Work (List (Expr Float)) := do exprs (← field d key)

def slotAt (d : Doc) (key : String) : Work (Slot (Expr Float)) := do slot (← field d key)

def indicesAt (d : Doc) (key : String) : Work (List Index) := do indices (← field d key)

def twoOf {α β : Type} (first : Doc → Work α) (second : Doc → Work β) (d : Doc) : Work (α × β) := do
  match ← items d with
  | [a, b] =>
    let a ← first a
    return (a, ← second b)
  | _ => throw (.unreadable "pair")

def pairs (d : Doc) : Work (List (Expr Float × Expr Float)) := do
  match d with
  | .str name =>
    match ← named name with
    | .pairs ps => return ps
    | _ => refuse .unsupported
  | d => (← items d).mapM (twoOf expr expr)

/-- A product of factors with its sums. -/
def monomial (d : Doc) : Work (Monomial Float) := do
  match ← items d with
  | [s, a, r] =>
    let s ← indices s
    let a ← exprs a
    return ⟨s, a, ← expr r⟩
  | _ => throw (.unreadable "monomial")

def monomialSum (d : Doc) : Work (MonomialSum Float) := do
  match ← named (← string d) with
  | .monomials m => return m
  | _ => refuse .unsupported

def monomials (d : Doc) : Work (List (Monomial Float)) := do
  match d with
  | .str _ => return (← monomialSum d).monomials
  | d => (← items d).mapM monomial

def program (d : Doc) : Work (Program Float) := do
  match ← named (← string d) with
  | .program p => return p
  | _ => refuse .unsupported

/-- A predicate on nodes: by kind, by the indices they depend on, or by listing them. -/
def predicate (d : Doc) : Work (Expr Float → Bool) := do
  match d.get? "types", d.get? "depends", d.get? "exprs" with
  | some kinds, _, _ =>
    let kinds ← (← items kinds).mapM string
    return fun e => kinds.contains e.kindName
  | _, some on, _ =>
    let on ← running on
    return fun e => Indices.meet on e.freeIndices
  | _, _, some es =>
    let es ← exprs es
    return fun e => es.contains e
  | _, _, _ => throw (.unreadable "predicate")

/-- A predicate in a field; no node satisfies a missing one. -/
def predicateAt (d : Doc) (key : String) : Work (Expr Float → Bool) :=
  match d.get? key with
  | some p => predicate p
  | none => return fun _ => false

/-- How factors are told apart: one role for all, by listing the atoms, or by the argument indices. -/
def role (d : Doc) : Work (Expr Float → Monomial.Role) := do
  match d.get? "argument", d.get? "label", d.get? "atomics" with
  | _, some label, _ =>
    let role : Monomial.Role := match label with
      | .str "atomic" => .atomic
      | .str "compound" => .compound
      | .str "other" => .other
      | _ => .unknown
    return fun _ => role
  | _, _, some atoms =>
    let atoms ← exprs atoms
    return fun e =>
      if atoms.contains e then .atomic
      else if (Expr.traversal [e]).any atoms.contains then .compound
      else .other
  | some arguments, _, _ => return Mode.argumentRole (← running arguments)
  | _, _, _ => throw (.unreadable "classifier")

/-- Rules that replace indices by slots. -/
def substitution (d : Doc) : Work (Rewrite.Substitution Float) := do
  let rules ← (← items d).mapM (twoOf slot slot)
  return Rewrite.Substitution.insertAll [] (rules.filterMap fun (a, b) => a.index?.map (·, b))

/-- Names that indices have in code; of two names of one index the last holds. -/
def indexNames (d : Doc) : Work (List (Index × String)) := do
  match d.get? "index_names" with
  | none => return []
  | some names =>
    let rows ← (← items names).mapM (twoOf slot string)
    return rows.reverse.filterMap fun (s, n) => s.index?.map (·, n)

/-- Tables by the variables they are bound to. -/
def bindings (d : Doc) : Work (List (Expr Float × Tensor Float)) := do
  (← itemsAt d "bindings").mapM (twoOf expr tensor)

end Work

end FormCompiler
