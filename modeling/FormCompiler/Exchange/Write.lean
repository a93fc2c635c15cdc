import FormCompiler.Exchange.Workbench

/-!
# Writing expressions

Expressions in answers are numbers of the entries of a page. The parts of a node are entered before the node, and two
nodes with the same text share an entry. An index that was not declared gets its name when it is first written.
-/

namespace FormCompiler

namespace Work

def extentDoc : Extent → Doc
  | none => .null
  | some n => .int n

def shapeDoc (s : Shape) : Doc := .list (s.map extentDoc)

def entriesDoc (t : Tensor Float) : Doc := .list (t.entries.toList.map Doc.float)

def indexName (i : Index) : Work String := do
  let w ← get
  match w.names[i.number]? with
  | some n => return n
  | none =>
    let name := s!"_{w.fresh}"
    set { w with fresh := w.fresh + 1, names := w.names.insert i.number name, slots := w.slots.insert name (.free i) }
    return name

def indexDoc (i : Index) : Work Doc := do return .str (← indexName i)

def indicesDoc (is : List Index) : Work Doc := do return .list (← is.mapM indexDoc)

def dimsDoc (dims : List DimAccess) : Work Doc := do
  return .list (← dims.mapM fun d => do
    let terms ← d.terms.mapM fun (i, s) => do return .list [← indexDoc i, .int s.value]
    return .list [.int d.offset, .list terms])

/-- The number of an entry, which is put on the page if there is none of its text. -/
def enter (entry : Doc) : Work Nat := do
  let text := entry.text
  let page := (← get).page
  match page.texts[text]? with
  | some n => return n
  | none =>
    let n := page.entries.size
    modify fun w => { w with page := { w.page with
      entries := w.page.entries.push entry, texts := w.page.texts.insert text n } }
    return n

def slotDocBy {K : Type} {s : Slot (Expr K)} (f : (e : Expr K) → s = .runtime e → Work Nat) : Work Doc := do
  match h : s with
  | .fixed n => return .int n
  | .free i => indexDoc i
  | .runtime e => return .object [("var", .nat (← f e h))]

/-- The entry of a node, whose children have their numbers. -/
def entryDoc {K : Type} [Scalar K] (table : Tensor K → Doc) (e : Expr K)
    (self : (c : Expr K) → sizeOf c < sizeOf e → Work Nat) (children : List Doc) : Work Doc :=
  let head : Doc := .str e.kindName
  match e, self with
  | .zero s, _ => return .list [head, shapeDoc s]
  | .identity n, _ => return .list [head, .nat n]
  | .literal t _, _ => return .list [head, .nats t.shape, table t]
  | .var n s, _ => return .list [head, .str n, shapeDoc s]
  | .failure s k t _, _ => return .list [head, shapeDoc s, .str k, .str t]
  | .call n _, _ => return .list (head :: .str n :: children)
  | .binary (.compare c) _ _, _ => return .list (head :: .str (Expr.comparisonText c) :: children)
  | .indexed t slots, self => do
    let slots ← slots.attach.mapM fun ⟨s, hs⟩ => slotDocBy (s := s) fun c h => self c (by
      subst h
      have := Slot.sizeOf_lt_of_runtime_mem hs
      simp only [Expr.indexed.sizeOf_spec]
      omega)
    return .list (head :: children ++ [.list slots])
  | .componentTensor _ b, _ => do return .list (head :: children ++ [← indicesDoc (b.map Prod.fst)])
  | .indexSum _ b, _ => do return .list (head :: children ++ [← indicesDoc (b.map Prod.fst)])
  | .access _ _ dims, _ => do return .list (head :: children ++ [← dimsDoc dims])
  | .listTensor s _, _ => return .list [head, .nats s, .list children]
  | .delta i j, self => do
    let first ← slotDocBy (s := i) fun c h => self c (by
      subst h
      simp only [Expr.delta.sizeOf_spec, Slot.runtime.sizeOf_spec]
      omega)
    let second ← slotDocBy (s := j) fun c h => self c (by
      subst h
      simp only [Expr.delta.sizeOf_spec, Slot.runtime.sizeOf_spec]
      omega)
    return .list [head, first, second]
  | _, _ => return .list (head :: children)

/-- One step of writing: the children, then the node itself. -/
def writeStep {K : Type} [Scalar K] (table : Tensor K → Doc) (known : Expr K → Work (Option Nat))
    (remember : Expr K → Nat → Work Unit) : Expr.Step K Work Nat := fun e self => do
  match ← known e with
  | some n => return n
  | none =>
    let children ← Expr.mapChildren e self
    let n ← enter (← entryDoc table e self (children.map Doc.nat))
    remember e n
    return n

def ref (e : Expr Float) : Work Nat :=
  Expr.recurse (writeStep entriesDoc (fun e => do return (← get).page.known[e]?)
    (fun e n => modify fun w => { w with page := { w.page with known := w.page.known.insert e n } })) e

def refDoc (e : Expr Float) : Work Doc := do return .nat (← ref e)

def refsDoc (es : List (Expr Float)) : Work Doc := do return .list (← es.mapM refDoc)

def slotDoc (s : Slot (Expr Float)) : Work Doc := slotDocBy (s := s) fun e _ => ref e

/-- An expression with its shape and its free indices, by name in order. -/
def exprDoc (e : Expr Float) : Work Doc := do
  let n ← ref e
  let free ← e.freeIndices.mapM indexName
  let sorted := free.mergeSort fun a b => a ≤ b
  return .object [("ref", .nat n), ("shape", shapeDoc e.shape), ("free", .list (sorted.map Doc.str))]

def exprsDoc (es : List (Expr Float)) : Work Doc := do return .list (← es.mapM exprDoc)

def pairsDoc (ps : List (Expr Float × Expr Float)) : Work Doc := do
  return .list (← ps.mapM fun (a, b) => do
    let a ← refDoc a
    return .list [a, ← refDoc b])

def monomialDoc (m : Monomial Float) : Work Doc := do
  let s ← indicesDoc m.sumIndices
  let a ← refsDoc m.atomics
  return .object [("sum_indices", s), ("atomics", a), ("rest", ← refDoc m.rest)]

def monomialsDoc (ms : List (Monomial Float)) : Work Doc := do return .list (← ms.mapM monomialDoc)

def monomialSumDoc (m : MonomialSum Float) : Work Doc := do
  return .list [.nat m.monomials.length, ← monomialsDoc m.monomials]

/-- Values of an expression over its free indices. -/
def resultDoc (r : Evaluation.Result Float) : Work Doc := do
  let data := match r.values with
    | .numbers t => entriesDoc t
    | .truths t => .list (t.entries.toList.map Doc.bool)
  return .object [("fids", ← indicesDoc r.indices), ("fshape", .nats r.freeShape), ("shape", .nats r.shape),
    ("data", data)]

/-- Keep a value under the name that the request gives it, if any. -/
def keepFor (request : Doc) (v : Named) : Work Unit :=
  match request.get? "as" with
  | some (.str name) => keep name v
  | _ => return ()

def giveExpr (request : Doc) (e : Expr Float) : Work Doc := do
  keepFor request (.expr e)
  exprDoc e

def giveExprs (request : Doc) (es : List (Expr Float)) : Work Doc := do
  keepFor request (.exprs es)
  exprsDoc es

def givePairs (request : Doc) (ps : List (Expr Float × Expr Float)) : Work Doc := do
  keepFor request (.pairs ps)
  pairsDoc ps

def giveMonomials (request : Doc) (m : MonomialSum Float) : Work Doc := do
  keepFor request (.monomials m)
  monomialSumDoc m

/-- The answer of some work: its value, and the page of expressions if there is one. -/
def answerDoc (x : Work Doc) : Work Doc := do
  turnPage
  let v ← x
  let entries := (← get).page.entries
  return .object (("value", v) :: if entries.isEmpty then [] else [("nodes", .list entries.toList)])

end Work

end FormCompiler
