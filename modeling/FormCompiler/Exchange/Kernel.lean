import FormCompiler.Exchange.Form
import FormCompiler.Exchange.Program
import FormCompiler.Exchange.Read
import FormCompiler.Kernel.Builder

/-!
# Requests about kernels

The layout of arguments in either convention, and builders that are driven step by step.
-/

namespace FormCompiler

namespace Work

def conventionAt (d : Doc) : Convention :=
  match d.get? "interface" with
  | some (.str "ufc") => .packed
  | _ => .separate

def basesFor (c : Convention) : Bases := fun e => Basis.ofElement e (c == .separate)

def sidedDoc (s : Sided (Expr Float)) : Work Doc := do
  match s with
  | .one e => exprDoc e
  | .two a b => exprsDoc [a, b]

/-- A flag that may be given as a number; whether it is a truth value. -/
def truth : Doc → Bool × Bool
  | .bool b => (b, true)
  | .null => (false, false)
  | .int n => (n != 0, false)
  | .str s => (s != "", false)
  | .list ds => (!ds.isEmpty, false)
  | _ => (true, false)

/-- Is the request about interior facets? Only the packed convention takes other values for truth values. -/
def interiorAt (c : Convention) (d : Doc) : Work Bool := do
  let (on, plain) := truth ((d.get? "interior_facet").getD (.bool false))
  if c == .separate && !plain then refuse (.requirement "")
  return on

def layOutCoefficient (d : Doc) : Work Doc := do
  let c := conventionAt d
  let f ← coefficientNamed (← stringAt d "function")
  let name ← stringAt d "name"
  match c with
  | .separate =>
    let interior ← interiorAt c d
    let values ← build (Builder.separateValues (basesFor c) name f interior)
    return .list [Code.declarationDoc (Layout.inputArray name), ← sidedDoc values]
  | .packed =>
    let row ← nat (← field d "num")
    let interior ← interiorAt c d
    sidedDoc (← build (Builder.packedValues (basesFor c) name row f interior))

def layOutCoordinates (d : Doc) : Work Doc := do
  let f ← coefficientNamed (← stringAt d "function")
  let name ← stringAt d "name"
  let interior ← interiorAt .packed d
  match ← ofExcept (basesFor .packed f.element) with
  | .tensor base shape _ =>
    let (declarations, values) ← build (Layout.coordinates name base.indexShape shape interior)
    return .list [.list (declarations.map Code.declarationDoc), ← sidedDoc values]
  | _ => refuse (.requirement "")

def argumentShapes (c : Convention) (names : List Doc) : Work (List (List Nat)) :=
  names.mapM fun n => do
    match ← functionNamed (← string n) with
    | .argument a => build (Builder.indexShape (basesFor c) a.element)
    | .coefficient f => build (Builder.indexShape (basesFor c) f.element)
    | _ => refuse .absent

/-- The slots of several multi-indices one after the other. -/
def chainedSlots (ds : List Doc) : Work (List (Slot (Expr Float))) := do
  return (← ds.mapM slots).flatten

def layOutArguments (d : Doc) : Work Doc := do
  let c := conventionAt d
  let names ← itemsAt d "functions"
  for n in names do
    let _ ← functionNamed (← string n)
  let chained ← chainedSlots (← itemsAt d "multiindices")
  let interior ← interiorAt c d
  let shapes ← argumentShapes c names
  match c with
  | .separate =>
    let (declaration, entries) ← build (Layout.elementTensor shapes chained interior)
    return .list [Code.declarationDoc declaration, ← exprsDoc entries]
  | .packed =>
    let (declaration, clear, entries) ← build (Layout.flatElementTensor shapes chained interior)
    return .list [Code.declarationDoc declaration, .list (clear.map .str), ← exprsDoc entries]

def kernelDoc (k : Kernel Float) : Doc :=
  let args := k.args.map fun a => (a.map Code.declarationDoc).getD .null
  let body := k.body.map fun p => match p with
    | .text s => .str s
    | .statement s => Code.statementDoc s
  .object [("name", .str k.name), ("ret", .str "void"), ("pred", .list [.str "static", .str "inline"]),
    ("args", .list args), ("body", .list body)]

/-- Texts, none if there are none. -/
def pieces (d : Doc) : Work (List (Piece Float)) :=
  match d with
  | .list ds => ds.mapM fun t => do return .text (← string t)
  | _ => return []

/-- Is this the name of a side, or of none? -/
def isSide : Doc → Bool
  | .null | .str "+" | .str "-" => true
  | _ => false

def builderStep (expression : Bool) (b : Builder Float) (step : Doc) : Work (Builder Float × Doc) := do
  let bases := basesFor b.convention
  match ← items step with
  | [.str "cell_orientation", r] =>
    if !isSide r then refuse .missing
    let e ← build (b.cellOrientation (side? r))
    return (b, ← exprDoc e)
  | [.str "entity_number", r] =>
    let _ ← build b.entityTable
    if !isSide r then refuse .missing
    let s ← build (b.entityNumber (side? r))
    return (b, ← slotDoc s)
  | [.str "needs_cell_orientations", es] =>
    let es ← exprs es
    return (b, .bool (b.needsOrientations es))
  | [.str "require_cell_orientations"] => return ({ b with oriented := true }, .null)
  | .str "set_coordinates" :: rs =>
    if expression then refuse .absent
    let d ← mesh
    let b ← build (b.setCoordinates bases d)
    let f ← build (b.coordinateField d)
    return (b, ← exprsDoc (← rs.mapM fun r => build (b.coefficient f (side? r))))
  | [.str "set_arguments", names, is] =>
    if expression then refuse .absent
    let shapes ← argumentShapes b.convention (← items names)
    let chained ← chainedSlots (← items is)
    let (b, entries) ← build (b.setArguments shapes chained)
    return (b, ← exprsDoc entries)
  | .str "set_coefficients" :: names :: rest =>
    let fs ← (← items names).mapM fun n => do coefficientNamed (← string n)
    if expression then return (← build (b.setExpressionCoefficients bases fs), .null)
    let enabled := match rest with
      | .list flags :: _ => flags.map fun d => (truth d).1
      | _ => fs.map fun _ => true
    let (b, numbers) ← build (b.setCoefficients bases fs enabled)
    return (b, if b.convention == .separate then .nats numbers else .null)
  | [.str "coefficient", name, r] =>
    let f ← coefficientNamed (← string name)
    return (b, ← exprDoc (← build (b.coefficient f (side? r))))
  | [.str "apply_glue", first, last] =>
    let first ← pieces first
    let last ← pieces last
    return ({ b with before := b.before ++ first, after := b.after ++ last }, .null)
  | [.str "create_element", e] =>
    let gdim := (← get).mesh.map (·.gdim)
    let e ← element gdim e
    return (b, .nats (← build (Builder.indexShape bases e)))
  | [.str "construct_kernel", name, body] =>
    let name ← string name
    let body ← pieces body
    if expression then return (b, kernelDoc (← build (b.expressionKernel { type := "double", name } body)))
    return (b, kernelDoc (← build (b.kernel name body)))
  | [.str "construct_empty_kernel", name] =>
    if expression then refuse .absent
    let k ← build (b.emptyKernel (← string name))
    return (b, (k.map kernelDoc).getD .null)
  | _ => throw (.unreadable "step")

/-- A builder driven step by step; what is refused is written by `refusal`. -/
def driveBuilder (refusal : Fault → Doc) (d : Doc) : Work Doc := do
  let expression := d.flag "expression"
  let mut b ← if expression then build Builder.forExpression
    else do
      let t ← stringAt d "integral_type"
      build (Builder.new (conventionAt d) (IntegralType.ofName t))
  let mut rows := #[]
  for step in ← itemsAt d "steps" do
    match ← attempt (builderStep expression b step) with
    | .ok (next, row) =>
      b := next
      rows := rows.push row
    | .error f => rows := rows.push (refusal f)
  return .list rows.toList

end Work

end FormCompiler
