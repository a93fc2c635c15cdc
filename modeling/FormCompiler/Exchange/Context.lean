import FormCompiler.Code.Generate
import FormCompiler.Exchange.Kernel
import FormCompiler.Lowering.Terminal

/-!
# Requests about contexts

Point sets, tables of derivatives, single geometric quantities, and the properties of contexts given by keywords.
-/

namespace FormCompiler

namespace Work

def point : Doc → Work (List Float)
  | .list ds => ds.mapM float
  | d => do return [← float d]

def points (d : Doc) : Work (List (List Float)) := do (← items d).mapM point

def pointSetRequest (d : Doc) : Work Doc := do
  let given ← field d "points"
  let ps ← if (← stringAt d "kind") == "set" then do
      let rows ← points given
      build (PointSet.ofPoints rows)
    else do
      let p ← point given
      pure (.one p)
  let extents ← ps.indices.mapM fun i => build (Build.extent i)
  let e ← build ps.expression
  return .object [("indices", shapeDoc extents), ("dimension", .nat ps.dimension),
    ("points", .list (ps.points.map fun row => .list (row.map .float))), ("expression", ← exprDoc e)]

/-- Tables of derivatives arranged as one tensor. -/
def arrangeRequest (d : Doc) : Work Doc := do
  let tables ← (← itemsAt d "tables").mapM (twoOf (fun a => do (← items a).mapM nat) expr)
  let order ← nat (← field d "order")
  giveExpr d (← build (arrangeDerivatives tables order))

def plainBases : Bases := basesFor .separate

def quantityRequest (d : Doc) : Work Doc := do
  let c := (← cell (← field d "cell")).getD .vertex
  let mesh : Domain := ⟨c, c.dimension, .vector (Element.ofFamily .lagrange (some c) 1 none) c.dimension⟩
  let quantity ← stringAt d "quantity"
  let t := IntegralType.ofName (← stringAt d "integral_type")
  let side := side? ((d.get? "restriction").getD .null)
  let rows ← points (← field d "points")
  let weights ← (← itemsAt d "weights").mapM float
  let (dim, entities) ← ofExcept (t.entities c)
  let e ← build do
    let builder ← Builder.new .separate t
    let ps ← PointSet.ofPoints rows
    let epsilon ← MonadExcept.ofExcept (Code.tolerance 15)
    let context : Context :=
      { builder, bases := plainBases, cell := c, integralType := some t, dim, entities, epsilon, points := ps
        weights := some weights }
    match Quantity.ofName? quantity with
    | some q =>
      let m : Modified Float := { terminal := .geometric q mesh, restriction := side }
      (Terminal.quantityValue context q mesh m).run' {}
    | none => throw .absent
  giveExpr d e

/-! ## Contexts by keywords -/

def contextKeywords (kind : String) : List String :=
  ["ufl_cell", "fiat_cell", "integral_type", "integration_dim", "entity_ids", "precision", "argument_multiindices",
    "facetarea", "index_cache"] ++
  match kind with
  | "points" => ["quadrature_degree", "quadrature_rule", "point_set", "weight_expr"]
  | "gem" => ["point_indices", "point_expr", "weight_expr"]
  | _ => []

def shownValue : Doc → Doc
  | .real x => .float x
  | .list ds => .list (ds.attach.map fun ⟨d, _⟩ => shownValue d)
  | .object fields => .list (fields.map fun (k, _) => .str k)
  | d => d

def keyword (given : List (String × Doc)) (name : String) : Work Doc :=
  match given.lookup name with
  | some d => return d
  | none => refuse .absent

def contextDim (given : List (String × Doc)) : Work Dim := do
  match given.lookup "integration_dim" with
  | some d => dim d
  | none => return ((← cell (← keyword given "ufl_cell")).getD .vertex).dim

/-- The extents of the indices that run through the points. -/
def contextPoints (kind : String) (given : List (String × Doc)) : Work Doc := do
  match kind with
  | "points" =>
    let c := (← cell (← keyword given "ufl_cell")).getD .vertex
    let d ← contextDim given
    let degree : Degree ← match ← keyword given "quadrature_degree" with
      | .list ds => pure (.split (← ds.mapM int))
      | n => do pure (.total (← int n))
    let rule ← ofExcept (Quadrature.rule (c.subcell d) degree)
    return .nats [rule.points.length]
  | "gem" =>
    let is ← indices (← keyword given "point_indices")
    return shapeDoc (← is.mapM fun i => build (Build.extent i))
  | _ => refuse .absent

def contextProperty (kind : String) (given : List (String × Doc)) (name : String) : Work Doc := do
  match name with
  | "npoints" => contextPoints kind given
  | "integration_dim" => return dimDoc (← contextDim given)
  | "entity_selector" =>
    let ids ← match given.lookup "entity_ids" with
      | some ds => (← items ds).mapM nat
      | none => pure [0]
    let e ← build do
      let builder ← Builder.new .separate .exteriorFacet
      let each := fun (n : Nat) => Build.number (Float.ofNat (n + 1))
      match ids with
      | [n] => each n
      | ids => Rewrite.select (← ids.mapM each) (← builder.entityNumber none)
    exprDoc e
  | "point_evaluation" =>
    if kind != "gem" then refuse .absent
    let p ← keyword given "point_expr"
    return .list [.int 2, shownValue p, .list [dimDoc (← contextDim given), .int 1]]
  | "epsilon" =>
    let precision ← match given.lookup "precision" with
      | some p => int p
      | none => pure 15
    return .float (← ofExcept (Code.tolerance precision))
  | name =>
    match given.lookup name, name with
    | some d, _ => return shownValue d
    | none, "entity_ids" => return .nats [0]
    | none, "precision" => return .int 15
    | none, "index_cache" | none, "argument_multiindices" => return .list []
    | none, _ => refuse .absent

/-- The properties of a context given by keywords; what is refused is written by `refusal`. -/
def contextRequest (refusal : Fault → Doc) (d : Doc) : Work Doc := do
  let kind ← stringAt d "kind"
  let given := match d.get? "kwargs" with
    | some (.object fields) => fields.map fun (k, v) => (if k == "cell" then "ufl_cell" else k, v)
    | _ => []
  match given.find? fun p => !(contextKeywords kind).contains p.1 with
  | some (name, _) => refuse (.invalid s!"unexpected keyword argument '{name}'")
  | none => pure ()
  let names ← (← itemsAt d "get").mapM string
  return .list (← names.mapM fun name => do
    match ← attempt (contextProperty kind given name) with
    | .ok v => return v
    | .error f => return refusal f)

end Work

end FormCompiler
