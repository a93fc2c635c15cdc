import FormCompiler.Code.Machine
import FormCompiler.Exchange.Context
import FormCompiler.Kernel.Compile

/-!
# Requests to compile

Forms and expressions are compiled, their kernels are run on given data, and what they compute is written with eight places.
-/

namespace FormCompiler

namespace Work

/-! ## Parameters -/

def kindName : Doc → String
  | .null => "NoneType"
  | .bool _ => "bool"
  | .int _ => "int"
  | .real _ => "float"
  | .str _ => "str"
  | .list _ => "list"
  | .object _ => "dict"

/-- A degree, none where it is left to the compiler. -/
def degree? : Doc → Work (Option Degree)
  | .str "auto" | .str "default" | .str "-1" | .null | .int (-1) => return none
  | .list ds => do return some (.split (← ds.mapM int))
  | d => do return some (.total (← int d))

/-- A rule, none where it is left to the compiler. -/
def foreignRule? : Doc → Option String
  | .str "auto" | .str "default" | .null => none
  | d => some (kindName d)

/-- A rule that a request gives by points and weights. -/
def rule? (d : Doc) : Work (Option Rule) := do
  match d.get? "rule" with
  | some (.list [ps, ws]) =>
    let ps ← points ps
    return some ⟨ps, ← (← items ws).mapM float⟩
  | _ => return none

/-- The parameters of a compilation; what a request does not set has its default. -/
def parametersAt (d : Doc) : Work Parameters := do
  let given := (d.get? "parameters").getD .null
  let start : Parameters := {}
  let mode ← match given.get? "mode" with
    | some m => string m
    | none => pure start.mode
  let unroll ← if given.has "unroll_indexsum" then extent ((given.get? "unroll_indexsum").getD .null)
    else pure start.unroll
  let precision ← intAt given "precision" start.precision
  let degree ← degree? ((given.get? "quadrature_degree").getD .null)
  let rule := match ← rule? d with
    | some r => .given r
    | none => ((foreignRule? ((given.get? "quadrature_rule").getD .null)).map RuleChoice.foreign).getD .byDegree
  return { rule, degree, mode, unroll, precision }

def optionsAt (d : Doc) : Work IntegralOptions := do
  let options := (d.get? "options").getD .null
  let metadata := (options.get? "metadata").getD .null
  let degree ← match options.get? "degree", metadata.get? "quadrature_degree" with
    | some n, _ => degree? n
    | none, some n => degree? n
    | none, none => pure none
  let mode ← match metadata.get? "mode" with
    | some m => do pure (some (← string m))
    | none => pure none
  let unroll ← if metadata.has "unroll_indexsum" then
      do pure (some (← extent ((metadata.get? "unroll_indexsum").getD .null)))
    else pure none
  return { degree, mode, unroll, foreignRule := foreignRule? ((metadata.get? "quadrature_rule").getD .null) }

/-! ## Forms -/

def measureType (name : String) : IntegralType :=
  match name with
  | "dx" => .cell
  | "ds" => .exteriorFacet
  | "dS" => .interiorFacet
  | "dP" => .vertex
  | "ds_b" => .exteriorFacetBottom
  | "ds_t" => .exteriorFacetTop
  | "ds_v" => .exteriorFacetVert
  | "dS_h" => .interiorFacetHoriz
  | "dS_v" => .interiorFacetVert
  | name => .other name

def regionAt (d : Doc) : Work Region := do
  match d.get? "subdomain" with
  | none => return .everywhere
  | some (.list ns) => return .numbered (← ns.mapM int)
  | some n => return .numbered [← int n]

def integralsAt (d : Doc) : Work (List (FormIntegral Float)) := do
  (← itemsAt d "integrals").mapM fun i => do
    let integrand ← termAt i "integrand"
    let type := measureType (← stringAt i "measure")
    let region ← regionAt i
    return { type, region, integrand, options := ← optionsAt i }

/-! ## Running kernels -/

def numbers : Doc → Work (List Float)
  | .list ds => do return (← ds.attach.mapM fun ⟨d, _⟩ => numbers d).flatten
  | d => do return [← float d]

/-- An argument of a kernel: a number, a list of numbers, or rows of numbers, which may have different lengths. -/
def cells (d : Doc) : Work (Code.Cells Float) := do
  match d with
  | .list ds =>
    if ds.any fun r => match r with | .list _ => true | _ => false then
      let rows ← ds.mapM numbers
      let width := rows.foldl (fun n r => max n r.length) 0
      let padded := rows.flatMap fun r => r ++ List.replicate (width - r.length) 0.0
      return ⟨[rows.length, width], padded.toArray⟩
    let xs ← ds.mapM float
    return ⟨[xs.length], xs.toArray⟩
  | d => return ⟨[], #[← float d]⟩

/-- A value with eight places, as a whole number. -/
def eightPlaces (x : Float) : Doc :=
  if x.isNaN then .str "nan" else .int (Double.rint (x * 1.0e8)).toInt64.toInt

/-- What a kernel adds to a cleared tensor with the given extents. -/
def runKernel (k : Kernel Float) (extents : List Nat) (given : Doc) : Work Doc := do
  let fields := match given with
    | .object fields => fields
    | _ => []
  let arrays ← fields.foldlM (fun (m : Std.HashMap String (Code.Cells Float)) (name, d) => do
    return m.insert name (← cells d)) ∅
  let size := extents.foldl (· * ·) 1
  let memory : Code.Memory Float := { arrays := arrays.insert "A" ⟨extents, Array.replicate size 0.0⟩ }
  let statements := k.body.filterMap fun p => match p with
    | .statement s => some s
    | .text _ => none
  match Code.runAll Code.Machine.double memory statements with
  | .ok m =>
    let values := (m.arrays.getD "A" ⟨[], #[]⟩).entries.toList
    return .object [("shape", .nats extents), ("values", .list (values.map eightPlaces))]
  | .error (.unknown name) => throw (.undefined name)
  | .error (.outside _) => refuse .outOfRange
  | .error .malformed => refuse .malformed

def argumentDocs (k : Kernel Float) : Doc :=
  .list (k.args.map fun a => (a.map Code.declarationDoc).getD .null)

/-- The data for a kernel: those under its name, or those for all. -/
def dataFor (d : Doc) (name : String) : Doc :=
  let all := (d.get? "data").getD .null
  ((all.get? name).or (all.get? "*")).getD .null

def subdomainDoc : Subdomain → Doc
  | .number n => .int n
  | .otherwise => .str "otherwise"

def compileForm (d : Doc) : Work Doc := do
  let convention := conventionAt d
  let integrals ← integralsAt d
  let p ← parametersAt d
  let stem ← match d.get? "prefix" with
    | some s => string s
    | none => pure "form"
  let kernels ← build (Compile.formKernels convention p stem (← mesh) integrals (← get).labels)
  let sorted := kernels.mergeSort fun a b => decide (a.kernel.name ≤ b.kernel.name)
  return .list (← sorted.mapM fun k => do
    let name := k.kernel.name
    let computed ← runKernel k.kernel k.extents (dataFor d name)
    let shown := [("name", .str name), ("args", argumentDocs k.kernel), ("A", computed)]
    if convention == .packed then return .object shown
    return .object (shown ++ [("integral_type", .str k.type.name), ("subdomain_id", subdomainDoc k.subdomain),
      ("domain_number", .nat 0), ("oriented", .bool k.oriented), ("coefficient_numbers", .nats k.coefficientNumbers)]))

/-- Compile an expression at points and run its kernel. -/
def compileExpression (d : Doc) : Work Doc := do
  let t ← termAt d "expr"
  let ps ← points (← field d "points")
  let p ← parametersAt d
  if !(Term.argumentsOf [t]).isEmpty then
    return .object [("returned", .str "ValueError"), ("text", .str "Cannot interpolate UFL expression with Arguments!")]
  let m ← mesh
  let k ← build (Compile.expressionKernel p.precision t ps ⟨999, m.coordinates, m⟩ (← get).labels)
  let computed ← runKernel k.kernel k.extents ((d.get? "data").getD .null)
  return .object [("name", .str k.kernel.name), ("oriented", .bool k.oriented),
    ("coefficients", .nats (k.coefficients.map (·.count))), ("args", argumentDocs k.kernel), ("A", computed)]

end Work

end FormCompiler
