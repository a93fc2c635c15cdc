import FormCompiler.Exchange.Workbench
import FormCompiler.Form.Integral
import FormCompiler.Form.Modified

/-!
# Reading and writing forms

Cells, elements, meshes and terms as documents. Terms are read from a notation with short names for the operators; they are
written with the full names, the operands of sums and products in the order of their texts, and indices numbered as they
appear.
-/

namespace FormCompiler

namespace Work

/-! ## Cells and elements -/

/-- A cell, or none. -/
def cell : Doc → Work (Option Cell)
  | .str s => match Cell.ofName? s with
    | some c => return some c
    | none => throw (.unreadable s!"cell {s}")
  | .list ds => do
    let cs ← ds.attach.mapM fun ⟨d, _⟩ => cell d
    return some (.product (cs.filterMap id))
  | _ => return none

def dim : Doc → Work Dim
  | .list ds => do return .split (← ds.mapM nat)
  | d => do return .plain (← nat d)

def dimDoc : Dim → Doc
  | .plain n => .nat n
  | .split ns => .nats ns

def string? : Doc → Work (Option String)
  | .null => return none
  | d => do return some (← string d)

/-- A whole number that may be absent. -/
def nat? : Doc → Work (Option Nat)
  | .null => return none
  | d => do return some (← nat d)

/-- An element; vectors and tensors have the extents of the space around the mesh unless others are given. -/
def element (gdim : Option Nat) : Doc → Work Element
  | .list (.str "vector" :: part :: rest) => do
    let part ← element gdim part
    let n ← match rest with
      | n :: _ => nat n
      | [] => return .vector part (gdim.getD ((part.cell?.map Cell.dimension).getD 0))
    return .vector part n
  | .list (.str "tensor" :: part :: rest) => do
    let part ← element gdim part
    let n := gdim.getD ((part.cell?.map Cell.dimension).getD 0)
    match rest with
    | options :: _ =>
      let shape ← match options.get? "shape" with
        | some (.list ds) => ds.mapM nat
        | _ => pure [n, n]
      return .tensor part shape (options.flag "symmetry")
    | [] => return .tensor part [n, n] false
  | .list (.str "mixed" :: parts) => do return .mixed (← parts.attach.mapM fun ⟨p, _⟩ => element gdim p)
  | .list (.str "enriched" :: parts) => do return .enriched (← parts.attach.mapM fun ⟨p, _⟩ => element gdim p)
  | .list (.str "nodal_enriched" :: parts) => do return .nodalEnriched (← parts.attach.mapM fun ⟨p, _⟩ => element gdim p)
  | .list [.str "broken", part] => do return .broken (← element gdim part)
  | .list [.str "restricted", part, domain] => do
    let part ← element gdim part
    return .restricted part (← string domain)
  | .list (.str "product" :: parts) => do return Element.productOf (← parts.attach.mapM fun ⟨p, _⟩ => element gdim p)
  | .list (.str "product_on" :: c :: parts) => do
    let c ← cell c
    return .product c (← parts.attach.mapM fun ⟨p, _⟩ => element gdim p)
  | .list [.str "hdiv", part] => do return .hdiv (← element gdim part)
  | .list [.str "hcurl", part] => do return .hcurl (← element gdim part)
  | .list [.str "quadrature", c, degree, scheme] => do
    let c ← cell c
    let degree ← nat? degree
    return .quadrature c degree (← string? scheme)
  | .list (.str family :: c :: degree :: rest) => do
    let c ← cell c
    let degree ← nat degree
    let variant ← match (rest.headD .null).get? "variant" with
      | some v => string? v
      | none => pure none
    return Element.ofFamily (Family.ofName family) c degree variant
  | _ => throw (.unreadable "element")

def declareMesh (d : Doc) : Work Domain := do
  let c := (← cell (← field d "cell")).getD .vertex
  let gdim ← match d.get? "gdim" with
    | some .null | none => pure c.dimension
    | some g => nat g
  let family ← match d.get? "family" with
    | some (.str f) => pure f
    | _ => pure "CG"
  let degree := (← intAt d "degree" 1).toNat
  let mesh : Domain := ⟨c, gdim, .vector (Element.ofFamily (Family.ofName family) (some c) degree none) gdim⟩
  let functions ← (← itemsAt d "functions").zipIdx.mapM fun (f, k) => do
    match ← items f with
    | [.str name, .str kind, e] =>
      let e ← element (some gdim) e
      let t : Terminal Float := match kind with
        | "test" => .argument ⟨0, e, mesh⟩
        | "trial" => .argument ⟨1, e, mesh⟩
        | _ => .coefficient ⟨1000 + k, e, mesh⟩
      return (name, t)
    | _ => throw (.unreadable "function")
  modify fun w => { w with mesh := some mesh, functions }
  return mesh

def mesh : Work Domain := do
  match (← get).mesh with
  | some m => return m
  | none => throw (.undefined "mesh")

def functionNamed (name : String) : Work (Terminal Float) := do
  match (← get).functions.lookup name with
  | some t => return t
  | none => throw (.undefined name)

def coefficientNamed (name : String) : Work Coefficient := do
  match ← functionNamed name with
  | .coefficient f => return f
  | _ => throw (.undefined name)

/-! ## Terms -/

/-- Operators with one operand by their short or full name. -/
def unaryOp? (head : String) : Option Op :=
  match head with
  | "grad" => some .gradient
  | "div" => some .divergence
  | "curl" => some .rotation
  | "abs" => some .abs
  | "sqrt" => some (.function .sqrt)
  | "exp" => some (.function .exp)
  | "ln" => some (.function .ln)
  | "sin" => some (.function .sin)
  | "cos" => some (.function .cos)
  | "tan" => some (.function .tan)
  | "tanh" => some (.function .tanh)
  | "not" => some .negation
  | "plus" => some (.restricted .plus)
  | "minus" => some (.restricted .minus)
  | "tr" => some .trace
  | "det" => some .determinant
  | "inv" => some .inverse
  | "T" => some .transposed
  | "sym" => some .symmetric
  | head =>
    let all : List Op := [.referenceValue, .referenceGradient, .referenceDivergence, .referenceRotation, .restricted .plus,
      .restricted .minus, .cellAverage, .facetAverage, .gradient, .divergence, .rotation, .abs, .negation, .transposed, .trace,
      .determinant, .inverse, .symmetric, .conjugate, .function .sqrt, .function .exp, .function .ln, .function .cos,
      .function .sin, .function .tan, .function .cosh, .function .sinh, .function .tanh, .function .acos, .function .asin,
      .function .atan, .function .erf]
    all.find? fun op => op.name == head

/-- Operators with two operands by their short or full name. -/
def binaryOp? (head : String) : Option Op :=
  match head with
  | "**" => some .power
  | "inner" => some .inner
  | "dot" => some .dot
  | "outer" => some .outer
  | "cross" => some .cross
  | "lt" => some (.compare .less)
  | "gt" => some (.compare .greater)
  | "le" => some (.compare .lessEq)
  | "ge" => some (.compare .greaterEq)
  | "eq" => some (.compare .equal)
  | "ne" => some (.compare .notEqual)
  | "and" => some .conjunction
  | "or" => some .disjunction
  | "min" => some .minimum
  | "max" => some .maximum
  | "atan_2" => some .arctangent
  | "bessel_J" => some (.bessel .first)
  | "bessel_Y" => some (.bessel .second)
  | "bessel_I" => some (.bessel .modifiedFirst)
  | "bessel_K" => some (.bessel .modifiedSecond)
  | head =>
    let all : List Op := [.sum, .product, .division, .power, .inner, .dot, .outer, .cross, .minimum, .maximum, .arctangent]
    all.find? fun op => op.name == head

/-- Geometric quantities by their short or full name. -/
def quantity? (head : String) : Option Quantity :=
  match head with
  | "x" => some .spatialCoordinate
  | "n" => some .facetNormal
  | "volume" => some .cellVolume
  | "area" => some .facetArea
  | "circumradius" => some .circumradius
  | head => Quantity.ofName? head

def combine (head : String) (args : List (Term Float)) : Work (Term Float) := do
  match head, args with
  | "+", a :: rest => return rest.foldl Term.sum a
  | "*", a :: rest => labelling (rest.foldlM Term.times a)
  | "-", [a, b] => labelling (Term.minus a b)
  | "/", [a, b] => labelling (Term.dividedBy a b)
  | "neg", [a] => labelling (Term.negated a)
  | "avg", [a] => labelling (Term.average a 0.5)
  | "jump", [a] => labelling (Term.jump a)
  | "jump", [a, n] => if a.shape.isEmpty then labelling (Term.scalarJumpAlong a n) else return Term.jumpAlong a n
  | "if", [c, a, b] => return Term.rebuild .conditional [c, a, b]
  | "vec", args => return Term.listTensor args
  | "variable", [a] => match a with
    | .node (.variable _) _ => return a
    | a => return .node (.variable (← labelling Labels.fresh)) [a]
  | head, [] => match quantity? head with
    | some q => return Term.geometric q (← mesh)
    | none => throw (.unreadable s!"expression {head}")
  | head, [a] => match unaryOp? head with
    | some op => return Term.rebuild op [a]
    | none => throw (.unreadable s!"expression {head}")
  | head, [a, b] => match binaryOp? head with
    | some op => return Term.rebuild op [a, b]
    | none => throw (.unreadable s!"expression {head}")
  | head, _ => throw (.unreadable s!"expression {head}")

mutual

def term : Doc → Work (Term Float)
  | .str name => do return Term.ofTerminal (← functionNamed name)
  | .int n => return Term.int n
  | .real x => return Term.number x
  | .list [.str "identity", n] => do return Term.identity (← nat n)
  | .list (.str "at" :: a :: places) => do
    let a ← term a
    let places ← places.mapM nat
    labelling (Term.slice a (places.map .fixed))
  | .list (.str "mat" :: rows) => do return Term.listTensor (← termRows rows)
  | .list (.str head :: args) => do combine head (← terms args)
  | _ => throw (.unreadable "expression")

def terms : List Doc → Work (List (Term Float))
  | [] => return []
  | d :: ds => do
    let t ← term d
    return t :: (← terms ds)

def termRows : List Doc → Work (List (Term Float))
  | [] => return []
  | .list entries :: ds => do
    let row := Term.listTensor (← terms entries)
    return row :: (← termRows ds)
  | d :: ds => do
    let row ← term d
    return row :: (← termRows ds)

end

def termAt (d : Doc) (key : String) : Work (Term Float) := do term (← field d key)

/-! ## Writing -/

/-- The number by which an index is written. -/
def labelText (i : Nat) : StateM (List Nat) Doc := do
  let seen ← get
  let k ← match seen.idxOf? i with
    | some k => pure k
    | none =>
      set (seen ++ [i])
      pure seen.length
  return .str s!"#{k}"

/-- A document as text: lists in square brackets, texts in quotes. -/
def shown : Doc → String
  | .str s => Text.quoted s
  | .list ds => Text.bracketed (ds.attach.map fun ⟨d, _⟩ => shown d)
  | d => d.text

def terminalDoc (t : Terminal Float) : Doc :=
  match t with
  | .zero s _ => .list [.str "Zero", .nats s]
  | .number x => .list [.str "value", .float x]
  | .identity _ => .list [.str "Identity"]
  | .coefficient f => .list [.str "coefficient", .nat f.count]
  | .argument v => .list [.str "argument", .nat v.number]
  | .geometric q _ => .list [.str q.name]

def termStep {K : Type} (leaf : Terminal K → Doc) : Term.Step K (StateM (List Nat)) Doc := fun t self =>
  match t with
  | .leaf u _ => return leaf u
  | .node op args => do
    let parts ← args.attach.mapM fun ⟨a, h⟩ => self a (by have := List.sizeOf_lt_of_mem h; simp; omega)
    let parts := if op == .sum || op == .product then parts.mergeSort fun a b => shown a ≤ shown b else parts
    let extra ← match op with
      | .indexed places =>
        let ds ← places.mapM fun p => match p with
          | .fixed n => pure (.nat n)
          | .label i => labelText i
        pure [Doc.list ds]
      | .indexSum i _ => do pure [Doc.list [← labelText i]]
      | .componentTensor binders => do pure [Doc.list (← binders.mapM fun b => labelText b.1)]
      | .variable _ => pure [Doc.list [.str "Label"]]
      | _ => pure []
    return .list (.str op.name :: parts ++ extra)

def termDoc (t : Term Float) : Doc := ((Term.recurse (termStep terminalDoc) t).run []).1

def modifierLines (m : Modified Float) : List String :=
  let averaged := match m.averaged with
    | some .cell => "cell"
    | some .facet => "facet"
    | none => "None"
  let side := match m.restriction with
    | some .plus => "+"
    | some .minus => "-"
    | none => "None"
  [s!"local_derivatives:  {m.derivatives}", s!"averaged:           {averaged}", s!"restriction:        {side}"]

/-- A side of a facet, or none. -/
def side? : Doc → Option Side
  | .str "+" => some .plus
  | .str "-" => some .minus
  | _ => none

end Work

end FormCompiler
