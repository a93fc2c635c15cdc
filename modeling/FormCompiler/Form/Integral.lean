import FormCompiler.Cell
import FormCompiler.Error

/-!
# Kinds of integrals

An integral is taken over cells, over facets, or over vertices. On a product of a base cell and an interval the facets at
the two ends of the interval are told from those on the sides. Each kind is an integral over some entities of the reference
cell.
-/

namespace FormCompiler

inductive IntegralType where
  | cell | exteriorFacet | interiorFacet | vertex
  | exteriorFacetBottom | exteriorFacetTop | exteriorFacetVert | interiorFacetHoriz | interiorFacetVert
  /-- A kind of which only the name is known. -/
  | other (name : String)
  deriving DecidableEq, Hashable, Repr, Inhabited

namespace IntegralType

/-- The kinds with their names, in the order in which the integrals of a form are treated. -/
def table : List (IntegralType × String) :=
  [(.cell, "cell"), (.exteriorFacet, "exterior_facet"), (.interiorFacet, "interior_facet"), (.vertex, "vertex"),
   (.exteriorFacetBottom, "exterior_facet_bottom"), (.exteriorFacetTop, "exterior_facet_top"),
   (.exteriorFacetVert, "exterior_facet_vert"), (.interiorFacetHoriz, "interior_facet_horiz"),
   (.interiorFacetVert, "interior_facet_vert")]

def ofName (s : String) : IntegralType := ((table.find? fun (_, n) => n == s).map Prod.fst).getD (.other s)

def name (t : IntegralType) : String :=
  match t with
  | .other s => s
  | t => ((table.find? fun (u, _) => u == t).map Prod.snd).getD ""

/-- Do two cells meet at the facets? -/
def isInterior (t : IntegralType) : Bool := t.name.startsWith "interior_facet"

/-- Facets on the sides of a product. -/
def isVertical : IntegralType → Bool
  | .exteriorFacetVert | .interiorFacetVert => true
  | _ => false

def dimension (t : IntegralType) (c : Cell) : Except Error Dim :=
  let shown := t.name
  match t with
  | .cell => .ok c.dim
  | .exteriorFacet | .interiorFacet =>
    if c.isProduct then
      .error (.invalid s!"{shown} integral cannot be used with a TensorProductCell; need to distinguish between vertical and horizontal contributions.")
    else .ok (.plain (c.dimension - 1))
  | .vertex => .ok (.plain 0)
  | .other _ => .error (.notProvided s!"integral type {shown} not supported")
  | t =>
    match c with
    | .product factors =>
      match factors.map Cell.dimension with
      | [base, extruded] =>
        if extruded != 1 then .error (.requirement "")
        else .ok (.split (if t.isVertical then [base - 1, 1] else [base, 0]))
      | _ => .error .malformed
    | _ => .error (.invalid s!"{shown} integral requires a TensorProductCell.")

/-- The dimension and the numbers of the entities over which the integral is taken. -/
def entities (t : IntegralType) (c : Cell) : Except Error (Dim × List Nat) := do
  let d ← t.dimension c
  match t with
  | .exteriorFacetBottom => .ok (d, [0])
  | .exteriorFacetTop => .ok (d, [1])
  | _ =>
    match c.entities? d with
    | some es => .ok (d, List.range es.length)
    | none => .error .missing

end IntegralType

end FormCompiler
