import FormCompiler.Cell

/-!
# Finite elements as they are described

A description says which space of functions is meant: a family with a cell and a degree, or a space made of others. From
it follow the shape of the values, on a cell of the mesh and on the reference cell, and how values are carried from one
to the other. The functions themselves are made in `FormCompiler.Element.Basis`.
-/

namespace FormCompiler

inductive Family where
  | lagrange | discontinuousLagrange | bubble | crouzeixRaviart | discontinuousTaylor
  | gaussLobattoLegendre | gaussLegendre
  | raviartThomas | discontinuousRaviartThomas | brezziDouglasMarini | brezziDouglasFortinMarini
  | nedelecFirst | nedelecSecond
  | regge | hellanHerrmannJohnson
  | facetTrace
  | cubeLagrange | cubeDiscontinuous | cubeEdge | cubeFace
  /-- A single number for the whole mesh. -/
  | real
  /-- A family of which only the name is known. -/
  | named (name : String)
  deriving DecidableEq, Hashable, Repr, Inhabited

namespace Family

def table : List (Family × String × String) :=
  [(.lagrange, "Lagrange", "CG"),
   (.discontinuousLagrange, "Discontinuous Lagrange", "DG"),
   (.bubble, "Bubble", "B"),
   (.crouzeixRaviart, "Crouzeix-Raviart", "CR"),
   (.discontinuousTaylor, "Discontinuous Taylor", "TDG"),
   (.gaussLobattoLegendre, "Gauss-Lobatto-Legendre", "GLL"),
   (.gaussLegendre, "Gauss-Legendre", "GL"),
   (.raviartThomas, "Raviart-Thomas", "RT"),
   (.discontinuousRaviartThomas, "Discontinuous Raviart-Thomas", "DRT"),
   (.brezziDouglasMarini, "Brezzi-Douglas-Marini", "BDM"),
   (.brezziDouglasFortinMarini, "Brezzi-Douglas-Fortin-Marini", "BDFM"),
   (.nedelecFirst, "Nedelec 1st kind H(curl)", "N1curl"),
   (.nedelecSecond, "Nedelec 2nd kind H(curl)", "N2curl"),
   (.regge, "Regge", "Regge"),
   (.hellanHerrmannJohnson, "Hellan-Herrmann-Johnson", "HHJ"),
   (.facetTrace, "HDiv Trace", "HDivT"),
   (.cubeLagrange, "Q", "Q"),
   (.cubeDiscontinuous, "DQ", "DQ"),
   (.cubeEdge, "RTCE", "RTCE"),
   (.cubeFace, "RTCF", "RTCF"),
   (.real, "Real", "R")]

def aliases : List (String × Family) :=
  [("P", .lagrange), ("DP", .discontinuousLagrange), ("N1div", .raviartThomas), ("N2div", .brezziDouglasMarini),
   ("Nedelec 1st kind H(div)", .raviartThomas), ("Nedelec 2nd kind H(div)", .brezziDouglasMarini),
   ("N1E", .nedelecFirst), ("N1F", .raviartThomas), ("N2E", .nedelecSecond), ("N2F", .brezziDouglasMarini),
   ("Lob", .gaussLobattoLegendre), ("Lobatto", .gaussLobattoLegendre)]

def ofName (name : String) : Family :=
  match table.find? fun (_, long, short) => long == name || short == name with
  | some (f, _, _) => f
  | none => ((aliases.find? fun (a, _) => a == name).map Prod.snd).getD (.named name)

def name (f : Family) : String :=
  match f with
  | .named n => n
  | f => ((table.find? fun (g, _, _) => g == f).map fun (_, long, _) => long).getD ""

def isSupported : Family → Bool
  | .named _ | .real => false
  | _ => true

/-- Families that exist on a product of intervals only, in which they are products. -/
def isCube : Family → Bool
  | .cubeLagrange | .cubeDiscontinuous | .cubeEdge | .cubeFace => true
  | _ => false

end Family

/-- How the values of a function on the reference cell are carried to a cell of the mesh. -/
inductive Mapping where
  | identity
  | contravariant | covariant
  | doubleContravariant | doubleCovariant
  /-- The components that are stored once stand at several places. -/
  | symmetries
  /-- Part by part. -/
  | mixed
  deriving DecidableEq, Repr, Inhabited

inductive Element where
  | simple (family : Family) (cell : Option Cell) (degree : Nat) (variant : Option String)
  | quadrature (cell : Option Cell) (degree : Option Nat) (scheme : Option String)
  | vector (part : Element) (size : Nat)
  | tensor (part : Element) (shape : List Nat) (symmetric : Bool)
  | mixed (parts : List Element)
  | enriched (parts : List Element)
  /-- Enriched, with functions that are dual to the degrees of freedom of all parts. -/
  | nodalEnriched (parts : List Element)
  | broken (part : Element)
  | restricted (part : Element) (domain : String)
  | product (cell : Option Cell) (parts : List Element)
  | hdiv (part : Element)
  | hcurl (part : Element)
  deriving Repr, Inhabited

namespace Element

mutual

/-- A measure of descriptions: parts have less. A family of products has more than the product that it stands for. -/
def rank : Element → Nat
  | .simple f _ _ _ => if f.isCube then 10 else 1
  | .quadrature .. | .nodalEnriched _ | .restricted _ _ => 1
  | .vector p _ | .tensor p _ _ | .broken p | .hdiv p | .hcurl p => rank p + 1
  | .mixed ps | .enriched ps | .product _ ps => rankAll ps + 1

def rankAll : List Element → Nat
  | [] => 0
  | p :: ps => rank p + rankAll ps

end

theorem rank_lt_of_mem {p : Element} {ps : List Element} (h : p ∈ ps) : rank p < rankAll ps + 1 := by
  induction h with
  | head ps => simp only [rankAll]; omega
  | tail q _ ih => simp only [rankAll]; omega

mutual

def same : Element → Element → Bool
  | .simple f c d v, .simple f' c' d' v' => f == f' && c == c' && d == d' && v == v'
  | .quadrature c d s, .quadrature c' d' s' => c == c' && d == d' && s == s'
  | .vector p n, .vector p' n' => same p p' && n == n'
  | .tensor p s y, .tensor p' s' y' => same p p' && s == s' && y == y'
  | .mixed ps, .mixed ps' => sameAll ps ps'
  | .enriched ps, .enriched ps' => sameAll ps ps'
  | .nodalEnriched ps, .nodalEnriched ps' => sameAll ps ps'
  | .broken p, .broken p' => same p p'
  | .restricted p d, .restricted p' d' => same p p' && d == d'
  | .product c ps, .product c' ps' => c == c' && sameAll ps ps'
  | .hdiv p, .hdiv p' => same p p'
  | .hcurl p, .hcurl p' => same p p'
  | _, _ => false

def sameAll : List Element → List Element → Bool
  | [], [] => true
  | a :: as, b :: bs => same a b && sameAll as bs
  | _, _ => false

end

mutual

theorem same_iff (a b : Element) : same a b = true ↔ a = b := by
  match a with
  | .simple .. => cases b <;> simp [same, and_assoc]
  | .quadrature .. => cases b <;> simp [same, and_assoc]
  | .vector p n => cases b <;> simp [same, same_iff p]
  | .tensor p s y => cases b <;> simp [same, same_iff p, and_assoc]
  | .mixed ps => cases b <;> simp [same, sameAll_iff ps]
  | .enriched ps => cases b <;> simp [same, sameAll_iff ps]
  | .nodalEnriched ps => cases b <;> simp [same, sameAll_iff ps]
  | .broken p => cases b <;> simp [same, same_iff p]
  | .restricted p d => cases b <;> simp [same, same_iff p]
  | .product c ps => cases b <;> simp [same, sameAll_iff ps]
  | .hdiv p => cases b <;> simp [same, same_iff p]
  | .hcurl p => cases b <;> simp [same, same_iff p]

theorem sameAll_iff (as bs : List Element) : sameAll as bs = true ↔ as = bs := by
  match as, bs with
  | [], [] => simp [sameAll]
  | [], _ :: _ => simp [sameAll]
  | _ :: _, [] => simp [sameAll]
  | a :: as, b :: bs => simp [sameAll, same_iff a b, sameAll_iff as bs]

end

instance : DecidableEq Element := fun a b => decidable_of_iff _ (same_iff a b)

def digest : Element → UInt64
  | .simple f c d v => mixHash (mixHash 1 (hash f)) (mixHash (hash c) (mixHash (hash d) (hash v)))
  | .quadrature c d s => mixHash (mixHash 2 (hash c)) (mixHash (hash d) (hash s))
  | .vector p n => mixHash (mixHash 3 (digest p)) (hash n)
  | .tensor p s y => mixHash (mixHash 5 (digest p)) (mixHash (hash s) (hash y))
  | .mixed ps => mixHash 7 (hash (ps.map digest))
  | .enriched ps => mixHash 11 (hash (ps.map digest))
  | .nodalEnriched ps => mixHash 13 (hash (ps.map digest))
  | .broken p => mixHash 17 (digest p)
  | .restricted p d => mixHash (mixHash 19 (digest p)) (hash d)
  | .product c ps => mixHash (mixHash 23 (hash c)) (hash (ps.map digest))
  | .hdiv p => mixHash 29 (digest p)
  | .hcurl p => mixHash 31 (digest p)

instance : Hashable Element := ⟨digest⟩

/-- The element of a family. On a product of cells the nodal families are products of the families of their factors, and on
a quadrilateral they are those of the square. -/
def ofFamily (family : Family) (cell : Option Cell) (degree : Nat) (variant : Option String) : Element :=
  match cell with
  | some (.product factors) =>
    let part := fun (continuous : Bool) (c : Cell) =>
      let f : Family := match c, continuous with
        | .quadrilateral, true => .cubeLagrange
        | .quadrilateral, false => .cubeDiscontinuous
        | _, true => .lagrange
        | _, false => .discontinuousLagrange
      .simple f (some c) degree variant
    match family with
    | .lagrange | .cubeLagrange => .product cell (factors.map (part true))
    | .discontinuousLagrange | .cubeDiscontinuous => .product cell (factors.map (part false))
    | .cubeFace | .cubeEdge =>
      let c := .simple .lagrange (some .interval) degree variant
      let d := .simple .discontinuousLagrange (some .interval) (degree - 1) variant
      let place : Element → Element := if family == .cubeFace then .hdiv else .hcurl
      .enriched [place (.product cell [c, d]), place (.product cell [d, c])]
    | f => .simple f cell degree variant
  | some .quadrilateral =>
    let f : Family := match family with
      | .lagrange => .cubeLagrange
      | .discontinuousLagrange => .cubeDiscontinuous
      | f => f
    .simple f cell degree variant
  | _ => .simple family cell degree variant

mutual

/-- The cell of the element, that of the first part if it has parts. -/
def cell? : Element → Option Cell
  | .simple _ c _ _ => c
  | .quadrature c _ _ => c
  | .vector p _ => cell? p
  | .tensor p _ _ => cell? p
  | .mixed ps => firstCell? ps
  | .enriched ps => firstCell? ps
  | .nodalEnriched ps => firstCell? ps
  | .broken p => cell? p
  | .restricted p _ => cell? p
  | .product c _ => c
  | .hdiv p => cell? p
  | .hcurl p => cell? p

def firstCell? : List Element → Option Cell
  | [] => none
  | p :: _ => cell? p

end

def productOf (parts : List Element) : Element :=
  .product ((parts.mapM cell?).map Cell.product) parts

/-- A family of products as the product that it is on two intervals. -/
def onIntervals (f : Family) (degree : Nat) (variant : Option String) : Element :=
  let a := simple .lagrange (some .interval) degree variant
  let b := simple .discontinuousLagrange (some .interval) degree variant
  let c := simple .discontinuousLagrange (some .interval) (degree - 1) variant
  match f with
  | .cubeLagrange => productOf [a, a]
  | .cubeDiscontinuous => productOf [b, b]
  | .cubeFace => enriched [hdiv (productOf [a, c]), hdiv (productOf [c, a])]
  | _ => enriched [hcurl (productOf [a, c]), hcurl (productOf [c, a])]

theorem rank_onIntervals {f : Family} (h : f.isCube = true) (c : Option Cell) (degree : Nat) (variant : Option String) :
    rank (onIntervals f degree variant) < rank (simple f c degree variant) := by
  cases f <;> simp_all [Family.isCube, onIntervals, productOf, rank, rankAll]

/-- The number of entries of a tensor. -/
def size (shape : List Nat) : Nat := shape.foldl (· * ·) 1

/-- The number of pairs `i ≤ j` below `n`. -/
def symmetricSize (n : Nat) : Nat := n * (n + 1) / 2

/-- The shape of the values of a family on a cell of dimension `d`. -/
def familyShape (f : Family) (d : Nat) : List Nat :=
  match f with
  | .raviartThomas | .discontinuousRaviartThomas | .brezziDouglasMarini | .brezziDouglasFortinMarini
  | .nedelecFirst | .nedelecSecond | .cubeEdge | .cubeFace => [d]
  | .regge | .hellanHerrmannJohnson => [d, d]
  | _ => []

mutual

def referenceShape : Element → List Nat
  | .simple f c _ _ => familyShape f ((c.map Cell.dimension).getD 0)
  | .quadrature _ _ _ => []
  | .vector p n => n :: referenceShape p
  | .tensor p shape symmetric =>
    (if symmetric then [symmetricSize (shape.headD 0)] else shape) ++ referenceShape p
  | .mixed ps => [referenceSizes ps]
  | .enriched ps => firstReferenceShape ps
  | .nodalEnriched ps => firstReferenceShape ps
  | .broken p => referenceShape p
  | .restricted p _ => referenceShape p
  | .product _ ps => referenceShapes ps
  | .hdiv p => [((cell? p).map Cell.dimension).getD 0]
  | .hcurl p => [((cell? p).map Cell.dimension).getD 0]

/-- The number of components of all parts on the reference cell. -/
def referenceSizes : List Element → Nat
  | [] => 0
  | p :: ps => size (referenceShape p) + referenceSizes ps

def firstReferenceShape : List Element → List Nat
  | [] => []
  | p :: _ => referenceShape p

/-- The shapes of values of the factors of a product, one after the other. -/
def referenceShapes : List Element → List Nat
  | [] => []
  | p :: ps => referenceShape p ++ referenceShapes ps

end

mutual

/-- The shape of values on a cell of a mesh in a space of dimension `gdim`. -/
def valueShape (gdim : Nat) : Element → List Nat
  | .simple f _ _ _ => familyShape f gdim
  | .quadrature _ _ _ => []
  | .vector p n => n :: valueShape gdim p
  | .tensor p shape _ => shape ++ valueShape gdim p
  | .mixed ps => [valueSizes gdim ps]
  | .enriched ps => firstValueShape gdim ps
  | .nodalEnriched ps => firstValueShape gdim ps
  | .broken p => valueShape gdim p
  | .restricted p _ => valueShape gdim p
  | .product _ ps => valueShapes gdim ps
  | .hdiv _ => [gdim]
  | .hcurl _ => [gdim]

/-- The number of components of all parts. -/
def valueSizes (gdim : Nat) : List Element → Nat
  | [] => 0
  | p :: ps => size (valueShape gdim p) + valueSizes gdim ps

def firstValueShape (gdim : Nat) : List Element → List Nat
  | [] => []
  | p :: _ => valueShape gdim p

/-- The shapes of values of the factors of a product, one after the other. -/
def valueShapes (gdim : Nat) : List Element → List Nat
  | [] => []
  | p :: ps => valueShape gdim p ++ valueShapes gdim ps

end

/-- How the values of a family are carried to the mesh. -/
def familyMapping : Family → Mapping
  | .raviartThomas | .discontinuousRaviartThomas | .brezziDouglasMarini | .brezziDouglasFortinMarini
  | .cubeFace => .contravariant
  | .nedelecFirst | .nedelecSecond | .cubeEdge => .covariant
  | .regge => .doubleCovariant
  | .hellanHerrmannJohnson => .doubleContravariant
  | _ => .identity

mutual

/-- How values are carried to the mesh. -/
def mapping : Element → Mapping
  | .simple f _ _ _ => familyMapping f
  | .quadrature _ _ _ => .identity
  | .vector p _ => if mapping p == .identity then .identity else .mixed
  | .tensor p _ symmetric =>
    if mapping p == .identity then (if symmetric then .symmetries else .identity) else .mixed
  | .mixed ps => if allIdentity ps then .identity else .mixed
  | .enriched ps => firstMapping ps
  | .nodalEnriched ps => firstMapping ps
  | .broken p => mapping p
  | .restricted p _ => mapping p
  | .product _ ps => if allIdentity ps then .identity else .mixed
  | .hdiv _ => .contravariant
  | .hcurl _ => .covariant

/-- Are the values of all parts carried as they are? -/
def allIdentity : List Element → Bool
  | [] => true
  | p :: ps => mapping p == .identity && allIdentity ps

/-- How the values of the first part are carried. -/
def firstMapping : List Element → Mapping
  | [] => .identity
  | p :: _ => mapping p

end

/-- The elements of which a mixed element is made; a vector or tensor of elements has one for each component. -/
def parts : Element → List Element
  | .mixed ps => ps
  | .vector p n => List.replicate n p
  | .tensor p shape symmetric => List.replicate (if symmetric then symmetricSize (shape.headD 0) else size shape) p
  | _ => []

def isMixed : Element → Bool
  | .mixed _ => true
  | _ => false

mutual

/-- Does every function have a single value in each cell? -/
def isCellwiseConstant : Element → Bool
  | .simple f _ degree _ => f == .real || degree == 0
  | .quadrature _ degree _ => degree == some 0
  | .vector p _ => isCellwiseConstant p
  | .tensor p _ _ => isCellwiseConstant p
  | .mixed ps => allCellwiseConstant ps
  | .enriched ps => allCellwiseConstant ps
  | .nodalEnriched ps => allCellwiseConstant ps
  | .broken p => isCellwiseConstant p
  | .restricted p _ => isCellwiseConstant p
  | .product _ _ => false
  | .hdiv _ => false
  | .hcurl _ => false

/-- Do the functions of all elements have a single value in each cell? -/
def allCellwiseConstant : List Element → Bool
  | [] => true
  | p :: ps => isCellwiseConstant p && allCellwiseConstant ps

end

def family? : Element → Option Family
  | .simple f _ _ _ => some f
  | .vector p _ => family? p
  | .tensor p _ _ => family? p
  | _ => none

/-- Are the components numbers for the whole mesh? -/
def isReal (e : Element) : Bool := e.family? == some .real

end Element

end FormCompiler
