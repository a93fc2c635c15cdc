import FormCompiler.Element.Functions

/-!
# Bases of elements

A basis numbers the functions of an element by one index or several, and says which shape their values have. Making a
basis from a description is open recursion over its parts: run plainly it is a function of the description, run with a
store each description is made once. A vector of elements numbers its components before or after the functions, as asked
for; a basis remembers whether that mattered, and one for which it did not is found again under either order.
-/

namespace FormCompiler

namespace Functions

/-- The functions of a nodal family, as its variant wants the nodes. -/
def nodal (f : Family) (c : Cell) (degree : Nat) (variant : Option String) : Except Error Functions :=
  let shown := Text.quoted (variant.getD "")
  let place := c.name
  let refused : Except Error Functions := .error (.invalid s!"Variant {shown} not supported on {place}")
  match f, variant.getD "equispaced" with
  | .lagrange, "equispaced" => .ok (lagrange c degree)
  | .lagrange, "spectral" => if c == .interval then .ok (gaussLobattoLegendre degree) else refused
  | .lagrange, _ => refused
  | .discontinuousLagrange, "equispaced" => .ok (discontinuous c degree)
  | .discontinuousLagrange, "spectral" => if c == .interval then .ok (gaussLegendre degree) else refused
  | .discontinuousLagrange, _ => refused
  | f, _ => ofFamily f c degree

/-- The functions of a family of products on the quadrilateral. -/
def cube (f : Family) (degree : Nat) (variant : Option String) : Except Error Functions := do
  match f with
  | .cubeLagrange =>
    let a ← nodal .lagrange .interval degree variant
    .ok (times a a).flatten
  | .cubeDiscontinuous =>
    let a ← nodal .discontinuousLagrange .interval degree variant
    .ok (times a a).flatten
  | f =>
    let a ← nodal .lagrange .interval degree variant
    let b ← nodal .discontinuousLagrange .interval (degree - 1) variant
    let place := if f == .cubeFace then hdiv else hcurl
    .ok (enriched [← place (times a b), ← place (times b a)]).flatten

def ofSimple (f : Family) (c : Cell) (degree : Nat) (variant : Option String) : Except Error Functions :=
  if !f.isSupported then .error .missing
  else if f.isCube then
    if c == .quadrilateral then cube f degree variant
    else
      let name := f.name
      .error (.invalid s!"{name} is supported, but handled incorrectly")
  else nodal f c degree variant

def ofRule (c : Cell) (degree : Option Nat) (scheme : Option String) : Except Error Functions :=
  match degree, scheme with
  | some degree, some scheme =>
    if scheme == "default" || scheme == "canonical" then do
      let r ← Quadrature.rule c (.total degree)
      let n := r.points.length
      .ok (.atPoints ⟨c, n, [], none, .identity, List.replicate n c.dimension⟩ r.points)
    else .error .malformed
  | _, _ => .error (.invalid "Quadrature scheme and degree must be specified!")

def noCell : Error := .invalid "Don't know how to build element when cell is not given"

def unsupportedKind : Error :=
  .invalid "Unsupported element type <class 'ufl.finiteelement.enrichedelement.NodalEnrichedElement'>"

def constant (c : Cell) : Except Error Functions :=
  if c == .quadrilateral then cube .cubeDiscontinuous 0 none else .ok (discontinuous c 0)

mutual

/-- The functions of an element as one list. Vectors and tensors of elements are mixed elements, or else only the functions
of one component are meant. -/
def ofElement (vectorIsMixed : Bool) (e : Element) : Except Error Functions :=
  match e.cell? with
  | none => .error noCell
  | some c =>
    match e with
    | .simple .real _ _ _ =>
      match c with
      | .product [a, b] => do
        .ok (times (← constant a) (← constant b))
      | .product _ => .error .malformed
      | c => constant c
    | .simple f _ degree variant => ofSimple f c degree variant
    | .quadrature _ degree scheme => ofRule c degree scheme
    | .vector p n =>
      if vectorIsMixed then do
        let f ← ofElement vectorIsMixed p
        .ok (mixed (List.replicate n f))
      else ofElement vectorIsMixed p
    | .tensor p shape symmetric =>
      if vectorIsMixed then do
        let f ← ofElement vectorIsMixed p
        .ok (mixed (List.replicate (if symmetric then Element.symmetricSize (shape.headD 0) else Element.size shape) f))
      else ofElement vectorIsMixed p
    | .mixed ps => do
      if !vectorIsMixed then .error (.requirement "")
      .ok (mixed (← ofElements vectorIsMixed ps))
    | .enriched ps => do
      if ps.length != 2 then .error (.invalid "Enriched elements with more than two components not handled")
      .ok (enriched (← ofElements vectorIsMixed ps))
    | .nodalEnriched _ => .error unsupportedKind
    | .broken p => ofElement vectorIsMixed p
    | .restricted p domain => do
      (← ofElement vectorIsMixed p).restrict domain
    | .product _ ps => do
      if !c.isProduct then .error (.invalid "TPE not on TPC?")
      if ps.length != 2 then .error .malformed
      match ← ofElements vectorIsMixed ps with
      | [a, b] => .ok (times a b)
      | _ => .error .malformed
    | .hdiv p => do
      (← ofElement vectorIsMixed p).hdiv
    | .hcurl p => do
      (← ofElement vectorIsMixed p).hcurl

def ofElements (vectorIsMixed : Bool) : List Element → Except Error (List Functions)
  | [] => .ok []
  | p :: ps => do
    let f ← ofElement vectorIsMixed p
    let fs ← ofElements vectorIsMixed ps
    .ok (f :: fs)

end

end Functions

/-- The functions of an element, numbered by indices. -/
inductive Basis where
  | nodal (functions : Functions)
  /-- One function for each component of a tensor; the component is numbered first or last. -/
  | tensor (base : Basis) (shape : List Nat) (componentsFirst : Bool)
  | enriched (parts : List Basis)
  | mixed (parts : List Basis)
  /-- The functions of another basis, cell by cell. -/
  | broken (part : Basis)
  deriving Inhabited

namespace Basis

mutual

/-- The extents of the indices that number the functions. -/
def indexShape : Basis → List Nat
  | .nodal f => [f.info.size]
  | .tensor base shape componentsFirst =>
    if componentsFirst then shape ++ indexShape base else indexShape base ++ shape
  | .enriched ps => [sizes ps]
  | .mixed ps => [sizes ps]
  | .broken p => indexShape p

/-- The number of functions of all parts. -/
def sizes : List Basis → Nat
  | [] => 0
  | p :: ps => Element.size (indexShape p) + sizes ps

end

def size (b : Basis) : Nat := Element.size b.indexShape

mutual

def valueShape : Basis → List Nat
  | .nodal f => f.info.shape
  | .tensor base shape _ => shape ++ valueShape base
  | .enriched ps => firstValueShape ps
  | .mixed ps => [valueSizes ps]
  | .broken p => valueShape p

def firstValueShape : List Basis → List Nat
  | [] => []
  | p :: _ => valueShape p

/-- The number of components of all parts. -/
def valueSizes : List Basis → Nat
  | [] => 0
  | p :: ps => Element.size (valueShape p) + valueSizes ps

end

/-- The plain functions of a basis, if it has no further structure. -/
def functions? : Basis → Option Functions
  | .nodal f => some f
  | .broken p => functions? p
  | _ => none

/-- A basis, and whether the order of components and functions matters for it. -/
structure Made where
  basis : Basis
  ordered : Bool
  deriving Inhabited

/-- The basis for several parts, each with plain functions, of their product. -/
def productOf (ps : List Basis) : Except Error Basis :=
  match ps.mapM functions? with
  | some (f :: fs) => .ok (.nodal (fs.foldl Functions.times f))
  | some [] => .error .outOfRange
  | none => .error .absent

def place (how : Functions → Except Error Functions) (b : Basis) : Except Error Basis :=
  match b.functions? with
  | some f => (how f).map .nodal
  | none => .error .absent

/-- One step of making a basis: `self` makes those of the parts. -/
def step {m : Type → Type} [Monad m] [MonadExceptOf Error m] (innermost : Bool) (e : Element)
    (self : (p : Element) → p.rank < e.rank → m Made) : m Made := do
  match e, self with
  | .simple f c degree variant, self =>
    if h : f.isCube = true ∧ c = some .quadrilateral then
      let made ← self (.onIntervals f degree variant) (Element.rank_onIntervals h.1 c degree variant)
      let basis ← MonadExcept.ofExcept (place (fun g => .ok g.flatten) made.basis)
      return ⟨basis, made.ordered⟩
    else
      let basis ← MonadExcept.ofExcept ((Functions.ofSimple f (c.getD .vertex) degree variant).map .nodal)
      return ⟨if f == .discontinuousRaviartThomas then .broken basis else basis, false⟩
  | .quadrature c degree scheme, _ =>
    let functions ← MonadExcept.ofExcept (Functions.ofRule (c.getD .vertex) degree scheme)
    return ⟨.nodal functions, false⟩
  | .vector p n, self =>
    let base ← self p (Nat.lt_succ_self _)
    return ⟨.tensor base.basis [n] (!innermost), true⟩
  | .tensor p shape symmetric, self =>
    let base ← self p (Nat.lt_succ_self _)
    let stored := if symmetric then [Element.symmetricSize (shape.headD 0)] else shape
    return ⟨.tensor base.basis stored (!innermost), true⟩
  | .mixed ps, self =>
    let made ← ps.attach.mapM fun ⟨p, h⟩ => self p (Element.rank_lt_of_mem h)
    return ⟨.mixed (made.map (·.basis)), made.any (·.ordered)⟩
  | .enriched ps, self =>
    let made ← ps.attach.mapM fun ⟨p, h⟩ => self p (Element.rank_lt_of_mem h)
    return ⟨.enriched (made.map (·.basis)), made.any (·.ordered)⟩
  | .nodalEnriched _, _ => throw Functions.unsupportedKind
  | .broken p, self =>
    let made ← self p (Nat.lt_succ_self _)
    return ⟨.broken made.basis, made.ordered⟩
  | .restricted p domain, _ =>
    match p.cell? with
    | some c =>
      if !c.isSimplex then throw (.requirement "")
      let functions ← MonadExcept.ofExcept (Functions.ofElement true (.restricted p domain))
      return ⟨.nodal functions, false⟩
    | none => throw Functions.noCell
  | .product c ps, self =>
    if !(c.getD .vertex).isProduct then throw (.invalid "TensorProductElement not on TensorProductCell?")
    let made ← ps.attach.mapM fun ⟨p, h⟩ => self p (Element.rank_lt_of_mem h)
    let basis ← MonadExcept.ofExcept (productOf (made.map (·.basis)))
    return ⟨basis, made.any (·.ordered)⟩
  | .hdiv p, self =>
    let made ← self p (Nat.lt_succ_self _)
    let basis ← MonadExcept.ofExcept (place Functions.hdiv made.basis)
    return ⟨basis, made.ordered⟩
  | .hcurl p, self =>
    let made ← self p (Nat.lt_succ_self _)
    let basis ← MonadExcept.ofExcept (place Functions.hcurl made.basis)
    return ⟨basis, made.ordered⟩

def make (innermost : Bool) (e : Element) : Except Error Made := do
  if e.cell?.isNone then throw Functions.noCell
  step innermost e fun p _ => make innermost p
termination_by e.rank

/-- The bases made so far, by description: each with the order of components and functions if it mattered. -/
abbrev Store := List (Element × Option Bool × Basis)

/-- A basis made before that serves for the order asked for. -/
def Store.find? (s : Store) (innermost : Bool) (e : Element) : Option Made :=
  match List.find? (fun (entry : Element × Option Bool × Basis) =>
      entry.1 == e && (entry.2.1 == none || entry.2.1 == some innermost)) s with
  | some (_, order, basis) => some ⟨basis, order.isSome⟩
  | none => none

def Store.insert (s : Store) (innermost : Bool) (e : Element) (b : Made) : Store :=
  s ++ [(e, if b.ordered then some innermost else none, b.basis)]

/-- The basis of an element, made only if it is not in the store. -/
def obtain (innermost : Bool) (e : Element) : ExceptT Error (StateM Store) Made := do
  match (← get).find? innermost e with
  | some made => return made
  | none =>
    if e.cell?.isNone then throw Functions.noCell
    let made ← step innermost e fun p _ => obtain innermost p
    modify fun s => s.insert innermost e made
    return made
termination_by e.rank

/-- The basis of an element with components numbered after the functions, or before them. -/
def ofElement (e : Element) (innermost : Bool) : Except Error Basis := (make innermost e).map (·.basis)

end Basis

abbrev Bases := Element → Except Error Basis

/-- Bases that are made when they are first asked for, and at most once for each element foreseen. -/
def Bases.foreseen (innermost : Bool) (es : List Element) : Bases :=
  let table := es.map fun e => (e, Thunk.mk fun _ => Basis.ofElement e innermost)
  fun e => match table.lookup e with
    | some made => made.get
    | none => Basis.ofElement e innermost

end FormCompiler
