import FormCompiler.Element.Basis
import FormCompiler.Expr.Build
import FormCompiler.Scalar.Float

/-!
# Points and tables

Terms are evaluated at points of an entity of the reference cell. Many points are run through by an index, and a basis has
at them a table for each derivative: a constant where it does not vary from point to point, and otherwise indexed by the
point. The tables of all derivatives of one order are arranged as one tensor with a dimension for each derivative.
-/

namespace FormCompiler

inductive PointSet where
  /-- Points run through by an index. -/
  | many (points : List (List Float)) (index : Index)
  | one (point : List Float)
  deriving Inhabited

namespace PointSet

def ofPoints (points : List (List Float)) : Build PointSet := do
  return .many points (← Build.freshIndex (some (Int.ofNat points.length)))

def points : PointSet → List (List Float)
  | .many ps _ => ps
  | .one p => [p]

def indices : PointSet → List Index
  | .many _ i => [i]
  | .one _ => []

def dimension (ps : PointSet) : Nat := (ps.points.headD []).length

def tableOf (rows : List (List Float)) : Tensor Float :=
  ⟨[rows.length, (rows.headD []).length], rows.flatten.toArray⟩

def expression : PointSet → Build (Expr Float)
  | .many ps i => do Build.partialIndexed (← Build.literal (tableOf ps)) [.free i]
  | .one p => Build.literal ⟨[p.length], p.toArray⟩

def weights (ps : PointSet) (ws : List Float) : Build (Expr Float) := do
  Build.indexedAt (← Build.literal ⟨[ws.length], ws.toArray⟩) ps.indices

end PointSet

/-! ## Derivatives -/

/-- The numbers of derivatives along each of `n` axes that are `order` in total. -/
def derivativeOrders : (n order : Nat) → List (List Nat)
  | 0, 0 => [[]]
  | 0, _ + 1 => []
  | n + 1, order => (List.range (order + 1)).reverse.flatMap fun k => (derivativeOrders n (order - k)).map (k :: ·)

/-- How often each of `n` axes occurs in a list of axes. -/
def axisCounts (n : Nat) (axes : List Nat) : List Nat := (List.range n).map fun i => axes.count i

/-- All lists of `order` axes out of `n`, the last fastest. -/
def axisLists (n order : Nat) : List (List Nat) := tuples (List.replicate order n)

section

variable {K : Type} [Scalar K]

/-- Tables of derivatives, by their numbers along each axis, as one tensor: behind the dimensions of the tables stands one
for each derivative. -/
def arrangeDerivatives (tables : List (List Nat × Expr K)) (order : Nat) : Build (Expr K) := do
  match tables with
  | [] => throw .malformed
  | (first, table) :: rest =>
    let n := first.length
    if rest.any fun (alpha, _) => alpha.length != n then throw .malformed
    if rest.any fun (_, t) => t.shape != table.shape then throw .malformed
    let sigma ← Build.freshIndices table.shape
    let entries ← (axisLists n order).mapM fun axes => do
      match tables.lookup (axisCounts n axes) with
      | some t => Build.indexedAt t sigma
      | none => throw .missing
    let delta ← Build.freshIndices (List.replicate order (some (Int.ofNat n)))
    let tensor ← if order == 0 then
        match entries with
        | [e] => pure e
        | _ => throw .malformed
      else do
        Build.indexedAt (← Build.listTensor (List.replicate order n) entries) delta
    Build.tensorOver tensor (sigma ++ delta)

end

/-! ## Tables of bases -/

namespace Basis

/-- Is a table the same at all points, up to rounding? -/
def isSteady (first : List Float) (rows : List (List Float)) : Bool :=
  rows.all fun row => (row.zip first).all fun (a, b) => a == b || (a - b).abs ≤ 1e-12 + 1e-5 * b.abs

def functionsTable (f : Functions) (ps : PointSet) (d : Dim) (entity : Nat) (orders : List Nat) : Build (Expr Float) := do
  let values ← MonadExcept.ofExcept (f.tabulate orders d entity ps.points)
  let rows := values.map List.flatten
  let first := rows.headD []
  let shape := f.info.size :: f.info.shape
  if isSteady first rows then Build.literal ⟨shape, first.toArray⟩
  else
    let table ← Build.literal ⟨rows.length :: shape, rows.flatten.toArray⟩
    match ps.indices with
    | [] => Build.partialIndexed table [.fixed 0]
    | is => Build.partialIndexed table (is.map .free)

/-- The table for functions that are copied to each component of a tensor. -/
def componentTable (table : Expr Float) (indexShape valueShape : List Nat) (rank : Nat) (baseRank : Nat)
    (componentsFirst : Bool) : Build (Expr Float) := do
  let ii ← Build.freshIndices (Shape.ofNats indexShape)
  let vv ← Build.freshIndices (Shape.ofNats valueShape)
  let (base, component) := if componentsFirst then (ii.drop rank, ii.take rank) else (ii.take baseRank, ii.drop baseRank)
  let scalar ← Build.indexedAt table (base ++ vv.drop rank)
  let product ← (component.zip (vv.take rank)).foldlM (fun acc (a, b) => do
    Build.product (← Build.delta (.free a) (.free b)) acc) scalar
  Build.tensorOver product (ii ++ vv)

def axes : Basis → Nat
  | .nodal f => f.info.cell.dimension
  | .tensor base _ _ => axes base
  | .enriched (p :: _) => axes p
  | .broken p => axes p
  | _ => 0

mutual

def tables (b : Basis) (order : Nat) (ps : PointSet) (d : Dim) (entity : Nat) :
    Build (List (List Nat × Expr Float)) := do
  match b with
  | .nodal f =>
    (derivativeOrders f.info.cell.dimension order).mapM fun alpha => do
      return (alpha, ← functionsTable f ps d entity alpha)
  | .tensor base shape componentsFirst =>
    let indexShape := indexShape (.tensor base shape componentsFirst)
    let valueShape := valueShape (.tensor base shape componentsFirst)
    (← tables base order ps d entity).mapM fun (alpha, table) => do
      return (alpha, ← componentTable table indexShape valueShape shape.length base.indexShape.length componentsFirst)
  | .enriched parts =>
    let found ← tablesOf parts order ps d entity
    match found with
    | [] => throw .outOfRange
    | first :: _ =>
      first.mapM fun (alpha, _) => do
        let children ← found.mapM fun (t : List (List Nat × Expr Float)) => match t.lookup alpha with
          | some e => pure e
          | none => throw .missing
        return (alpha, ← Build.concatenate children)
  | .mixed _ => throw .absent
  | .broken p => tables p order ps d entity

def tablesOf (parts : List Basis) (order : Nat) (ps : PointSet) (d : Dim) (entity : Nat) :
    Build (List (List (List Nat × Expr Float))) := do
  match parts with
  | [] => return []
  | p :: rest =>
    let t ← tables p order ps d entity
    return t :: (← tablesOf rest order ps d entity)

end

end Basis

end FormCompiler
