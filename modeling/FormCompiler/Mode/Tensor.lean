import FormCompiler.Mode.Integral

/-!
# Tensor mode

The factors that depend on the quadrature point are constant tables; their products are summed over the points when
the kernel is made, so that it only multiplies the result by what the points do not matter to.
-/

namespace FormCompiler

namespace Mode

namespace TensorMode

variable {K : Type} [Scalar K]

structure IndexedTable (K : Type) where
  table : Tensor K
  slots : List (Slot (Expr K))

/-- A factor as an indexed table; unit matrices are not taken apart. -/
def indexedTable (e : Expr K) : Build (IndexedTable K) := do
  match e with
  | .indexed (.identity _) _ => throw .outOfRange
  | .indexed t slots => return ⟨← Build.table t, slots⟩
  | .componentTensor t _ | .indexSum t _ => do let _ ← Build.table t; throw .absent
  | e => if e.children.length = 1 then throw .absent else throw .malformed

def slotExtents (f : IndexedTable K) : List (Slot (Expr K) × Nat) :=
  (f.slots.zip f.table.shape).filter fun p => p.1.fixed?.isNone

/-- How many slots can be told apart in one product. -/
def maxSlots : Nat := 18

/-- The product of tables at their slots, summed over the given indices: a table at the slots that are left. -/
def contractTables (factors : List (Expr K)) (sumIndices : List Index) : Build (Expr K) := do
  let tables ← factors.mapM indexedTable
  for f in tables do
    for (s, n) in f.slots.zip f.table.shape do
      if let .fixed k := s then
        if (Tensor.resolve n k).isNone then throw .outOfRange
  if tables.isEmpty then throw .malformed
  let slots := distinct (tables.flatMap fun f => (slotExtents f).map Prod.fst)
  if slots.length > maxSlots then throw .malformed
  let extents ← slots.mapM fun s => do
    let sizes := distinct (tables.flatMap fun f => ((slotExtents f).filter fun p => p.1 == s).map Prod.snd)
    match sizes with
    | [n] => return n
    | [m, n] => if m = 1 then return n else if n = 1 then return m else throw .malformed
    | _ => throw .malformed
  let summed := fun (s : Slot (Expr K)) => (s.index?).any sumIndices.contains
  let framed := slots.zip extents
  let kept := framed.filter fun p => !summed p.1
  let inner := framed.filter fun p => summed p.1
  let entry := fun (f : IndexedTable K) (at_ : List (Slot (Expr K) × Nat)) =>
    f.table.get ((f.slots.zip f.table.shape).map fun (s, n) => match s with
      | .fixed k => (Tensor.resolve n k).getD 0
      | s => match at_.find? fun p => p.1 == s with
        | some (_, i) => if n = 1 then 0 else i
        | none => 0)
  let value := fun (idx : List Nat) =>
    (tuples (inner.map Prod.snd)).foldl (fun acc sub =>
      let at_ := (kept.map Prod.fst).zip idx ++ (inner.map Prod.fst).zip sub
      let term := tables.foldl (fun acc f => match acc with
        | none => some (entry f at_)
        | some x => some (Scalar.mul x (entry f at_))) none
      Scalar.add acc (term.getD Scalar.one)) Scalar.zero
  let result := Tensor.ofFn (kept.map Prod.snd) value
  Build.indexed (← Build.literal result) (kept.map Prod.fst)

/-- The role of an expression: tables at quadrature indices are atomic. -/
def role (quadrature : List Index) (e : Expr K) : Monomial.Role :=
  if !Indices.meet quadrature e.freeIndices then .other
  else match e with
    | .indexed (.literal _ _) _ => .atomic
    | _ => .compound

/-- One monomial with its tables multiplied and summed. -/
def collapse (quadrature : List Index) (m : Monomial K) : Build (Expr K) := do
  let table ←
    if m.atomics.isEmpty && quadrature.isEmpty then pure Build.one
    else contractTables (← Rewrite.inlineComponents m.atomics) quadrature
  Build.sumOver (← Build.product table m.rest) m.sumIndices

def integrals (es : List (Expr K)) (quadrature : List Index) (limit : Option Int) : Build (List (Expr K)) := do
  let es ← unrollShort limit (← Concatenation.flatten es)
  let sums ← Monomial.collect es (role quadrature)
  (es.zip sums).mapM fun (e, s) => do
    let present := quadrature.filter e.freeIndices.contains
    let products ← s.monomials.mapM (collapse present)
    products.foldlM Build.sum Build.zero

end TensorMode

end Mode

end FormCompiler
