import FormCompiler.Error
import FormCompiler.Expr.Node

/-!
# Building expressions

Expressions are made in a session that numbers indices and keeps their names and extents. Each function below
makes one node, checks its operands, and folds constants. What a failed construction has already fixed, such as
the extent of an index, stays fixed.
-/

namespace FormCompiler

structure IndexInfo where
  name : Option String
  extent : Extent
  deriving Inhabited, Repr

/-- The indices made so far, and a supply of serial numbers. -/
structure Session where
  indices : Array IndexInfo := #[]
  serial : Nat := 1
  deriving Inhabited

/-- Computations that make expressions and may be refused; the session outlives a refusal. -/
abbrev Build := ExceptT Error (StateM Session)

namespace Build

variable {K : Type} [Scalar K]

/-- Refuse unless the condition holds. -/
def require (condition : Bool) (text : String := "") : Build Unit :=
  if condition then pure () else throw (.requirement text)

/-! ## Indices -/

def newIndex (info : IndexInfo) : Build Index := do
  let s ← get
  set { s with indices := s.indices.push info }
  return ⟨s.indices.size⟩

def freshIndex (extent : Extent) : Build Index := newIndex ⟨none, extent⟩

def freshIndices (extents : Shape) : Build (List Index) := extents.mapM freshIndex

def info (i : Index) : Build IndexInfo := do return (← get).indices.getD i.number ⟨none, none⟩

def extent (i : Index) : Build Extent := do return (← info i).extent

/-- The extent of an index, which must be known. -/
def knownExtent (i : Index) : Build Int := do
  match ← extent i with
  | some n => return n
  | none => throw .unsupported

/-- Give an index its extent. An index that has one keeps it. -/
def setExtent (i : Index) (value : Extent) : Build Unit := do
  let s ← get
  let known := s.indices.getD i.number ⟨none, none⟩
  match known.extent with
  | none => set { s with indices := s.indices.setIfInBounds i.number { known with extent := value } }
  | some n => if value == some n then pure () else throw .inconsistentExtents

/-- The indices of slots that must all be running. -/
def runningIndices (slots : List (Slot (Expr K))) : Build (List Index) :=
  slots.mapM fun
    | .free i => pure i
    | _ => throw .absent

def indexText (i : Index) : Build String := do
  match (← info i).name with
  | some name => return "Index(" ++ Text.quoted name ++ ")"
  | none => return "Index(?)"

/-- A number that nothing else has. -/
def nextSerial : Build Nat := do
  let s ← get
  set { s with serial := s.serial + 1 }
  return s.serial

/-! ## Constants -/

def one : Expr K := .literal (Tensor.scalar Scalar.one) (Tensor.scalar (Scalar.one : K)).digest

def zero : Expr K := .zero []

/-- A constant table; a table of zeros becomes a zero tensor. -/
def literal (t : Tensor K) : Build (Expr K) := do
  if t.isZero then return .zero (Shape.ofNats t.shape)
  else if t.hasNaN then return .literal t (mixHash t.digest (hash (← nextSerial)))
  else return .literal t t.digest

def number (x : K) : Build (Expr K) := literal (Tensor.scalar x)

/-- The number that a scalar constant holds. -/
def value : Expr K → Build K
  | .zero shape => do require shape.isEmpty; return Scalar.zero
  | .literal t _ => if t.entries.size = 1 then pure (t.entries.getD 0 Scalar.zero) else throw .unsupported
  | _ => throw .absent

/-- The table that a literal or a unit matrix holds. -/
def table : Expr K → Build (Tensor K)
  | .literal t _ => pure t
  | .identity n => pure (Tensor.eye n)
  | _ => throw .absent

/-! ## Scalar operators -/

def requireScalar (e : Expr K) : Build Unit := require e.shape.isEmpty

/-- Sum; zeros vanish and constants are added. -/
def sum (a b : Expr K) : Build (Expr K) := do
  requireScalar a
  requireScalar b
  if a.isZero then return b
  if b.isZero then return a
  if a.isConstant && b.isConstant then number (Scalar.add (← value a) (← value b))
  else return .binary .sum a b

/-- Product; a zero factor takes all, factors one vanish, and constants are multiplied. -/
def product (a b : Expr K) : Build (Expr K) := do
  requireScalar a
  requireScalar b
  if a.isZero || b.isZero then return zero
  if a == one then return b
  if b == one then return a
  if a.isConstant && b.isConstant then number (Scalar.mul (← value a) (← value b))
  else return .binary .product a b

/-- Quotient; zero divided is zero, and nothing is divided by zero. -/
def quotient (a b : Expr K) : Build (Expr K) := do
  requireScalar a
  requireScalar b
  if b.isZero then throw .divisionByZero
  if a.isZero then return zero
  if b == one then return a
  if a.isConstant && b.isConstant then number (Scalar.div (← value a) (← value b))
  else return .binary .quotient a b

/-- Power; zero and the exponent zero are folded, but not together. -/
def power (base exponent : Expr K) : Build (Expr K) := do
  requireScalar base
  requireScalar exponent
  if base.isZero then
    if exponent.isZero then throw .zeroToZero
    return zero
  if exponent.isZero then return one
  if base.isConstant && exponent.isConstant then
    match Scalar.foldPower (← value base) (← value exponent) with
    | .value x => number x
    | .overflow => throw .overflow
    | .notReal => throw .unsupported
  else return .binary .power base exponent

def plainBinary (op : BinaryOp) (a b : Expr K) : Build (Expr K) := do
  requireScalar a
  requireScalar b
  return .binary op a b

/-- An operator applied to two scalars. -/
def binary : BinaryOp → Expr K → Expr K → Build (Expr K)
  | .sum => sum
  | .product => product
  | .quotient => quotient
  | .power => power
  | op => plainBinary op

def negation (a : Expr K) : Build (Expr K) := do
  requireScalar a
  return .negation a

def call (name : String) (args : List (Expr K)) : Build (Expr K) := do
  require (args.all fun a => a.shape.isEmpty)
  return .call name args

/-- A choice between two tensors of one shape; a choice between equals is no choice. -/
def conditional (condition yes no : Expr K) : Build (Expr K) := do
  requireScalar condition
  require (yes.shape == no.shape)
  if yes == no then return yes
  return .conditional condition yes no

/-! ## Indexing -/

/-- One entry of a tensor, with a slot for each dimension. An entry of a constant or of a listed tensor is found at once
if all slots are fixed. -/
def entry (tensor : Expr K) (slots : List (Slot (Expr K))) : Build (Expr K) := do
  if slots.isEmpty then return tensor
  if tensor.isZero then return zero
  match slots.mapM Slot.fixed? with
  | none => return .indexed tensor slots
  | some fixed =>
    match tensor with
    | .literal t _ =>
      match Tensor.resolveAll t.shape fixed with
      | some idx => number (t.get idx)
      | none => throw .outOfRange
    | .identity n =>
      match Tensor.resolveAll [n, n] fixed with
      | some idx => number ((Tensor.eye n : Tensor K).get idx)
      | none => throw .outOfRange
    | .listTensor shape entries =>
      match Tensor.resolveAll shape fixed with
      | some idx =>
        match entries[position shape idx]? with
        | some e => return e
        | none => throw .outOfRange
      | none => throw .outOfRange
    | _ => return .indexed tensor slots

/-- Running indices take the extents of the dimensions in which they stand. -/
def setExtents (slots : List (Slot (Expr K))) (shape : Shape) : Build Unit :=
  (slots.zip shape).forM fun
    | (.free i, extent) => setExtent i extent
    | _ => pure ()

/-- One entry of a tensor. Running indices take the extents of their dimensions. -/
def indexed (tensor : Expr K) (slots : List (Slot (Expr K))) : Build (Expr K) := do
  require (tensor.shape.length == slots.length)
  setExtents slots tensor.shape
  entry tensor slots

def indexedAt (tensor : Expr K) (indices : List Index) : Build (Expr K) :=
  indexed tensor (indices.map .free)

def entryAt (tensor : Expr K) (positions : List Nat) : Build (Expr K) :=
  indexed tensor (positions.map fun n => .fixed (Int.ofNat n))

def termsText (terms : List (Slot (Expr K) × Stride)) : Build String := do
  let texts ← terms.mapM fun (slot, stride) => do
    let index ← match slot with
      | .fixed n => pure (toString n)
      | .free i => indexText i
      | .runtime _ => pure "?"
    let step := if stride.composite then s!"np.int64({stride.value})" else toString stride.value
    return Text.tuple [index, step]
  return Text.tuple texts

/-- Gather the terms of one dimension: fixed positions go into the offset; `reach` is the largest sum of the
running terms. -/
def gatherTerms (offset : Int) (terms : List (Slot (Expr K) × Stride)) :
    Build (Int × List (Index × Stride) × Int) := do
  let mut offset := offset
  let mut running := #[]
  let mut reach : Int := 0
  for (slot, stride) in terms do
    match slot with
    | .free i =>
      match ← extent i with
      | none => throw (.requirement "")
      | some n =>
        running := running.push (i, stride)
        reach := reach + (n - 1) * stride.value
    | .fixed n => offset := offset + n * stride.value
    | .runtime _ => throw .slotOfView
  return (offset, running.toList, reach)

/-- One entry of a named tensor, addressed by offset and strides. -/
def access (tensor : Expr K) (dims : List (Int × List (Slot (Expr K) × Stride))) : Build (Expr K) := do
  match tensor with
  | .var name shape =>
    require (shape.length == dims.length)
    let gathered ← (shape.zip dims).mapM fun (extent, offset, terms) => do
      let (total, running, reach) ← gatherTerms offset terms
      if let some n := extent then
        if total + reach ≥ n then throw (.beyondDimension offset (← termsText terms) n)
      return (⟨total, running⟩ : DimAccess)
    return .access name shape gathered
  | _ => throw (.requirement "")

def accessTerms (dims : List DimAccess) : List (Int × List (Slot (Expr K) × Stride)) :=
  dims.map fun d => (d.offset, d.terms.map fun (i, s) => (.free i, s))

/-! ## Binding indices -/

def binders (indices : List Index) : Build (List (Index × Extent)) :=
  indices.mapM fun i => do return (i, ← extent i)

/-- The tensor whose dimensions are the given indices, which must be free in the body. -/
def componentTensor (body : Expr K) (slots : List (Slot (Expr K))) : Build (Expr K) := do
  requireScalar body
  if slots.isEmpty then return body
  let indices ← runningIndices slots
  let shape ← indices.mapM extent
  require (!Shape.hasOpenOrEmpty shape)
  if body.isZero then return .zero shape
  require (Indices.subset indices body.freeIndices)
  return .componentTensor body (indices.zip (shape.filterMap id))

def tensorOver (body : Expr K) (indices : List Index) : Build (Expr K) :=
  componentTensor body (indices.map .free)

/-- The sum over the given indices, which must be free in the summand. Sums over one position are carried out. -/
def indexSum (summand : Expr K) (slots : List (Slot (Expr K))) : Build (Expr K) := do
  requireScalar summand
  if summand.isZero then return summand
  let bounds ← slots.mapM fun
    | .free i => do return (i, ← knownExtent i)
    | _ => throw .absent
  let single := bounds.filter fun b => b.2 ≤ 1
  let mut summand := summand
  let mut rest := bounds
  if !single.isEmpty then
    require (single.foldl (fun acc b => acc * b.2) 1 == 1)
    let tensor ← tensorOver summand (single.map Prod.fst)
    summand ← indexed tensor (single.map fun _ => .fixed 0)
    rest := bounds.filter fun b => !(single.map Prod.fst).contains b.1
  if rest.isEmpty then return summand
  require (Indices.subset (rest.map Prod.fst) summand.freeIndices)
  return .indexSum summand rest

def sumOver (summand : Expr K) (indices : List Index) : Build (Expr K) :=
  indexSum summand (indices.map .free)

/-- The sum over those of the given indices that are free in the expression. -/
def sumFree (e : Expr K) (slots : List (Slot (Expr K))) : Build (Expr K) :=
  sumOver e ((slots.filterMap Slot.index?).filter e.freeIndices.contains)

def partialIndexed (tensor : Expr K) (slots : List (Slot (Expr K))) : Build (Expr K) := do
  let rank := tensor.shape.length
  if slots.isEmpty then return tensor
  else if slots.length < rank then
    let rest ← freshIndices (List.replicate (rank - slots.length) none)
    let entry ← indexed tensor (slots ++ rest.map .free)
    tensorOver entry rest
  else if slots.length == rank then indexed tensor slots
  else throw .moreIndicesThanRank

/-! ## Tensors from parts -/

/-- A tensor given entry by entry, row by row. The shape of the entries becomes that of the last dimensions, and a
tensor of constants is a literal. -/
def listTensor (shape : List Nat) (entries : List (Expr K)) : Build (Expr K) := do
  require (count shape != 0)
  match entries with
  | [] => throw .malformed
  | first :: _ =>
    let inner := first.shape
    require (entries.all fun e => e.shape == inner)
    let (shape, entries) ←
      if inner.isEmpty then pure (shape, entries)
      else match Shape.toNats? inner with
        | none => throw .unsupported
        | some inner => do
          let flat ← entries.mapM fun e => (tuples inner).mapM fun idx => entryAt e idx
          pure (shape ++ inner, flat.flatten)
    if entries.isEmpty then throw .malformed
    if entries.all Expr.isConstant then
      literal ⟨shape, (← entries.mapM value).toArray⟩
    else return .listTensor shape entries

def concatenate (parts : List (Expr K)) : Build (Expr K) := do
  if parts.all Expr.isZero then
    match Expr.totalSize (Expr.shapes parts) with
    | some n => return .zero [some n]
    | none => throw .unsupported
  return .concatenate parts

/-- One where the two indices agree, zero elsewhere; decided at once for equal indices and for fixed ones. -/
def delta (i j : Slot (Expr K)) : Build (Expr K) := do
  if i == j then return one
  match i, j with
  | .fixed _, .fixed _ => return zero
  | _, _ => return .delta i j

/-- A slot whose value becomes known when the kernel runs. -/
def runtimeSlot (e : Expr K) : Build (Slot (Expr K)) := do
  require e.freeIndices.isEmpty
  require e.shape.isEmpty
  return .runtime e

/-! ## Nodes with new children -/

def reconstruct (e : Expr K) (children : List (Expr K)) : Build (Expr K) :=
  match e, children with
  | .binary op _ _, [a, b] => binary op a b
  | .negation _, [a] => negation a
  | .call name _, args => call name args
  | .conditional _ _ _, [c, y, n] => conditional c y n
  | .indexed _ slots, [t] => indexed t slots
  | .access _ _ dims, [t] => access t (accessTerms dims)
  | .componentTensor _ binders, [b] => tensorOver b (binders.map Prod.fst)
  | .indexSum _ binders, [b] => sumOver b (binders.map Prod.fst)
  | .listTensor shape _, entries =>
    if entries.length == count shape then listTensor shape entries else throw .malformed
  | .concatenate _, parts => concatenate parts
  | .delta i j, [] => delta i j
  | .zero s, [] => pure (.zero s)
  | .identity n, [] => pure (.identity n)
  | .var n s, [] => pure (.var n s)
  | .failure s k t n, [] => pure (.failure s k t n)
  | .literal t _, [] => literal t
  | _, _ => throw .unsupported

end Build

end FormCompiler
