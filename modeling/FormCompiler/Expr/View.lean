import FormCompiler.Expr.Build

/-!
# Views of variables

A variable, or a part of it, seen with other dimensions. A reshape splits dimensions; a view keeps a regular part
of each. Both stay accesses of the one variable, with new offsets and strides.
-/

namespace FormCompiler

/-- A regular part of a dimension; an omitted or zero bound stands for the whole. -/
structure Slice where
  start : Option Int
  stop : Option Int
  step : Option Int
  deriving Repr

namespace Slice

def all : Slice := ⟨none, none, none⟩

def range (start stop : Int) : Slice := ⟨some start, some stop, none⟩

end Slice

def nonzero (x : Option Int) : Option Int := x.filter (· != 0)

/-- An integer as it is kept in a word of 64 bits with a sign. -/
def inWord (n : Int) : Int := n.bmod UInt64.size

/-- The strides of a shape. All but the last are products, which are computed in a word. -/
def stridesOf : List Int → List Stride
  | [] => [⟨1, false⟩]
  | [_] => [⟨1, false⟩]
  | _ :: s => ⟨inWord (s.foldl (· * ·) 1), true⟩ :: stridesOf s

/-- The product of strides, in a word if one of them is kept in a word. -/
def Stride.times (a b : Stride) : Stride :=
  if a.composite || b.composite then ⟨inWord (a.value * b.value), true⟩ else ⟨a.value * b.value, false⟩

namespace Build

variable {K : Type} [Scalar K]

/-- A view onto a variable: the variable, how its dimensions are addressed, and the indices of the view. -/
structure View (K : Type) where
  source : Expr K
  dims : List DimAccess
  indices : List Index

def decomposeView : Expr K → Build (View K)
  | .var name shape => do
    let indices ← freshIndices shape
    return ⟨.var name shape, indices.map fun i => ⟨0, [(i, ⟨1, false⟩)]⟩, indices⟩
  | .componentTensor (.access name shape dims) binders =>
    return ⟨.var name shape, dims, binders.map Prod.fst⟩
  | e => throw (.noView e.kindName)

def lookupIndex {β : Type} (table : List (Index × β)) (i : Index) : Build β :=
  -- a later entry for the same index wins
  match table.reverse.find? fun p => p.1 == i with
  | some p => pure p.2
  | none => throw .missing

/-- Append to the group of an index; the first position at which the index stands takes it. -/
def appendAt {β : Type} (indices : List Index) (i : Index) (x : β) (groups : List (List β)) : List (List β) :=
  let at_ := indices.findIdx (· == i)
  groups.mapIdx fun k g => if k == at_ then g ++ [x] else g

def reshape (e : Expr K) (shapes : List (List Int)) : Build (Expr K) := do
  let v ← decomposeView e
  require (v.indices.length == shapes.length)
  let shapeOf := v.indices.zip shapes
  let mut groups : List (List Index) := v.indices.map fun _ => []
  let mut dims := #[]
  for d in v.dims do
    let mut terms := #[]
    for (i, stride) in d.terms do
      let shape ← lookupIndex shapeOf i
      if let some n ← extent i then
        if inWord (shape.foldl (· * ·) 1) != n then throw (.shapeNotExtent (Shape.text (shape.map some)) n)
      for (n, step) in shape.zip (stridesOf shape) do
        let j ← freshIndex (some n)
        terms := terms.push (Slot.free j, step.times stride)
        groups := appendAt v.indices i j groups
    dims := dims.push (d.offset, terms.toList)
  let entry ← access v.source dims.toList
  tensorOver entry groups.flatten

/-- Keep a regular part of each dimension of a view, one slice for each. -/
def view (e : Expr K) (slices : List Slice) : Build (Expr K) := do
  let v ← decomposeView e
  require (v.indices.length == slices.length)
  let sliceOf := v.indices.zip slices
  let mut groups : List (List Index) := slices.map fun _ => []
  let mut dims := #[]
  for d in v.dims do
    let mut offset := d.offset
    let mut terms := #[]
    for (i, stride) in d.terms do
      let whole ← extent i
      let s ← lookupIndex sliceOf i
      let start := (nonzero s.start).getD 0
      let stop ← match (nonzero s.stop).orElse fun _ => whole with
        | some n => pure n
        | none => throw .unknownExtent
      if let some n := whole then
        if stop > n then throw .sliceBeyondExtent
      let step := (nonzero s.step).getD 1
      offset := offset + (Stride.times ⟨start, false⟩ stride).value
      let j ← freshIndex (some (1 + (stop - start - 1).fdiv step))
      groups := (appendAt v.indices i j (groups.mapIdx fun k g => if k == v.indices.findIdx (· == i) then [] else g))
      terms := terms.push (Slot.free j, Stride.times ⟨step, false⟩ stride)
    dims := dims.push (offset, terms.toList)
  let entry ← access v.source dims.toList
  -- a dimension that nothing addresses has no index
  if groups.any List.isEmpty then throw .absent
  tensorOver entry groups.flatten

end Build

end FormCompiler
