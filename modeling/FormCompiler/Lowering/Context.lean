import FormCompiler.Concatenation
import FormCompiler.Form.Recursion
import FormCompiler.Kernel.Builder
import FormCompiler.Lowering.Algebra
import FormCompiler.Lowering.Points
import FormCompiler.Rewrite.Selection

/-!
# Where terms are evaluated

A context says at which points of which entities of the reference cell terms are evaluated, and where their data comes from.
Lowering in a context keeps a record: the indices for free indices of terms, the indices that run through the functions of
each element, and how indices were split.
-/

namespace FormCompiler

structure Context where
  builder : Builder Float
  bases : Bases
  cell : Cell
  integralType : Option IntegralType := none
  /-- The dimension of the entities on which the points lie. -/
  dim : Dim
  entities : List Nat := [0]
  /-- Entries of tables as near as this to a simple number are rounded to it. -/
  epsilon : Float
  /-- The indices that run through the functions of each argument. -/
  arguments : List (List Index) := []
  points : PointSet
  weights : Option (List Float) := none
  fixedSide : Option (Option Side) := none

structure Record where
  indexMap : IndexMap := ∅
  elementIndices : List (Element × List Index) := []
  splits : Concatenation.Splits := []
  /-- The supply of free indices for new terms. -/
  labels : Nat := 0
  deriving Inhabited

abbrev Recorded := StateT Record Build

namespace Recorded

variable {α : Type}

/-- Lower an operator with the record's indices. -/
def lowering (x : Lowering α) : Recorded α := do
  let r ← get
  let (a, indexMap) ← x.run r.indexMap
  modify fun r => { r with indexMap }
  return a

/-- Make terms with the record's supply of free indices. -/
def forming (x : Forming α) : Recorded α := do
  let (a, labels) := x.run (← get).labels
  modify fun r => { r with labels }
  MonadExcept.ofExcept a

/-- Lower apart: free indices of terms have other indices than outside. -/
def apart (x : Recorded α) : Recorded α := do
  let outer := (← get).indexMap
  modify fun r => { r with indexMap := ∅ }
  let a ← x
  modify fun r => { r with indexMap := outer }
  return a

/-- The indices that run through the functions of an element. -/
def indicesOf (e : Element) (b : Basis) : Recorded (List Index) := do
  match (← get).elementIndices.lookup e with
  | some is => return is
  | none =>
    let is ← Build.freshIndices (Shape.ofNats b.indexShape)
    modify fun r => { r with elementIndices := (e, is) :: r.elementIndices }
    return is

/-- Split concatenated dimensions with the record's splits. -/
def split (pairs : List (Expr Float × Expr Float)) : Recorded (List (Expr Float × Expr Float)) := do
  let (splits, result) ← Concatenation.splitWith (← get).splits pairs
  modify fun r => { r with splits }
  MonadExcept.ofExcept result

end Recorded

namespace Context

def coefficient (c : Context) (f : Coefficient) (side : Option Side) : Build (Expr Float) := do
  match c.fixedSide with
  | none => c.builder.coefficient f side
  | some fixed =>
    Build.require side.isNone
    c.builder.coefficient f fixed

/-- What is made for each entity, selected by the number of the entity at hand. -/
def select (c : Context) (side : Option Side) (f : Nat → Build (Expr Float)) : Build (Expr Float) := do
  match c.entities with
  | [entity] => f entity
  | entities =>
    let number ← c.builder.entityNumber side
    Rewrite.select (← entities.mapM f) number

def basis (c : Context) (e : Element) : Build Basis := MonadExcept.ofExcept (c.bases e)

/-- Do the points lie inside the cell, and not on smaller entities? -/
def isInside (c : Context) : Bool := c.dim == c.cell.dim

def within (c : Context) (ps : PointSet) : Context :=
  { c with integralType := none, dim := c.cell.dim, entities := [0], arguments := [], points := ps, weights := none }

end Context

end FormCompiler
