import FormCompiler.Code.Basic
import FormCompiler.Expr.View
import FormCompiler.Grouping
import FormCompiler.Rewrite.Substitution

/-!
# The layout of kernel arguments

A kernel is given the values of coefficients and of the coordinates, and adds to the element tensor. Two conventions are in
use. In the separate one every coefficient has an array of its own and the element tensor has one dimension for each
argument of the form. In the packed one all coefficients are rows of one array, and the element tensor is flat. On interior
facets each array holds the values on the first cell and then those on the second, and the element tensor has one block for
each choice of a cell for each argument.
-/

namespace FormCompiler

inductive Convention where
  /-- One array for each coefficient; components are numbered after functions. -/
  | separate
  /-- One array for all coefficients; components are numbered before functions. -/
  | packed
  deriving DecidableEq, Repr, Inhabited

/-- Something for a cell, or for each of the two cells at a facet. -/
inductive Sided (α : Type) where
  | one (a : α)
  | two (plus minus : α)
  deriving Repr, Inhabited

namespace Sided

variable {α : Type}

/-- All that there is, the first cell first. -/
def toList : Sided α → List α
  | .one a => [a]
  | .two a b => [a, b]

end Sided

namespace Layout

open Code (Declaration)

variable {K : Type} [Scalar K]

def count (shape : List Nat) : Nat := shape.foldl (· * ·) 1

/-- Extents as they are known to expressions. -/
def extents (shape : List Nat) : List Int := shape.map Int.ofNat

/-- The positions up to a bound. -/
def upTo (n : Nat) : Slice := ⟨none, some n, none⟩

/-- The positions from one bound up to another. -/
def between (m n : Nat) : Slice := ⟨some m, some n, none⟩

def inputArray (name : String) : Declaration K :=
  { type := "double", name := name, qualifiers := some ["const"], pointers := some [["restrict"]] }

/-! ## Coefficients -/

/-- The value of a coefficient that is one tensor for the whole mesh. -/
def realCoefficient (name : String) (shape : List Nat) : Build (Expr K) :=
  Build.reshape (.var name [none]) [extents shape]

/-- The values of a coefficient with an array of its own, by the indices that number its basis functions. -/
def coefficient (name : String) (shape : List Nat) (interior : Bool) : Build (Sided (Expr K)) := do
  let size := count shape
  if interior then
    let all : Expr K := .var name [some (2 * size)]
    let plus ← Build.view all [upTo size]
    let minus ← Build.view all [between size (2 * size)]
    return .two (← Build.reshape plus [extents shape]) (← Build.reshape minus [extents shape])
  else
    return .one (← Build.reshape (.var name [some size]) [extents shape])

def rows (name : String) : Expr K := .var name [none, none]

/-- The value of a coefficient that is one tensor for the whole mesh, in a row. -/
def realCoefficientInRow (name : String) (row : Nat) (shape : List Nat) : Build (Expr K) := do
  let data ← Build.view (rows name) [between row (row + 1), upTo (count shape)]
  Build.reshape data [[], extents shape]

/-- Part of a row by the indices that number basis functions. -/
def partOfRow (name : String) (row : Nat) (part : Slice) (shape : List Nat) : Build (Expr K) := do
  let data ← Build.view (rows name) [between row (row + 1), part]
  let flat ← Build.reshape data [[], [Int.ofNat (count shape)]]
  let used ← Build.view flat [upTo (count shape)]
  let shaped ← Build.reshape used [extents shape]
  match ← Rewrite.inlineComponents [shaped] with
  | [e] => return e
  | _ => throw .malformed

def coefficientInRow (name : String) (row : Nat) (shape : List Nat) (interior : Bool) : Build (Sided (Expr K)) := do
  let size := count shape
  if interior then
    let plus ← partOfRow name row (upTo size) shape
    return .two plus (← partOfRow name row (between size (2 * size)) shape)
  else return .one (← partOfRow name row (upTo size) shape)

/-! ## Coordinates -/

/-- A tensor with its first dimensions behind the others. -/
def moveBack (rank : Nat) (e : Expr K) : Build (Expr K) := do
  let indices ← Build.freshIndices e.shape
  let entry ← Build.indexedAt e indices
  Build.tensorOver entry (indices.drop rank ++ indices.take rank)

def coordinateArray (name : String) (nodes components : List Nat) : Build (Expr K) := do
  let shape := nodes ++ components
  let shaped ← Build.reshape (.var name [some (count shape)]) [extents shape]
  moveBack nodes.length shaped

/-- The coordinates of the corners and nodes, with the arrays in which they are given. -/
def coordinates (name : String) (nodes components : List Nat) (interior : Bool) :
    Build (List (Declaration K) × Sided (Expr K)) := do
  let array := fun (name : String) =>
    ({ type := "double", name := name, qualifiers := some ["const"], pointers := some [[""]] } : Declaration K)
  if interior then
    let first := name ++ "_0"
    let second := name ++ "_1"
    let plus ← coordinateArray first nodes components
    return ([array first, array second], .two plus (← coordinateArray second nodes components))
  else return ([array name], .one (← coordinateArray name nodes components))

/-! ## The element tensor -/

/-- All choices of a cell for each argument, the last argument fastest. -/
def cellChoices (n : Nat) : List (List Nat) := choices (List.replicate n [0, 1])

/-- The block of the element tensor for each choice of cells, one slice for each argument. -/
def blocks (sizes : List Nat) (interior : Bool) : List (List Slice) :=
  if interior then
    (cellChoices sizes.length).map fun rs => (rs.zip sizes).map fun (r, s) => between (r * s) ((r + 1) * s)
  else [sizes.map upTo]

def tensorShape (shapes : List (List Nat)) (interior : Bool) : List Nat :=
  (shapes.map count).map fun n => if interior then 2 * n else n

def blockEntry (shapes : List (List Nat)) (indices : List (Slot (Expr K))) (block : Expr K) : Build (Expr K) := do
  Build.indexed (← Build.reshape block (shapes.map extents)) indices

/-- The entries of the element tensor with one dimension for each argument. -/
def elementTensor (shapes : List (List Nat)) (indices : List (Slot (Expr K))) (interior : Bool) :
    Build (Declaration K × List (Expr K)) := do
  if shapes.isEmpty then
    let entry ← Build.indexed (.var "A" [some 1]) [.fixed 0]
    return ({ type := "double", name := "A", rank := [.fixed 1] }, [entry])
  let shape := tensorShape shapes interior
  let whole : Expr K := .var "A" (shape.map fun n => some (Int.ofNat n))
  let entries ← (blocks (shapes.map count) interior).mapM fun slices => do
    blockEntry shapes indices (← Build.view whole slices)
  return ({ type := "double", name := "A", rank := shape.map fun n => .fixed (Int.ofNat n) }, ← Rewrite.inlineComponents entries)

/-- The text that clears the flat element tensor. -/
def clearText (size : Option Nat) : String :=
  match size with
  | none => "memset(A, 0, sizeof(*A));\n"
  | some n => s!"memset(A, 0, {inWord n} * sizeof(*A));\n"

/-- The entries of the flat element tensor, with the text that clears it. -/
def flatElementTensor (shapes : List (List Nat)) (indices : List (Slot (Expr K))) (interior : Bool) :
    Build (Declaration K × List String × List (Expr K)) := do
  let declaration : Declaration K := { type := "double", name := "A", pointers := some [[]] }
  let whole : Expr K := .var "A" [none]
  if shapes.isEmpty then
    return (declaration, [clearText none], [← Build.reshape whole [[]]])
  let shape := tensorShape shapes interior
  let entries ← (blocks (shapes.map count) interior).mapM fun slices => do
    blockEntry shapes indices (← Build.view (← Build.reshape whole [extents shape]) slices)
  return (declaration, [clearText (some (count shape))], ← Rewrite.inlineComponents entries)

end Layout

end FormCompiler
