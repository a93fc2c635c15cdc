import FormCompiler.Concatenation
import FormCompiler.Element.Basis
import FormCompiler.Exchange.Doc
import FormCompiler.Form.Recursion
import FormCompiler.Lowering.Algebra
import FormCompiler.Monomial.Basic
import FormCompiler.Schedule.Program

/-!
# The workbench

What one sequence of requests shares: the indices made so far, the values that have a name, and the names by which
indices are printed. A refused request leaves behind what it did before it was refused.
-/

namespace FormCompiler

inductive Named where
  | expr (e : Expr Float)
  | exprs (es : List (Expr Float))
  | pairs (ps : List (Expr Float × Expr Float))
  | monomials (m : MonomialSum Float)
  | program (p : Program Float)

/-- The expressions written out in one answer, each with its number. -/
structure Page where
  entries : Array Doc := #[]
  texts : Std.HashMap String Nat := ∅
  known : Expr.Store Float Nat := ∅

abbrev Maker := Expr Float → List (Slot (Expr Float)) → Build (Expr Float)

/-- What the requests of one sequence share. -/
structure Workbench where
  session : Session := {}
  values : Std.HashMap String Named := ∅
  /-- Slots by name, declared or named while printing. -/
  slots : Std.HashMap String (Slot (Expr Float)) := ∅
  /-- Declared names in order of their first declaration. -/
  declared : List String := []
  /-- The printed names of indices by number. -/
  names : Std.HashMap Nat String := ∅
  /-- How many indices got their name while printing. -/
  fresh : Nat := 0
  splits : Std.HashMap String Concatenation.Splits := ∅
  page : Page := {}
  /-- Further functions that requests can name in expressions. -/
  makers : List (String × Maker) := []
  mesh : Option Domain := none
  functions : List (String × Terminal Float) := []
  /-- The supply of indices for terms. -/
  labels : Nat := 0
  bases : Basis.Store := []
  /-- The indices by which free indices of terms are known. -/
  indexMap : IndexMap := ∅

/-- Why a request has no answer. -/
inductive Fault where
  /-- The operation refuses. -/
  | refused (e : Error)
  /-- A name without a value. -/
  | undefined (name : String)
  /-- A request of an unknown form. -/
  | unreadable (text : String)
  deriving Inhabited

abbrev Work := ExceptT Fault (StateM Workbench)

namespace Work

variable {α : Type}

instance : Inhabited (Work α) := ⟨throw (.unreadable "")⟩

def refuse (e : Error) : Work α := throw (.refused e)

def build (x : Build α) : Work α := do
  let w ← get
  let (r, session) := x.run w.session
  set { w with session }
  match r with
  | .ok a => return a
  | .error e => refuse e

def ofExcept : Except Error α → Work α
  | .ok a => return a
  | .error e => refuse e

/-- Make terms with the workbench's supply of indices. -/
def forming (x : Forming α) : Work α := do
  let w ← get
  let (r, labels) := x.run w.labels
  set { w with labels }
  match r with
  | .ok a => return a
  | .error e => refuse e

/-- Make terms with the workbench's supply of indices. -/
def labelling (x : Labels α) : Work α := forming (ExceptT.lift x)

def basis (e : Element) (innermost : Bool) : Work Basis := do
  let w ← get
  let (r, bases) := (Basis.obtain innermost e).run w.bases
  set { w with bases }
  match r with
  | .ok made => return made.basis
  | .error e => refuse e

def lower (x : Lowering α) : Work α := do
  let (a, indexMap) ← build (x.run (← get).indexMap)
  modify fun w => { w with indexMap }
  return a

/-- Run, and hand a refusal over as a value. -/
def attempt (x : Work α) : Work (Except Fault α) := fun w =>
  let (r, w) := x.run.run w
  pure (pure r, w)

def named (name : String) : Work Named := do
  match (← get).values[name]? with
  | some v => return v
  | none => throw (.undefined name)

def keep (name : String) (v : Named) : Work Unit :=
  modify fun w => { w with values := w.values.insert name v }

def turnPage : Work Unit := modify fun w => { w with page := {} }

/-! ## Plain data -/

/-- A field that must be there. -/
def field (d : Doc) (key : String) : Work Doc :=
  match d with
  | .object fields =>
    match fields.find? fun p => p.1 == key with
    | some p => return p.2
    | none => refuse .missing
  | _ => refuse .missing

def items : Doc → Work (List Doc)
  | .list ds => return ds
  | _ => throw (.unreadable "list")

/-- The items of a list in a field, none if it is missing. -/
def itemsAt (d : Doc) (key : String) : Work (List Doc) :=
  match d.get? key with
  | some (.list ds) => return ds
  | _ => return []

def int : Doc → Work Int
  | .int n => return n
  | .bool b => return if b then 1 else 0
  | _ => refuse .unsupported

/-- A whole number that is not negative. -/
def nat (d : Doc) : Work Nat := do return (← int d).toNat

/-- A whole number in a field, with a default. -/
def intAt (d : Doc) (key : String) (default : Int) : Work Int :=
  match d.get? key with
  | some v => int v
  | none => return default

def string : Doc → Work String
  | .str s => return s
  | _ => refuse .unsupported

def stringAt (d : Doc) (key : String) : Work String := do string (← field d key)

def float : Doc → Work Float
  | .int n => return Float.ofInt n
  | .real x => return x
  | .str "nan" => return 0.0 / 0.0
  | .str "inf" => return 1.0 / 0.0
  | .str "-inf" => return -1.0 / 0.0
  | .bool b => return if b then 1.0 else 0.0
  | _ => refuse .unsupported

def extent : Doc → Work Extent
  | .null => return none
  | d => do return some (← int d)

def shape (d : Doc) : Work Shape := do (← items d).mapM extent

/-- Lay tables of one shape one after the other. -/
def stack (parts : List (Tensor Float)) : Work (Tensor Float) :=
  match parts with
  | [] => return ⟨[0], #[]⟩
  | p :: _ =>
    if parts.all fun q => q.shape == p.shape then
      return ⟨parts.length :: p.shape, parts.foldl (fun acc q => acc ++ q.entries) #[]⟩
    else refuse .malformed

mutual

/-- Nested lists of numbers as a table; rows of unequal form are refused. -/
def tensor : Doc → Work (Tensor Float)
  | .list ds => do stack (← tensors ds)
  | d => do return ⟨[], #[← float d]⟩

def tensors : List Doc → Work (List (Tensor Float))
  | [] => return []
  | d :: ds => do
    let t ← tensor d
    return t :: (← tensors ds)

end

end Work

end FormCompiler
