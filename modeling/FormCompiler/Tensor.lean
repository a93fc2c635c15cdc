import FormCompiler.Scalar
import FormCompiler.Shape

/-!
# Tensors of numbers

A table of scalars with its extents, entries row by row.
-/

namespace FormCompiler

structure Tensor (K : Type) where
  shape : List Nat
  entries : Array K
  deriving Repr, Inhabited

namespace Tensor

variable {K : Type} [Scalar K]

/-- The table of a function of the index tuple. -/
def ofFn (shape : List Nat) (f : List Nat → K) : Tensor K :=
  ⟨shape, ((tuples shape).map f).toArray⟩

/-- A table without indices. -/
def scalar (x : K) : Tensor K := ⟨[], #[x]⟩

/-- The entry at an index tuple, zero out of range. -/
def get (t : Tensor K) (idx : List Nat) : K := t.entries.getD (position t.shape idx) Scalar.zero

def fill (shape : List Nat) (x : K) : Tensor K := ⟨shape, Array.replicate (count shape) x⟩

def eye (n : Nat) : Tensor K :=
  ofFn [n, n] fun idx => match idx with
    | [i, j] => Scalar.ofBool (i == j)
    | _ => Scalar.zero

def rank (t : Tensor K) : Nat := t.shape.length

def isZero (t : Tensor K) : Bool := t.entries.all Scalar.isZero

/-- Is some entry not a number? -/
def hasNaN (t : Tensor K) : Bool := t.entries.any Scalar.isNaN

def same (a b : Tensor K) : Bool :=
  a.shape == b.shape && a.entries.size == b.entries.size &&
    (a.entries.zip b.entries).all fun (x, y) => Scalar.same x y

/-- Entry by entry equal as numbers. -/
def equal (a b : Tensor K) : Bool :=
  a.shape == b.shape && a.entries.size == b.entries.size &&
    (a.entries.zip b.entries).all fun (x, y) => Scalar.equal x y

theorem same_self (a : Tensor K) : same a a = true := by
  simp only [same, beq_self_eq_true, Bool.true_and, Array.all_eq_true]
  intro i hi
  simp only [Array.getElem_zip, Scalar.same_self]

/-- A fingerprint that tables which are the same share. -/
def digest (t : Tensor K) : UInt64 :=
  t.entries.foldl (fun h x => mixHash h (Scalar.digest x)) (hash t.shape)

/-- The table of a function applied to the entries. -/
def map (f : K → K) (t : Tensor K) : Tensor K := ⟨t.shape, t.entries.map f⟩

/-- Resolve an index that may count from the end. -/
def resolve (extent : Nat) (i : Int) : Option Nat :=
  if 0 ≤ i then (if i < Int.ofNat extent then some i.toNat else none)
  else (if -(Int.ofNat extent) ≤ i then some (Int.ofNat extent + i).toNat else none)

/-- Resolve a tuple of indices that may count from the end, one for each axis. -/
def resolveAll : List Nat → List Int → Option (List Nat)
  | [], [] => some []
  | n :: s, i :: is => do return (← resolve n i) :: (← resolveAll s is)
  | _, _ => none

/-- The axes in a new order: axis `k` of the result is axis `axes[k]` of the table. -/
def transpose (t : Tensor K) (axes : List Nat) : Tensor K :=
  let steps := strides t.shape
  let shape := axes.map fun a => t.shape.getD a 0
  let steps' := axes.map fun a => steps.getD a 0
  ⟨shape, ((tuples shape).map fun idx =>
    t.entries.getD ((idx.zip steps').foldl (fun acc (i, s) => acc + i * s) 0) Scalar.zero).toArray⟩

end Tensor

end FormCompiler
