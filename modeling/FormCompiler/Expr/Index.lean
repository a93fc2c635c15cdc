import FormCompiler.Shape

/-!
# Indices

A running index stands for the positions along one dimension. It is known by its number alone; its name and
extent are kept by the session in which it was made. A slot of a multi-index holds a fixed position, a running
index, or a value that becomes known when the kernel runs.
-/

namespace FormCompiler

structure Index where
  number : Nat
  deriving DecidableEq, Hashable, Repr, Inhabited

/-- One entry of a multi-index over expressions `α`. -/
inductive Slot (α : Type) where
  | fixed (n : Int)
  | free (i : Index)
  /-- A position that is constant during one run of the kernel. -/
  | runtime (e : α)
  deriving Repr

namespace Slot

variable {α β : Type}

def index? : Slot α → Option Index
  | .free i => some i
  | _ => none

def expr? : Slot α → Option α
  | .runtime e => some e
  | _ => none

def fixed? : Slot α → Option Int
  | .fixed n => some n
  | _ => none

def map (f : α → β) : Slot α → Slot β
  | .fixed n => .fixed n
  | .free i => .free i
  | .runtime e => .runtime (f e)

def beqBy (eq : α → α → Bool) : Slot α → Slot α → Bool
  | .fixed m, .fixed n => m == n
  | .free i, .free j => i == j
  | .runtime a, .runtime b => eq a b
  | _, _ => false

theorem sizeOf_lt_of_runtime_mem [SizeOf α] {e : α} {slots : List (Slot α)} (h : Slot.runtime e ∈ slots) :
    sizeOf e < sizeOf slots := by
  have hlt := List.sizeOf_lt_of_mem h
  simp only [Slot.runtime.sizeOf_spec] at hlt
  omega

end Slot

/-- A distance in memory between neighbouring positions of an index. A composite one is a product of extents,
and messages mark it. -/
structure Stride where
  value : Int
  composite : Bool
  deriving DecidableEq, Hashable, Repr

/-- The positions `offset + Σ index * stride` along one dimension of a variable. -/
structure DimAccess where
  offset : Int
  terms : List (Index × Stride)
  deriving DecidableEq, Hashable, Repr

abbrev Binder := Index × Int

/-! ## Sets of indices

Lists in ascending order of number, without repetition, so that equal sets are equal lists. -/

namespace Indices

def insert (i : Index) : List Index → List Index
  | [] => [i]
  | j :: js =>
    if i.number < j.number then i :: j :: js
    else if i.number = j.number then j :: js
    else j :: insert i js

/-- The indices of either list; the second is in order. -/
def union (is js : List Index) : List Index := is.foldl (fun acc i => insert i acc) js

def ofList (is : List Index) : List Index := union is []

/-- The indices of the first list that the second lacks. -/
def diff (is js : List Index) : List Index := is.filter fun i => !js.contains i

def meet (is js : List Index) : Bool := is.any js.contains

def subset (is js : List Index) : Bool := is.all js.contains

theorem mem_insert {i k : Index} {js : List Index} : k ∈ insert i js ↔ k = i ∨ k ∈ js := by
  induction js with
  | nil => simp [insert]
  | cons j js ih =>
    unfold insert
    split
    · simp
    · split
      · rename_i heq
        have : i = j := by cases i; cases j; simp_all
        simp [this]
      · simp [ih]; grind

theorem mem_union {k : Index} {is js : List Index} : k ∈ union is js ↔ k ∈ is ∨ k ∈ js := by
  unfold union
  induction is generalizing js with
  | nil => simp
  | cons i is ih => simp [ih, mem_insert]; grind

end Indices

end FormCompiler
