import FormCompiler.Expr.Index
import FormCompiler.Tensor

/-!
# Tensor expressions

An expression denotes a tensor that depends on its free indices. Indexing a tensor turns its dimensions into
indices; `componentTensor` turns indices back into dimensions, and `indexSum` sums over them. Every expression
keeps a fingerprint and the set of its free indices, computed once when it is made, so that shared parts are
recognised quickly.

A literal that holds what is not a number, and a failure, equal only themselves: the stamp and the serial tell
them apart.
-/

namespace FormCompiler

inductive BinaryOp where
  | sum | product | quotient | power
  | minimum | maximum
  | conjunction | disjunction
  | compare (c : Comparison)
  deriving DecidableEq, Hashable, Repr

/-- Tensor expressions over numbers `K`. -/
inductive Expr (K : Type) where
  /-- The tensor of zeros. -/
  | zero (shape : Shape)
  /-- The unit matrix. -/
  | identity (dim : Nat)
  /-- A constant table. -/
  | literal (value : Tensor K) (stamp : UInt64)
  /-- A named tensor that the kernel is given. -/
  | var (name : String) (shape : Shape)
  /-- A place that fails with the given complaint if code is made for it. -/
  | failure (shape : Shape) (kind text : String) (serial : Nat)
  | binary (op : BinaryOp) (a b : Expr K)
  /-- Logical negation. -/
  | negation (a : Expr K)
  /-- A named function of scalars. -/
  | call (name : String) (args : List (Expr K))
  | conditional (condition yes no : Expr K)
  /-- One entry of a tensor, one slot for each dimension. -/
  | indexed (tensor : Expr K) (slots : List (Slot (Expr K)))
  /-- One entry of a named tensor, addressed by offset and strides in each dimension. -/
  | access (name : String) (shape : Shape) (dims : List DimAccess)
  /-- The tensor whose dimensions are the binders. -/
  | componentTensor (body : Expr K) (binders : List Binder)
  /-- The sum over the binders. -/
  | indexSum (body : Expr K) (binders : List Binder)
  /-- A tensor given entry by entry, row by row. -/
  | listTensor (shape : List Nat) (entries : List (Expr K))
  /-- The entries of all parts one after the other. -/
  | concatenate (parts : List (Expr K))
  /-- One where the two indices agree, zero elsewhere. -/
  | delta (i j : Slot (Expr K))
with
  @[computed_field] key : (K : Type) → Expr K → UInt64
    | _, .zero shape => mixHash 2 (hash shape)
    | _, .identity n => mixHash 3 (hash n)
    | _, .literal _ stamp => mixHash 5 stamp
    | _, .var name shape => mixHash 7 (mixHash (hash name) (hash shape))
    | _, .failure shape _ _ serial => mixHash 11 (mixHash (hash shape) (hash serial))
    | K, .binary op a b => mixHash (mixHash 13 (hash op)) (mixHash (key K a) (key K b))
    | K, .negation a => mixHash 17 (key K a)
    | K, .call name args => mixHash (mixHash 19 (hash name)) (hash (args.map (key K)))
    | K, .conditional c y n => mixHash (mixHash 23 (key K c)) (mixHash (key K y) (key K n))
    | K, .indexed t slots => mixHash (mixHash 29 (key K t)) (hash (slots.attach.map fun ⟨s, hs⟩ => match s, hs with
        | .fixed n, _ => mixHash 1 (hash n)
        | .free i, _ => mixHash 2 (hash i)
        | .runtime e, hs => have := Slot.sizeOf_lt_of_runtime_mem hs; mixHash 3 (key K e)))
    | _, .access name shape dims => mixHash (mixHash 31 (hash name)) (mixHash (hash shape) (hash dims))
    | K, .componentTensor body binders => mixHash (mixHash 37 (key K body)) (hash binders)
    | K, .indexSum body binders => mixHash (mixHash 41 (key K body)) (hash binders)
    | K, .listTensor shape entries => mixHash (mixHash 43 (hash shape)) (hash (entries.map (key K)))
    | K, .concatenate parts => mixHash 47 (hash (parts.map (key K)))
    | K, .delta i j =>
      let slotKey := fun (s : Slot (Expr K)) (h : sizeOf s ≤ sizeOf i + sizeOf j) => match s, h with
        | .fixed n, _ => mixHash 1 (hash n)
        | .free i, _ => mixHash 2 (hash i)
        | .runtime e, h =>
          have : sizeOf e < 1 + sizeOf i + sizeOf j := by simp only [Slot.runtime.sizeOf_spec] at h; omega
          mixHash 3 (key K e)
      mixHash 53 (mixHash (slotKey i (by omega)) (slotKey j (by omega)))
  /-- The indices that occur unbound, in ascending order. -/
  @[computed_field] freeIndices : (K : Type) → Expr K → List Index
    | _, .zero _ => []
    | _, .identity _ => []
    | _, .literal _ _ => []
    | _, .var _ _ => []
    | _, .failure _ _ _ _ => []
    | K, .binary _ a b => Indices.union (freeIndices K a) (freeIndices K b)
    | K, .negation a => freeIndices K a
    | K, .call _ args => args.foldr (fun a acc => Indices.union (freeIndices K a) acc) []
    | K, .conditional c y n =>
      Indices.union (freeIndices K c) (Indices.union (freeIndices K y) (freeIndices K n))
    | K, .indexed t slots => Indices.union (slots.filterMap Slot.index?) (freeIndices K t)
    | _, .access _ _ dims => Indices.ofList (dims.flatMap fun d => d.terms.map Prod.fst)
    | K, .componentTensor body binders => Indices.diff (freeIndices K body) (binders.map Prod.fst)
    | K, .indexSum body binders => Indices.diff (freeIndices K body) (binders.map Prod.fst)
    | K, .listTensor _ entries => entries.foldr (fun a acc => Indices.union (freeIndices K a) acc) []
    | K, .concatenate parts => parts.foldr (fun a acc => Indices.union (freeIndices K a) acc) []
    | _, .delta i j => Indices.ofList ([i, j].filterMap Slot.index?)
  /-- The longest way down to a leaf. -/
  @[computed_field] height : (K : Type) → Expr K → Nat
    | _, .zero _ => 0
    | _, .identity _ => 0
    | _, .literal _ _ => 0
    | _, .var _ _ => 0
    | _, .failure _ _ _ _ => 0
    | K, .binary _ a b => 1 + max (height K a) (height K b)
    | K, .negation a => 1 + height K a
    | K, .call _ args => 1 + args.foldr (fun a acc => max (height K a) acc) 0
    | K, .conditional c y n => 1 + max (height K c) (max (height K y) (height K n))
    | K, .indexed t _ => 1 + height K t
    | _, .access _ _ _ => 1
    | K, .componentTensor body _ => 1 + height K body
    | K, .indexSum body _ => 1 + height K body
    | K, .listTensor _ entries => 1 + entries.foldr (fun a acc => max (height K a) acc) 0
    | K, .concatenate parts => 1 + parts.foldr (fun a acc => max (height K a) acc) 0
    | _, .delta _ _ => 0

/-! ## Parts are smaller

Functions over expressions recurse on the parts of a node by these facts. -/

namespace Expr

variable {K : Type}

theorem sizeOf_left (op : BinaryOp) (a b : Expr K) : sizeOf a < sizeOf (binary op a b) := by
  simp only [binary.sizeOf_spec]
  omega

theorem sizeOf_right (op : BinaryOp) (a b : Expr K) : sizeOf b < sizeOf (binary op a b) := by
  simp only [binary.sizeOf_spec]
  omega

theorem sizeOf_negated (a : Expr K) : sizeOf a < sizeOf (negation a) := by
  simp only [negation.sizeOf_spec]
  omega

theorem sizeOf_argument {name : String} {args : List (Expr K)} {a : Expr K} (h : a ∈ args) :
    sizeOf a < sizeOf (call name args) := by
  have := List.sizeOf_lt_of_mem h
  simp only [call.sizeOf_spec]
  omega

theorem sizeOf_condition (c y n : Expr K) : sizeOf c < sizeOf (conditional c y n) := by
  simp only [conditional.sizeOf_spec]
  omega

theorem sizeOf_yes (c y n : Expr K) : sizeOf y < sizeOf (conditional c y n) := by
  simp only [conditional.sizeOf_spec]
  omega

theorem sizeOf_no (c y n : Expr K) : sizeOf n < sizeOf (conditional c y n) := by
  simp only [conditional.sizeOf_spec]
  omega

theorem sizeOf_tensor (t : Expr K) (slots : List (Slot (Expr K))) : sizeOf t < sizeOf (indexed t slots) := by
  simp only [indexed.sizeOf_spec]
  omega

theorem sizeOf_slot {t r : Expr K} {slots : List (Slot (Expr K))} (h : .runtime r ∈ slots) :
    sizeOf r < sizeOf (indexed t slots) := by
  have := Slot.sizeOf_lt_of_runtime_mem h
  simp only [indexed.sizeOf_spec]
  omega

theorem sizeOf_component (body : Expr K) (binders : List Binder) :
    sizeOf body < sizeOf (componentTensor body binders) := by
  simp only [componentTensor.sizeOf_spec]
  omega

theorem sizeOf_inlined (body : Expr K) (binders : List Binder) (slots : List (Slot (Expr K))) :
    sizeOf body < sizeOf (indexed (componentTensor body binders) slots) :=
  Nat.lt_trans (sizeOf_component body binders) (sizeOf_tensor _ slots)

theorem sizeOf_summand (body : Expr K) (binders : List Binder) : sizeOf body < sizeOf (indexSum body binders) := by
  simp only [indexSum.sizeOf_spec]
  omega

theorem sizeOf_entry {shape : List Nat} {entries : List (Expr K)} {a : Expr K} (h : a ∈ entries) :
    sizeOf a < sizeOf (listTensor shape entries) := by
  have := List.sizeOf_lt_of_mem h
  simp only [listTensor.sizeOf_spec]
  omega

theorem sizeOf_part {parts : List (Expr K)} {a : Expr K} (h : a ∈ parts) : sizeOf a < sizeOf (concatenate parts) := by
  have := List.sizeOf_lt_of_mem h
  simp only [concatenate.sizeOf_spec]
  omega

theorem sizeOf_deltaSlot {i j : Slot (Expr K)} {r : Expr K} (h : sizeOf (Slot.runtime r) ≤ sizeOf i + sizeOf j) :
    sizeOf r < sizeOf (delta i j) := by
  simp only [Slot.runtime.sizeOf_spec] at h
  simp only [delta.sizeOf_spec]
  omega

theorem sizeOf_firstSlot (i j : Slot (Expr K)) : sizeOf i ≤ sizeOf i + sizeOf j := Nat.le_add_right _ _

theorem sizeOf_secondSlot (i j : Slot (Expr K)) : sizeOf j ≤ sizeOf i + sizeOf j := Nat.le_add_left _ _

end Expr

end FormCompiler
