import FormCompiler.Proofs.Exact

/-!
# What expressions mean

An expression has a value at each entry of its shape, once variables have contents and indices have positions. The
rule for one node is given over any monad, so that the same rule serves for plain values and for a reading that may
fail part way, as when a kernel looks for a temporary that is not there.
-/

namespace FormCompiler

open List

/-! ## Positions of indices -/

/-- The positions at which indices stand. -/
abbrev Valuation := Index → Int

namespace Valuation

/-- Put one index at a position. -/
def set (ρ : Valuation) (i : Index) (v : Int) : Valuation := fun j => if j = i then v else ρ j

/-- Put binders at positions one after the other; of a repeated index the last counts, and a position that is not
given is zero. -/
def bind (ρ : Valuation) : List Binder → List Int → Valuation
  | [], _ => ρ
  | b :: bs, vs => (ρ.set b.1 (vs.headD 0)).bind bs vs.tail

/-- The valuations in which the binders run over their extents. A repeated index runs once. -/
def ranging (ρ : Valuation) : List Binder → List Valuation
  | [] => [ρ]
  | b :: bs =>
    if bs.any (fun c => c.1 == b.1) then ρ.ranging bs
    else (List.range b.2.toNat).flatMap fun (n : Nat) => (ρ.set b.1 (n : Int)).ranging bs

@[simp] theorem set_self (ρ : Valuation) (i : Index) (v : Int) : ρ.set i v i = v := by
  simp [set]

theorem set_of_ne (ρ : Valuation) {i j : Index} (v : Int) (h : j ≠ i) : ρ.set i v j = ρ j := by
  simp [set, h]

end Valuation

/-- The position that an access addresses along one dimension. -/
def DimAccess.at (d : DimAccess) (ρ : Valuation) : Int :=
  d.offset + (d.terms.map fun t => ρ t.1 * t.2.value).sum

/-! ## Entries of tables -/

/-- The entry at positions that may count from the end, zero out of range. -/
def Tensor.entry {K : Type} [Scalar K] (t : Tensor K) (idx : List Int) : K :=
  match Tensor.resolveAll t.shape idx with
  | some p => t.get p
  | none => Scalar.zero

/-- The index tuple at a place in row order. -/
def unravel : List Nat → Nat → List Nat
  | [], _ => []
  | _ :: s, k => k / count s :: unravel s (k % count s)

/-- The part in which a place lies, where parts of the given sizes follow one another, and the place in it. -/
def locatePart : List Nat → Nat → Option (Nat × Nat)
  | [], _ => none
  | n :: ns, k => if k < n then some (0, k) else (locatePart ns (k - n)).map fun p => (p.1 + 1, p.2)

/-! ## The rule for one node -/

/-- What variables hold and what is left open: the tables of failures, named functions, and the position that a
number stands for at run time. -/
structure Environment (K : Type) where
  tensor : String → Shape → List Int → K
  failure : Nat → List Int → K
  call : String → List K → K
  position : K → Int

variable {K : Type} [Scalar K]

/-- Is a number true? -/
def truth (x : K) : Bool := !Scalar.isZero x

/-- The value of an operator. -/
def BinaryOp.apply [Field K] (op : BinaryOp) (a b : K) : K :=
  match op with
  | .sum => a + b
  | .product => a * b
  | .quotient => a / b
  | .power => Scalar.power a b
  | .minimum => Scalar.minimum a b
  | .maximum => Scalar.maximum a b
  | .conjunction => Scalar.ofBool (truth a && truth b)
  | .disjunction => Scalar.ofBool (truth a || truth b)
  | .compare c => Scalar.ofBool (Scalar.compare c a b)

namespace Expr

/-- The extents of a tensor of known extents, empty if one is open. -/
def extents (e : Expr K) : List Nat := (Shape.toNats? e.shape).getD []

/-- The entry of a list of entries at positions that may count from the end. -/
def entryAt (shape : List Nat) (entries : List (Expr K)) (idx : List Int) : Option (Expr K) :=
  (Tensor.resolveAll shape idx).bind fun p => entries[FormCompiler.position shape p]?

/-- The part of a concatenation in which a position lies, with the entry of the part. -/
def partAt (ps : List (Expr K)) (idx : List Int) : Option (Expr K × List Int) := do
  let sizes := ps.map fun p => count p.extents
  let place ← Tensor.resolveAll [sizes.sum] idx
  let (k, inner) ← locatePart sizes (place.headD 0)
  let c ← ps[k]?
  return (c, (unravel c.extents inner).map Int.ofNat)

omit [Scalar K] in
theorem mem_of_entryAt {shape : List Nat} {entries : List (Expr K)} {idx : List Int} {c : Expr K}
    (h : entryAt shape entries idx = some c) : c ∈ entries := by
  obtain ⟨p, -, hp⟩ := Option.bind_eq_some_iff.1 h
  exact mem_of_getElem? hp

omit [Scalar K] in
theorem mem_of_partAt {ps : List (Expr K)} {idx : List Int} {p : Expr K × List Int} (h : partAt ps idx = some p) :
    p.1 ∈ ps := by
  obtain ⟨place, -, h⟩ := Option.bind_eq_some_iff.1 h
  obtain ⟨⟨k, inner⟩, -, h⟩ := Option.bind_eq_some_iff.1 h
  obtain ⟨c, hc, h⟩ := Option.bind_eq_some_iff.1 h
  cases h
  exact mem_of_getElem? hc

/-- Values of a tensor that depends on indices, found in a monad. -/
abbrev Reading (K : Type) (m : Type → Type) := Valuation → List Int → m K

variable [Field K] {m : Type → Type} [Monad m]

/-- The position of a slot, given how its expression is read. -/
def slotAt (env : Environment K) (ρ : Valuation) : (s : Slot (Expr K)) → ((r : Expr K) → s = .runtime r → m K) → m Int
  | .fixed n, _ => pure n
  | .free i, _ => pure (ρ i)
  | .runtime r, read => do return env.position (← read r rfl)

/-- The value of a node, given how its parts are read. -/
def meaningStep (env : Environment K) : (e : Expr K) → ((c : Expr K) → c ∈ e.parts → Reading K m) → Reading K m
  | .zero _, _, _, _ => pure 0
  | .identity n, _, _, idx => pure ((Tensor.eye n).entry idx)
  | .literal t _, _, _, idx => pure (t.entry idx)
  | .var name shape, _, _, idx => pure (env.tensor name shape idx)
  | .failure _ _ _ serial, _, _, idx => pure (env.failure serial idx)
  | .binary op a b, self, ρ, _ => do
    let x ← self a (by simp [parts, children]) ρ []
    let y ← self b (by simp [parts, children]) ρ []
    return op.apply x y
  | .negation a, self, ρ, _ => do
    let x ← self a (by simp [parts, children]) ρ []
    return Scalar.ofBool (!truth x)
  | .call name args, self, ρ, _ => do
    let xs ← args.attach.mapM fun ⟨a, h⟩ => self a (by simp [parts, children, h]) ρ []
    return env.call name xs
  | .conditional c y n, self, ρ, idx => do
    let x ← self c (by simp [parts, children]) ρ []
    let u ← self y (by simp [parts, children]) ρ idx
    let v ← self n (by simp [parts, children]) ρ idx
    return if truth x then u else v
  | .indexed t slots, self, ρ, _ => do
    let positions ← slots.attach.mapM fun ⟨s, h⟩ =>
      slotAt env ρ s fun r hr => self r (by
        simp only [parts, children, runtimeSlots, mem_append, mem_filterMap]
        exact .inr ⟨s, h, by rw [hr]; rfl⟩) ρ []
    self t (by simp [parts, children]) ρ positions
  | .access name shape dims, _, ρ, _ => pure (env.tensor name shape (dims.map fun d => d.at ρ))
  | .componentTensor body binders, self, ρ, idx => self body (by simp [parts, children]) (ρ.bind binders idx) []
  | .indexSum body binders, self, ρ, _ => do
    let xs ← (ρ.ranging binders).mapM fun ρ' => self body (by simp [parts, children]) ρ' []
    return xs.sum
  | .listTensor shape entries, self, ρ, idx =>
    match h : entryAt shape entries idx with
    | some c => self c (by simp [parts, children, mem_of_entryAt h]) ρ []
    | none => pure 0
  | .concatenate ps, self, ρ, idx =>
    match h : partAt ps idx with
    | some (c, entry) => self c (by simp [parts, children, mem_of_partAt h]) ρ entry
    | none => pure 0
  | .delta i j, self, ρ, _ => do
    let u ← slotAt env ρ i fun r hr => self r (by simp [parts, children, runtimeSlots, hr, Slot.expr?]) ρ []
    let v ← slotAt env ρ j fun r hr => self r (by
      simp only [parts, children, runtimeSlots, nil_append, mem_filterMap]
      exact ⟨j, by simp, by rw [hr]; rfl⟩) ρ []
    return if u = v then 1 else 0

attribute [local simp] meaningStep

/-- The value of an expression at an entry. -/
def value (env : Environment K) (e : Expr K) (ρ : Valuation) (idx : List Int) : K :=
  Id.run (meaningStep env e (fun c h ρ idx =>
    have := sizeOf_lt_of_mem_parts h
    pure (value env c ρ idx)) ρ idx)
termination_by sizeOf e

/-- The position of a slot. -/
def position (env : Environment K) (ρ : Valuation) : Slot (Expr K) → Int
  | .fixed n => n
  | .free i => ρ i
  | .runtime r => env.position (value env r ρ [])

theorem slotAt_value (env : Environment K) (ρ : Valuation) (s : Slot (Expr K)) :
    Id.run (slotAt env ρ s fun r _ => pure (value env r ρ [])) = position env ρ s := by
  cases s <;> rfl

section Equations

variable (env : Environment K) (ρ : Valuation) (idx : List Int)

/-- The value of a node comes from the values of its parts. -/
theorem value_eq (e : Expr K) :
    value env e ρ idx = Id.run (meaningStep env e (fun c _ ρ idx => pure (value env c ρ idx)) ρ idx) := by
  rw [value]

@[simp] theorem value_zero (shape : Shape) : value env (.zero shape) ρ idx = 0 := by
  rw [value_eq]; rfl

@[simp] theorem value_identity (n : Nat) : value env (.identity n) ρ idx = (Tensor.eye n : Tensor K).entry idx := by
  rw [value_eq]; rfl

@[simp] theorem value_literal (t : Tensor K) (stamp : UInt64) : value env (.literal t stamp) ρ idx = t.entry idx := by
  rw [value_eq]; rfl

@[simp] theorem value_var (name : String) (shape : Shape) :
    value env (.var name shape) ρ idx = env.tensor name shape idx := by
  rw [value_eq]; rfl

@[simp] theorem value_failure (shape : Shape) (kind text : String) (serial : Nat) :
    value env (.failure shape kind text serial) ρ idx = env.failure serial idx := by
  rw [value_eq]; rfl

@[simp] theorem value_binary (op : BinaryOp) (a b : Expr K) :
    value env (.binary op a b) ρ idx = op.apply (value env a ρ []) (value env b ρ []) := by
  rw [value_eq]; rfl

@[simp] theorem value_negation (a : Expr K) :
    value env (.negation a) ρ idx = Scalar.ofBool (!truth (value env a ρ [])) := by
  rw [value_eq]; rfl

@[simp] theorem value_call (name : String) (args : List (Expr K)) :
    value env (.call name args) ρ idx = env.call name (args.map fun a => value env a ρ []) := by
  rw [value_eq]
  simp

@[simp] theorem value_conditional (c y n : Expr K) :
    value env (.conditional c y n) ρ idx =
      if truth (value env c ρ []) then value env y ρ idx else value env n ρ idx := by
  rw [value_eq]; rfl

@[simp] theorem value_indexed (t : Expr K) (slots : List (Slot (Expr K))) :
    value env (.indexed t slots) ρ idx = value env t ρ (slots.map (position env ρ)) := by
  rw [value_eq]
  simp [slotAt_value]

@[simp] theorem value_access (name : String) (shape : Shape) (dims : List DimAccess) :
    value env (.access name shape dims) ρ idx = env.tensor name shape (dims.map fun d => d.at ρ) := by
  rw [value_eq]; rfl

@[simp] theorem value_componentTensor (body : Expr K) (binders : List Binder) :
    value env (.componentTensor body binders) ρ idx = value env body (ρ.bind binders idx) [] := by
  rw [value_eq]; rfl

@[simp] theorem value_indexSum (body : Expr K) (binders : List Binder) :
    value env (.indexSum body binders) ρ idx = ((ρ.ranging binders).map fun ρ' => value env body ρ' []).sum := by
  rw [value_eq]
  simp

theorem value_listTensor (shape : List Nat) (entries : List (Expr K)) :
    value env (.listTensor shape entries) ρ idx = match entryAt shape entries idx with
      | some c => value env c ρ []
      | none => 0 := by
  rw [value_eq]
  simp only [meaningStep]
  split
  · rename_i c h
    simp [h]
  · rename_i h
    simp [h]

theorem value_concatenate (ps : List (Expr K)) :
    value env (.concatenate ps) ρ idx = match partAt ps idx with
      | some (c, entry) => value env c ρ entry
      | none => 0 := by
  rw [value_eq]
  simp only [meaningStep]
  split
  · rename_i c entry h
    simp [h]
  · rename_i h
    simp [h]

@[simp] theorem value_delta (i j : Slot (Expr K)) :
    value env (.delta i j) ρ idx = if position env ρ i = position env ρ j then 1 else 0 := by
  rw [value_eq]
  simp [slotAt_value]

end Equations

end Expr

end FormCompiler
