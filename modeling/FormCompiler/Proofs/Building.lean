import FormCompiler.Proofs.Addressing
import FormCompiler.Proofs.Scopes

/-!
# What constructors make

Each constructor, when it returns, returns an expression that may stand for the node it was asked for: well-formed, of the
same shape, with no further free or bound index, and with the same value where that is defined.
-/

namespace FormCompiler

open FormCompiler.Expr List

/-! ## Expressions that stand for others -/

variable {K : Type} [Scalar K] [Field K] [Exact K]

namespace Expr

/-- An expression that may stand for another one: well-formed, of the same shape, without further free indices or scopes,
and with the same value where that is defined. -/
structure Refines (w : Index → Prop) (extent : Index → Extent) (e r : Expr K) : Prop where
  fits : WellFormed extent r
  shape : r.shape = e.shape
  free : r.freeIndices ⊆ e.freeIndices
  simpler : Simpler w r e
  carries (env : Environment K) (ρ : Valuation) : Carries env ρ ρ e r

namespace Refines

omit [Exact K]

variable {w : Index → Prop} {extent : Index → Extent} {a b c : Expr K}

theorem refl (fits : WellFormed extent a) : Refines w extent a a :=
  ⟨fits, rfl, List.Subset.refl _, .refl a, fun _ _ => .refl a⟩

/-- The expression between need not be well-formed. -/
theorem follow (h : Refines w extent b c) (shape : b.shape = a.shape) (free : b.freeIndices ⊆ a.freeIndices)
    (simpler : Simpler w b a) (carries : ∀ (env : Environment K) (ρ : Valuation), Carries env ρ ρ a b) : Refines w extent a c :=
  ⟨h.fits, h.shape.trans shape, List.Subset.trans h.free free, h.simpler.trans simpler,
    fun env ρ => (carries env ρ).trans shape (h.carries env ρ)⟩

theorem trans (hab : Refines w extent a b) (hbc : Refines w extent b c) : Refines w extent a c :=
  hbc.follow hab.shape hab.free hab.simpler hab.carries

/-- Scalars are compared at their one entry. -/
theorem ofScalar (scalar : a.shape = []) (fits : WellFormed extent b) (shape : b.shape = [])
    (free : b.freeIndices ⊆ a.freeIndices) (simpler : Simpler w b a)
    (same : ∀ (env : Environment K) (ρ : Valuation), Defined env a ρ [] →
      Defined env b ρ [] ∧ value env b ρ [] = value env a ρ []) : Refines w extent a b := by
  refine ⟨fits, shape.trans scalar.symm, free, simpler, fun env ρ idx entry defined => ?_⟩
  obtain rfl : idx = [] := length_eq_zero_iff.1 (by rw [entry, scalar, length_nil])
  exact same env ρ defined

end Refines

/-- A scalar that has the value of another one also where that is not defined. -/
structure Replaces (w : Index → Prop) (extent : Index → Extent) (e r : Expr K) : Prop extends Refines w extent e r where
  value (env : Environment K) (ρ : Valuation) : r.value env ρ [] = e.value env ρ []

variable {extent : Index → Extent} {e : Expr K}

omit [Exact K] in
theorem Replaces.refl {w : Index → Prop} (fits : WellFormed extent e) : Replaces w extent e e := ⟨.refl fits, fun _ _ => rfl⟩

omit [Field K] [Exact K] in
theorem wellFormed_node (fits : NodeFits extent e)
    (children : ∀ c ∈ e.children, WellFormed extent c) (none : e.runtimeSlots = []) : WellFormed extent e := .node fits fun c hc => by
  rw [parts, none, append_nil] at hc
  exact children c hc

omit [Field K] [Exact K] in
theorem wellFormed_leaf (fits : NodeFits extent e) (none : e.parts = []) : WellFormed extent e := .node fits fun c hc => by
  rw [none] at hc
  cases hc

end Expr

namespace Build

variable {w : Index → Prop} {extent : Index → Extent}

/-! ## Constants -/

/-- A table of zeros has zero entries. -/
theorem entry_of_isZero {t : Tensor K} (h : t.isZero = true) (idx : List Int) : t.entry idx = 0 := by
  rw [Tensor.entry]
  split
  · rename_i p _
    simp only [Tensor.isZero, Array.all_eq_true, Exact.isZero_iff] at h
    rw [Tensor.get, Array.getD_eq_getD_getElem?]
    cases found : t.entries[position t.shape p]? with
    | none => exact Exact.zero_eq
    | some x =>
      obtain ⟨inside, rfl⟩ := Array.getElem?_eq_some_iff.1 found
      exact h _ inside
  · exact Exact.zero_eq

theorem ensures_literal (t : Tensor K) (stamp : UInt64) :
    Ensures extent (literal t) (Refines w extent (.literal t stamp)) := by
  have plain : t.hasNaN = false := by
    simp [Tensor.hasNaN, Exact.isNaN_eq]
  unfold literal
  refine ensures_ite (fun zero => ensures_pure ?_) fun _ => ?_
  · refine ⟨wellFormed_leaf trivial rfl, rfl, by simp [freeIndices], .leaf rfl _, fun env ρ idx _ _ => ?_⟩
    exact ⟨by simp [Defined], by rw [value_zero, value_literal, entry_of_isZero zero]⟩
  · rw [plain]
    refine ensures_pure ⟨wellFormed_leaf trivial rfl, rfl, by simp [freeIndices], .leaf rfl _, fun env ρ idx _ _ => ?_⟩
    exact ⟨by simp [Defined], by rw [value_literal, value_literal]⟩

omit [Field K] [Exact K] in
theorem entry_scalar (x : K) : (Tensor.scalar x).entry [] = x := rfl

variable {e : Expr K}

/-- A number stands for a scalar that has it as its value. -/
theorem ensures_number {x : K} (scalar : e.shape = [])
    (same : ∀ (env : Environment K) (ρ : Valuation), Defined env e ρ [] → e.value env ρ [] = x) :
    Ensures extent (number x) (Refines w extent e) := by
  refine (ensures_literal (w := w) (Tensor.scalar x) 0).mono fun r hr => ?_
  refine .ofScalar scalar hr.fits hr.shape (List.Subset.trans hr.free (by simp [freeIndices]))
    (hr.simpler.trans (.leaf rfl e)) fun env ρ defined => ?_
  obtain ⟨here, val⟩ := (hr.carries env ρ).scalar rfl (by simp [Defined])
  exact ⟨here, by rw [val, value_literal, entry_scalar, same env ρ defined]⟩

/-- A number that is computed stands for a scalar that has it as its value everywhere. -/
theorem ensures_result {x : K} (scalar : e.shape = []) (same : ∀ (env : Environment K) (ρ : Valuation), e.value env ρ [] = x) :
    Ensures extent (number x) (Replaces w extent e) := by
  refine ((ensures_number (w := w) scalar fun env ρ _ => same env ρ).both (ensures_literal (w := w) (Tensor.scalar x) 0)).mono fun r hr => ?_
  refine ⟨hr.1, fun env ρ => ?_⟩
  rw [((hr.2.carries env ρ).scalar rfl (by simp [Defined])).2, value_literal, entry_scalar, same]

theorem value_one (env : Environment K) (ρ : Valuation) : (one : Expr K).value env ρ [] = 1 := by
  rw [one, value_literal, entry_scalar, Exact.one_eq]

/-- The number that a scalar constant holds is its value. -/
theorem ensures_value (scalar : e.shape = []) :
    Ensures extent (Build.value e) fun x => ∀ (env : Environment K) (ρ : Valuation), e.value env ρ [] = x := by
  cases e with
  | zero shape =>
    refine ensures_require.bind fun _ _ => ensures_pure fun env ρ => ?_
    rw [value_zero, Exact.zero_eq]
  | literal t stamp =>
    refine ensures_ite (fun single => ensures_pure fun env ρ => ?_) fun _ => ensures_throw
    obtain ⟨shape, entries⟩ := t
    obtain rfl : shape = [] := map_eq_nil_iff.1 scalar
    rw [value_literal]
    rfl
  | _ => exact ensures_throw

/-! ## Operators -/

section Operators

variable {a b : Expr K}

omit [Scalar K] [Field K] [Exact K] in
theorem ensures_requireScalar {e : Expr K} : Ensures extent (requireScalar e) fun _ => e.shape = [] :=
  ensures_require.mono fun _ h => isEmpty_iff.1 h

variable {op : BinaryOp} {c : Expr K}

section

omit [Exact K]

omit [Field K] in
theorem wellFormed_binary (ha : WellFormed extent a) (hb : WellFormed extent b) (sa : a.shape = [])
    (sb : b.shape = []) : WellFormed extent (.binary op a b) := by
  refine wellFormed_node ⟨sa, sb⟩ ?_ rfl
  simpa [children] using ⟨ha, hb⟩

/-- One operand stands for the operation if it has its value. -/
theorem replaces_operand (mem : c = a ∨ c = b) (fits : WellFormed extent c) (shape : c.shape = [])
    (same : ∀ (env : Environment K) (ρ : Valuation), c.value env ρ [] = op.apply (a.value env ρ []) (b.value env ρ [])) :
    Replaces w extent (.binary op a b) c := by
  have value : ∀ (env : Environment K) (ρ : Valuation), c.value env ρ [] = Expr.value env (.binary op a b) ρ [] := fun env ρ =>
    (same env ρ).trans (value_binary env ρ [] op a b).symm
  refine ⟨.ofScalar rfl fits shape (fun i hi => mem_freeIndices_binary.2 ?_) (.child ?_) fun env ρ defined => ⟨?_, value env ρ⟩, value⟩
  · rcases mem with rfl | rfl
    · exact .inl hi
    · exact .inr hi
  · simpa [children] using mem
  · obtain ⟨left, right, -⟩ := defined_binary.1 defined
    rcases mem with rfl | rfl
    · exact left
    · exact right

/-- A constant stands for the operation where it is its value. -/
theorem refines_constant (fits : WellFormed extent c) (shape : c.shape = []) (closed : c.freeIndices = [])
    (leaf : c.children = []) (same : ∀ (env : Environment K) (ρ : Valuation), Defined env (.binary op a b) ρ [] →
      Defined env c ρ [] ∧ c.value env ρ [] = op.apply (a.value env ρ []) (b.value env ρ [])) :
    Refines w extent (.binary op a b) c := by
  refine .ofScalar rfl fits shape (by simp [closed]) (.leaf leaf _) fun env ρ defined => ?_
  rw [value_binary]
  exact same env ρ defined

theorem refines_zero (same : ∀ (env : Environment K) (ρ : Valuation), Defined env (.binary op a b) ρ [] →
    op.apply (a.value env ρ []) (b.value env ρ []) = 0) : Refines w extent (.binary op a b) zero :=
  refines_constant (wellFormed_leaf trivial rfl) rfl (by simp [zero, freeIndices]) rfl fun env ρ defined =>
    ⟨by simp [zero, Defined], by rw [zero, value_zero, same env ρ defined]⟩

end

/-- Constant operands are computed with. -/
theorem ensures_fold {f : K → K → Build (Expr K)} {Q : Expr K → Prop} (sa : a.shape = []) (sb : b.shape = [])
    (fold : ∀ x y, (∀ (env : Environment K) (ρ : Valuation), a.value env ρ [] = x ∧ b.value env ρ [] = y) →
      Ensures extent (f x y) Q) : Ensures extent (do f (← Build.value a) (← Build.value b)) Q :=
  (ensures_value sa).bind fun x hx => (ensures_value sb).bind fun y hy => fold x y fun env ρ => ⟨hx env ρ, hy env ρ⟩

theorem ensures_sum (ha : WellFormed extent a) (hb : WellFormed extent b) :
    Ensures extent (sum a b) (Replaces w extent (.binary .sum a b)) := by
  unfold sum
  refine ensures_requireScalar.bind fun _ sa => ensures_requireScalar.bind fun _ sb => ?_
  refine ensures_ite (fun zero => ensures_pure (replaces_operand (.inr rfl) hb sb fun env ρ => ?_)) fun _ => ?_
  · obtain ⟨shape, rfl⟩ := isZero_iff.1 zero
    rw [value_zero, BinaryOp.apply, zero_add]
  refine ensures_ite (fun zero => ensures_pure (replaces_operand (.inl rfl) ha sa fun env ρ => ?_)) fun _ => ?_
  · obtain ⟨shape, rfl⟩ := isZero_iff.1 zero
    rw [value_zero, BinaryOp.apply, add_zero]
  refine ensures_ite (fun _ => ?_) fun _ => ensures_pure (.refl (wellFormed_binary ha hb sa sb))
  refine ensures_fold sa sb fun x y val => ensures_result rfl fun env ρ => ?_
  rw [value_binary, (val env ρ).1, (val env ρ).2, Exact.add_eq, BinaryOp.apply]

theorem ensures_product (ha : WellFormed extent a) (hb : WellFormed extent b) :
    Ensures extent (product a b) (Replaces w extent (.binary .product a b)) := by
  unfold product
  refine ensures_requireScalar.bind fun _ sa => ensures_requireScalar.bind fun _ sb => ?_
  refine ensures_ite (fun zero => ensures_pure ?_) fun _ => ?_
  · have none : ∀ (env : Environment K) (ρ : Valuation), a.value env ρ [] * b.value env ρ [] = 0 := fun env ρ => by
      rcases Bool.or_eq_true_iff.1 zero with zero | zero
      · obtain ⟨shape, rfl⟩ := isZero_iff.1 zero
        rw [value_zero, zero_mul]
      · obtain ⟨shape, rfl⟩ := isZero_iff.1 zero
        rw [value_zero, mul_zero]
    exact ⟨refines_zero fun env ρ _ => none env ρ, fun env ρ => by rw [value_binary, BinaryOp.apply, none, Build.zero, value_zero]⟩
  refine ensures_ite (fun isOne => ensures_pure (replaces_operand (.inr rfl) hb sb fun env ρ => ?_)) fun _ => ?_
  · rw [eq_of_beq isOne, value_one, BinaryOp.apply, one_mul]
  refine ensures_ite (fun isOne => ensures_pure (replaces_operand (.inl rfl) ha sa fun env ρ => ?_)) fun _ => ?_
  · rw [eq_of_beq isOne, value_one, BinaryOp.apply, mul_one]
  refine ensures_ite (fun _ => ?_) fun _ => ensures_pure (.refl (wellFormed_binary ha hb sa sb))
  refine ensures_fold sa sb fun x y val => ensures_result rfl fun env ρ => ?_
  rw [value_binary, (val env ρ).1, (val env ρ).2, Exact.mul_eq, BinaryOp.apply]

theorem ensures_quotient (ha : WellFormed extent a) (hb : WellFormed extent b) :
    Ensures extent (quotient a b) (Refines w extent (.binary .quotient a b)) := by
  unfold quotient
  refine ensures_requireScalar.bind fun _ sa => ensures_requireScalar.bind fun _ sb => ?_
  refine ensures_ite (fun _ => ensures_throw) fun _ => ?_
  refine ensures_ite (fun zero => ensures_pure (refines_zero fun env ρ _ => ?_)) fun _ => ?_
  · obtain ⟨shape, rfl⟩ := isZero_iff.1 zero
    rw [value_zero, BinaryOp.apply, zero_div]
  refine ensures_ite (fun isOne => ensures_pure (replaces_operand (.inl rfl) ha sa fun env ρ => ?_).toRefines) fun _ => ?_
  · rw [eq_of_beq isOne, value_one, BinaryOp.apply, div_one]
  refine ensures_ite (fun _ => ?_) fun _ => ensures_pure (.refl (wellFormed_binary ha hb sa sb))
  refine ensures_fold sa sb fun x y val => ensures_number rfl fun env ρ _ => ?_
  rw [value_binary, (val env ρ).1, (val env ρ).2, Exact.div_eq, BinaryOp.apply]

theorem ensures_power (ha : WellFormed extent a) (hb : WellFormed extent b) :
    Ensures extent (power a b) (Refines w extent (.binary .power a b)) := by
  unfold power
  refine ensures_requireScalar.bind fun _ sa => ensures_requireScalar.bind fun _ sb => ?_
  refine ensures_ite (fun zero => ensures_ite (fun _ => ensures_throw) fun _ => ?_) fun _ => ?_
  · refine ensures_pure (refines_zero fun env ρ defined => ?_)
    obtain ⟨shape, rfl⟩ := isZero_iff.1 zero
    have nonzero := (defined_binary.1 defined).2.2 rfl
    rw [value_zero, BinaryOp.apply]
    exact Exact.zero_power fun h => nonzero ⟨value_zero .., h⟩
  refine ensures_ite (fun zero => ensures_pure ?_) fun _ => ?_
  · refine refines_constant (wellFormed_leaf trivial rfl) rfl (by simp [one, freeIndices]) rfl fun env ρ defined => ?_
    obtain ⟨shape, rfl⟩ := isZero_iff.1 zero
    have nonzero := (defined_binary.1 defined).2.2 rfl
    refine ⟨by simp [one, Defined], ?_⟩
    rw [value_one, value_zero, BinaryOp.apply, Exact.power_zero fun h => nonzero ⟨h, value_zero ..⟩]
  refine ensures_ite (fun _ => ?_) fun _ => ensures_pure (.refl (wellFormed_binary ha hb sa sb))
  refine ensures_fold sa sb fun x y val => ?_
  cases folded : Scalar.foldPower x y with
  | value z =>
    refine ensures_number rfl fun env ρ _ => ?_
    rw [value_binary, (val env ρ).1, (val env ρ).2, Exact.foldPower_eq folded, BinaryOp.apply]
  | overflow => exact ensures_throw
  | notReal => exact ensures_throw

omit [Exact K] in
theorem ensures_plainBinary (ha : WellFormed extent a) (hb : WellFormed extent b) :
    Ensures extent (plainBinary op a b) (Refines w extent (.binary op a b)) :=
  ensures_requireScalar.bind fun _ sa => ensures_requireScalar.bind fun _ sb =>
    ensures_pure (.refl (wellFormed_binary ha hb sa sb))

theorem ensures_binary (ha : WellFormed extent a) (hb : WellFormed extent b) :
    Ensures extent (binary op a b) (Refines w extent (.binary op a b)) := by
  cases op with
  | sum => exact (ensures_sum ha hb).mono fun _ => Replaces.toRefines
  | product => exact (ensures_product ha hb).mono fun _ => Replaces.toRefines
  | quotient => exact ensures_quotient ha hb
  | power => exact ensures_power ha hb
  | _ => exact ensures_plainBinary ha hb

omit [Exact K] in
theorem ensures_negation (ha : WellFormed extent a) : Ensures extent (negation a) (Refines w extent (.negation a)) := by
  refine ensures_requireScalar.bind fun _ sa => ensures_pure (.refl (wellFormed_node sa ?_ rfl))
  simpa [children] using ha

omit [Exact K] in
theorem ensures_call {name : String} {args : List (Expr K)} (h : ∀ a ∈ args, WellFormed extent a) :
    Ensures extent (call name args) (Refines w extent (.call name args)) := by
  refine ensures_require.bind fun _ scalars => ensures_pure (.refl (wellFormed_node ?_ h rfl))
  simpa [NodeFits, List.all_eq_true, List.isEmpty_iff] using scalars

theorem ensures_conditional {y n : Expr K} (hc : WellFormed extent c) (hy : WellFormed extent y) (hn : WellFormed extent n) :
    Ensures extent (conditional c y n) (Refines w extent (.conditional c y n)) := by
  refine ensures_requireScalar.bind fun _ sc => ensures_require.bind fun _ same => ?_
  refine ensures_ite (fun equal => ensures_pure ?_) fun _ => 
    ensures_pure (.refl (wellFormed_node ⟨sc, eq_of_beq same⟩ ?_ rfl))
  · obtain rfl := eq_of_beq equal
    refine ⟨hy, rfl, fun i hi => mem_freeIndices_conditional.2 (.inr (.inl hi)), .child (by simp [children]),
      fun env ρ idx _ defined => ?_⟩
    exact ⟨(defined_conditional.1 defined).2.1, by rw [value_conditional, ite_self]⟩
  · simpa [children] using ⟨hc, hy, hn⟩

end Operators

/-! ## Indexing -/

section Indexing

variable {t : Expr K} {slots : List (Slot (Expr K))}

omit [Field K] [Exact K] in
/-- Slots that fit the dimensions of a tensor leave the extents of their indices as they are. -/
theorem ensures_setExtents {shape : Shape} (fits : Forall₂ (SlotFits extent) slots shape) :
    Ensures extent (setExtents slots shape) fun _ => True := by
  induction fits with
  | nil => exact ensures_pure trivial
  | @cons slot n slots shape fit _ ih =>
    refine Ensures.bind (Q := fun _ => True) ?_ fun _ _ => ih
    cases slot with
    | free i => exact ensures_setExtent fit
    | fixed n => exact ensures_pure trivial
    | runtime r => exact ensures_pure trivial

omit [Scalar K] [Field K] [Exact K] in
theorem eq_map_fixed {fixed : List Int} (h : slots.mapM Slot.fixed? = some fixed) : slots = fixed.map .fixed := by
  induction slots generalizing fixed with
  | nil =>
    cases h
    rfl
  | cons s slots ih =>
    rw [mapM_cons] at h
    obtain ⟨n, hn, h⟩ := Option.bind_eq_some_iff.1 h
    obtain ⟨ns, hns, h⟩ := Option.bind_eq_some_iff.1 h
    cases h
    rw [ih hns]
    cases s <;> cases hn
    rfl

/-- Slots that fit a tensor. -/
structure SlotsFit (extent : Index → Extent) (slots : List (Slot (Expr K))) (shape : Shape) : Prop where
  dims : Forall₂ (SlotFits extent) slots shape
  runtime {r : Expr K} : .runtime r ∈ slots → WellFormed extent r

omit [Field K] [Exact K] in
theorem wellFormed_indexed (ht : WellFormed extent t) (fits : SlotsFit extent slots t.shape) (some : slots ≠ []) :
    WellFormed extent (.indexed t slots) := by
  refine .node ⟨some, fits.dims⟩ fun c hc => ?_
  rcases mem_append.1 hc with hc | hc
  · rwa [mem_singleton.1 hc]
  · exact fits.runtime (mem_runtimeSlots_indexed.1 hc)

theorem ensures_entry (ht : WellFormed extent t) (fits : SlotsFit extent slots t.shape) :
    Ensures extent (entry t slots) (Refines w extent (.indexed t slots)) := by
  unfold entry
  refine ensures_ite (fun none => ensures_pure ?_) fun nonempty => ?_
  · obtain rfl := isEmpty_iff.1 none
    have scalar : t.shape = [] := forall₂_nil_left_iff.1 fits.dims
    refine .ofScalar rfl ht scalar (fun i hi => Expr.mem_freeIndices_indexed.2 (.inr hi)) (.child mem_cons_self)
      fun env ρ defined => ?_
    exact ⟨Expr.defined_indexed.1 defined, by rw [Expr.value_indexed]; rfl⟩
  have raw : Refines w extent (.indexed t slots) (.indexed t slots) :=
    .refl (wellFormed_indexed ht fits (by simpa using nonempty))
  refine ensures_ite (fun zero => ensures_pure ?_) fun _ => ?_
  · obtain ⟨shape, rfl⟩ := Expr.isZero_iff.1 zero
    refine .ofScalar rfl (Expr.wellFormed_leaf trivial rfl) rfl (by simp [Build.zero, Expr.freeIndices]) (.leaf rfl _)
      fun env ρ _ => ?_
    exact ⟨by simp [Build.zero, Expr.Defined], by rw [Build.zero, Expr.value_zero, Expr.value_indexed, Expr.value_zero]⟩
  cases found : slots.mapM Slot.fixed? with
  | none => exact ensures_pure raw
  | some fixed =>
    obtain rfl := eq_map_fixed found
    have positions : ∀ (env : Environment K) (ρ : Valuation), (fixed.map Slot.fixed).map (Expr.position env ρ) = fixed := by
      intro env ρ
      rw [map_map]
      exact map_id fixed
    cases t with
    | literal t stamp =>
      cases at_ : Tensor.resolveAll t.shape fixed with
      | none => simpa only [at_] using ensures_throw
      | some idx =>
        simp only [at_]
        refine ensures_number rfl fun env ρ _ => ?_
        rw [Expr.value_indexed, positions, Expr.value_literal, Tensor.entry, at_]
    | identity n =>
      cases at_ : Tensor.resolveAll [n, n] fixed with
      | none => simpa only [at_] using ensures_throw
      | some idx =>
        simp only [at_]
        refine ensures_number rfl fun env ρ _ => ?_
        rw [Expr.value_indexed, positions, Expr.value_identity, Tensor.entry, Tensor.eye, Tensor.ofFn, at_]
    | listTensor shape entries =>
      cases at_ : Tensor.resolveAll shape fixed with
      | none => simpa only [at_] using ensures_throw
      | some idx =>
        cases entry : entries[position shape idx]? with
        | none => simpa only [at_, entry] using ensures_throw
        | some e =>
          simp only [at_, entry]
          have mem : e ∈ entries := mem_of_getElem? entry
          have chosen : Expr.entryAt shape entries fixed = some e := by rw [Expr.entryAt, at_, Option.bind_some, entry]
          refine ensures_pure (.ofScalar rfl (ht.child mem) (ht.here.2 e mem) (fun i hi => ?_)
            (.trans (.child (e := .listTensor shape entries) mem) (.child mem_cons_self)) fun env ρ defined => ?_)
          · exact Expr.mem_freeIndices_indexed.2 (.inr (Expr.mem_freeIndices_listTensor.2 ⟨e, mem, hi⟩))
          · rw [Expr.defined_indexed, positions, Expr.defined_listTensor] at defined
            rw [Expr.value_indexed, positions, Expr.value_listTensor, chosen]
            exact ⟨defined e chosen, rfl⟩
    | _ => exact ensures_pure raw

theorem ensures_indexed (ht : WellFormed extent t) (fits : SlotsFit extent slots t.shape) :
    Ensures extent (indexed t slots) (Refines w extent (.indexed t slots)) :=
  ensures_require.bind fun _ _ => (ensures_setExtents fits.dims).bind fun _ _ => ensures_entry ht fits

section

omit [Exact K]

/-- What is made of an access is an access to the same tensor, dimension by dimension at the positions of the terms. -/
theorem ensures_access_dims (name : String) (shape : Shape) (dims : List (Int × List (Slot (Expr K) × Stride))) :
    Ensures extent (access (.var name shape) dims) fun r => r = .access name shape (dims.map gathered) ∧
      ∀ (env : Environment K) (ρ : Valuation), (dims.map gathered).map (·.at ρ) = dims.map (termsAt env ρ) := by
  refine ensures_iff_meets.2 fun t _ => .of_same fun s _ => ((meets_access name shape dims).weaken fun _ _ => trivial).mono fun r hr => ?_
  obtain ⟨placed, -, same⟩ := hr
  refine ⟨same, fun env ρ => ?_⟩
  rw [map_map]
  exact map_congr_left fun d hd => at_gathered (placed d hd) env ρ

omit [Field K] in
theorem wellFormed_access (name : String) (shape : Shape) (dims : List DimAccess) :
    WellFormed extent (.access name shape dims : Expr K) := by
  refine wellFormed_node trivial (fun c hc => ?_) rfl
  obtain rfl := mem_singleton.1 hc
  exact wellFormed_leaf trivial rfl

/-- An access addresses the entry at the positions of its terms. -/
theorem ensures_access (name : String) (shape : Shape) (dims : List (Int × List (Slot (Expr K) × Stride))) :
    Ensures extent (access (.var name shape) dims) fun r => WellFormed extent r ∧ r.shape = [] ∧ (∀ e, Simpler w r e) ∧
      (∀ i ∈ r.freeIndices, ∃ d ∈ dims, .free i ∈ d.2.map Prod.fst) ∧
      ∀ (env : Environment K) (ρ : Valuation),
        Defined env r ρ [] ∧ r.value env ρ [] = env.tensor name shape (dims.map (termsAt env ρ)) := by
  refine (ensures_access_dims name shape dims).mono fun r hr => ?_
  obtain ⟨rfl, same⟩ := hr
  refine ⟨wellFormed_access name shape _, rfl, fun e => ?_, fun i hi => ?_, fun env ρ => ⟨by simp [Defined], ?_⟩⟩
  · refine .gather rfl (by rintro ⟨⟩) (fun c hc => ?_) (by rintro p ⟨⟩)
    obtain rfl := mem_singleton.1 hc
    exact .leaf rfl e
  · obtain ⟨g, mem, t, ht, rfl⟩ := mem_freeIndices_access.1 hi
    obtain ⟨d, hd, rfl⟩ := mem_map.1 mem
    exact ⟨d, hd, mem_map_of_mem (mem_terms_gathered.1 ht)⟩
  · rw [value_access, same env ρ]

end

end Indexing

end Build

end FormCompiler
