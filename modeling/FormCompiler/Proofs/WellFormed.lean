import FormCompiler.Proofs.Valuation

/-!
# Well-formed expressions

What the constructors see to: operands of operators are scalars, an entry is taken with one slot for each dimension,
binders are free in the body and have the extents of their indices, and what becomes known at run time depends on no
index. The value of such an expression depends on its free indices alone.
-/

namespace FormCompiler

open List

/-! ## Sets of indices -/

namespace Indices

/-- Ascending order of number, without repetition. -/
abbrev Sorted (is : List Index) : Prop := is.Pairwise fun i j => i.number < j.number

variable {is js : List Index} {i : Index}

theorem Sorted.nodup (h : Sorted is) : is.Nodup :=
  h.imp fun {i j} hlt heq => by
    subst heq
    omega

theorem Sorted.insert (h : Sorted js) (i : Index) : Sorted (insert i js) := by
  induction js with
  | nil => simp [Indices.insert]
  | cons j js ih =>
    obtain ⟨head, tail⟩ := pairwise_cons.1 h
    unfold Indices.insert
    split
    · rename_i lt
      refine pairwise_cons.2 ⟨fun k hk => ?_, h⟩
      rcases mem_cons.1 hk with rfl | hk
      · exact lt
      · exact Nat.lt_trans lt (head k hk)
    · split
      · exact h
      · rename_i nlt ne
        refine pairwise_cons.2 ⟨fun k hk => ?_, ih tail⟩
        rcases mem_insert.1 hk with rfl | hk
        · omega
        · exact head k hk

theorem Sorted.union (h : Sorted js) (is : List Index) : Sorted (union is js) := by
  unfold Indices.union
  induction is generalizing js with
  | nil => exact h
  | cons i is ih => exact ih (h.insert i)

theorem mem_ofList : i ∈ ofList is ↔ i ∈ is := by
  simp [ofList, mem_union]

theorem mem_diff : i ∈ diff is js ↔ i ∈ is ∧ i ∉ js := by
  simp [diff]

theorem subset_iff : subset is js = true ↔ is ⊆ js := by
  simp [subset, subset_def]

theorem mem_foldr_union {α : Type} {f : α → List Index} {as : List α} :
    i ∈ as.foldr (fun a acc => union (f a) acc) [] ↔ ∃ a ∈ as, i ∈ f a := by
  induction as with
  | nil => simp
  | cons a as ih => simp [mem_union, ih]

/-- Equal sets are equal lists. -/
theorem Sorted.eq_of_mem_iff (hi : Sorted is) (hj : Sorted js) (h : ∀ k, k ∈ is ↔ k ∈ js) : is = js :=
  ((perm_ext_iff_of_nodup hi.nodup hj.nodup).2 h).eq_of_pairwise (fun a b _ _ hab hba => by omega) hi hj

end Indices

namespace Expr

variable {K : Type}

/-! ## Free indices -/

-- Here the equations are made once, and not in each of the proofs that follow.
attribute [local simp] freeIndices in
theorem sorted_freeIndices (e : Expr K) : Indices.Sorted e.freeIndices := by
  have fold : ∀ es : List (Expr K),
      Indices.Sorted (es.foldr (fun a acc => Indices.union (freeIndices K a) acc) []) := by
    intro es
    induction es with
    | nil => simp
    | cons e es ih => exact ih.union _
  have empty : Indices.Sorted [] := List.Pairwise.nil
  cases e with
  | binary op a b => rw [freeIndices]; exact (sorted_freeIndices b).union _
  | negation a => rw [freeIndices]; exact sorted_freeIndices a
  | call name args => rw [freeIndices]; exact fold args
  | conditional c y n => rw [freeIndices]; exact ((sorted_freeIndices n).union _).union _
  | indexed t slots => rw [freeIndices]; exact (sorted_freeIndices t).union _
  | access name shape dims => rw [freeIndices]; exact empty.union _
  | componentTensor body binders => rw [freeIndices]; exact (sorted_freeIndices body).filter _
  | indexSum body binders => rw [freeIndices]; exact (sorted_freeIndices body).filter _
  | listTensor shape entries => rw [freeIndices]; exact fold entries
  | concatenate parts => rw [freeIndices]; exact fold parts
  | delta i j => rw [freeIndices]; exact empty.union _
  | _ => rw [freeIndices]; exact empty
termination_by sizeOf e

theorem nodup_freeIndices (e : Expr K) : e.freeIndices.Nodup := (sorted_freeIndices e).nodup

section FreeIndices

variable {i : Index}

theorem mem_freeIndices_binary {op : BinaryOp} {a b : Expr K} :
    i ∈ (binary op a b).freeIndices ↔ i ∈ a.freeIndices ∨ i ∈ b.freeIndices := by
  rw [freeIndices, Indices.mem_union]

theorem freeIndices_negation (a : Expr K) : (negation a).freeIndices = a.freeIndices := by
  rw [freeIndices]

variable {name : String} {body : Expr K} {bs : List Binder}

theorem mem_freeIndices_call {args : List (Expr K)} : i ∈ (call name args).freeIndices ↔ ∃ a ∈ args, i ∈ a.freeIndices := by
  rw [freeIndices, Indices.mem_foldr_union]

theorem mem_freeIndices_conditional {c y n : Expr K} :
    i ∈ (conditional c y n).freeIndices ↔ i ∈ c.freeIndices ∨ i ∈ y.freeIndices ∨ i ∈ n.freeIndices := by
  rw [freeIndices, Indices.mem_union, Indices.mem_union]

theorem mem_freeIndices_indexed {t : Expr K} {slots : List (Slot (Expr K))} :
    i ∈ (indexed t slots).freeIndices ↔ .free i ∈ slots ∨ i ∈ t.freeIndices := by
  rw [freeIndices, Indices.mem_union]
  refine or_congr_left ⟨fun h => ?_, fun h => mem_filterMap.2 ⟨_, h, rfl⟩⟩
  obtain ⟨s, hs, hi⟩ := mem_filterMap.1 h
  cases s with
  | free j =>
    cases hi
    exact hs
  | _ => cases hi

theorem mem_freeIndices_access {shape : Shape} {dims : List DimAccess} :
    i ∈ (access name shape dims : Expr K).freeIndices ↔ ∃ d ∈ dims, ∃ t ∈ d.terms, t.1 = i := by
  rw [freeIndices, Indices.mem_ofList]
  simp

theorem mem_freeIndices_componentTensor :
    i ∈ (componentTensor body bs).freeIndices ↔ i ∈ body.freeIndices ∧ i ∉ bs.map Prod.fst := by
  rw [freeIndices, Indices.mem_diff]

theorem mem_freeIndices_indexSum : i ∈ (indexSum body bs).freeIndices ↔ i ∈ body.freeIndices ∧ i ∉ bs.map Prod.fst := by
  rw [freeIndices, Indices.mem_diff]

theorem mem_freeIndices_listTensor {shape : List Nat} {entries : List (Expr K)} :
    i ∈ (listTensor shape entries).freeIndices ↔ ∃ e ∈ entries, i ∈ e.freeIndices := by
  rw [freeIndices, Indices.mem_foldr_union]

theorem mem_freeIndices_concatenate {ps : List (Expr K)} :
    i ∈ (concatenate ps).freeIndices ↔ ∃ p ∈ ps, i ∈ p.freeIndices := by
  rw [freeIndices, Indices.mem_foldr_union]

theorem mem_freeIndices_delta {s t : Slot (Expr K)} :
    i ∈ (delta s t).freeIndices ↔ s = .free i ∨ t = .free i := by
  rw [freeIndices, Indices.mem_ofList]
  cases s <;> cases t <;> simp [Slot.index?, eq_comm]

/-- The binders of a node. -/
def ownBinders : Expr K → List Binder
  | .componentTensor _ bs | .indexSum _ bs => bs
  | _ => []

/-- The indices that the node itself uses. -/
def ownIndices : Expr K → List Index
  | .indexed _ slots => slots.filterMap Slot.index?
  | .access _ _ dims => dims.flatMap fun d => d.terms.map Prod.fst
  | .delta i j => [i, j].filterMap Slot.index?
  | _ => []

/-- The free indices of a node are those that it uses and those of its children that it does not bind. -/
theorem mem_freeIndices_iff {e : Expr K} : i ∈ e.freeIndices ↔
    i ∈ e.ownIndices ∨ (∃ c ∈ e.children, i ∈ c.freeIndices) ∧ i ∉ e.ownBinders.map Prod.fst := by
  cases e with
  | binary op a b => simp [mem_freeIndices_binary, ownIndices, children, ownBinders]
  | negation a => simp [freeIndices_negation, ownIndices, children, ownBinders]
  | call name args => simp [mem_freeIndices_call, ownIndices, children, ownBinders]
  | conditional c y n => simp [mem_freeIndices_conditional, ownIndices, children, ownBinders]
  | indexed t slots =>
    rw [freeIndices, Indices.mem_union]
    simp [ownIndices, children, ownBinders]
  | access name shape dims =>
    rw [freeIndices, Indices.mem_ofList]
    simp [ownIndices, children, ownBinders, freeIndices]
  | componentTensor body bs => simp [mem_freeIndices_componentTensor, ownIndices, children, ownBinders]
  | indexSum body bs => simp [mem_freeIndices_indexSum, ownIndices, children, ownBinders]
  | listTensor shape entries => simp [mem_freeIndices_listTensor, ownIndices, children, ownBinders]
  | concatenate ps => simp [mem_freeIndices_concatenate, ownIndices, children, ownBinders]
  | delta s t =>
    rw [freeIndices, Indices.mem_ofList]
    simp [ownIndices, children, ownBinders]
  | _ => simp [freeIndices, ownIndices, children]

end FreeIndices

variable {e : Expr K} {extent : Index → Extent}

theorem isZero_iff : e.isZero = true ↔ ∃ shape, e = .zero shape := by
  cases e <;> simp [isZero]

/-! ## Properties of all nodes -/

/-- A property of an expression and of all its parts. -/
inductive Everywhere (P : Expr K → Prop) : Expr K → Prop where
  | node {e : Expr K} : P e → (∀ c ∈ e.parts, Everywhere P c) → Everywhere P e

namespace Everywhere

variable {P Q : Expr K → Prop} {e c : Expr K}

theorem here (h : Everywhere P e) : P e := by
  cases h with
  | node here _ => exact here

theorem part (h : Everywhere P e) (hc : c ∈ e.parts) : Everywhere P c := by
  cases h with
  | node _ parts => exact parts c hc

theorem child (h : Everywhere P e) (hc : c ∈ e.children) : Everywhere P c :=
  h.part (mem_append_left _ hc)

theorem runtime (h : Everywhere P e) (hc : c ∈ e.runtimeSlots) : Everywhere P c :=
  h.part (mem_append_right _ hc)

theorem mono (h : Everywhere P e) (imp : ∀ e, P e → Q e) : Everywhere Q e := by
  induction h with
  | node here _ ih => exact .node (imp _ here) ih

end Everywhere

variable {r : Expr K}

theorem mem_runtimeSlots_indexed {t : Expr K} {slots : List (Slot (Expr K))} :
    r ∈ (indexed t slots).runtimeSlots ↔ .runtime r ∈ slots := by
  simp only [runtimeSlots, mem_filterMap]
  constructor
  · rintro ⟨s, hs, hr⟩
    cases s <;> simp_all [Slot.expr?]
  · exact fun h => ⟨_, h, rfl⟩

theorem mem_runtimeSlots_delta {i j : Slot (Expr K)} : r ∈ (delta i j).runtimeSlots ↔ i = .runtime r ∨ j = .runtime r := by
  cases i <;> cases j <;> simp [runtimeSlots, Slot.expr?, eq_comm]

/-- What becomes known at run time depends on no index. -/
def RuntimeClosed (e : Expr K) : Prop := ∀ r ∈ e.runtimeSlots, r.freeIndices = []

section Congruence

variable [Scalar K] [Field K] {env : Environment K} {ρ ρ' : Valuation}

open FormCompiler.Valuation (Agree)

/-- The position of a slot depends on its index alone. -/
theorem position_congr {s : Slot (Expr K)} (index : ∀ i, s = .free i → ρ i = ρ' i)
    (runtime : ∀ r, s = .runtime r → value env r ρ [] = value env r ρ' []) :
    position env ρ s = position env ρ' s := by
  cases s with
  | fixed n => rfl
  | free i => exact index i rfl
  | runtime r => exact congrArg env.position (runtime r rfl)

omit [Scalar K] [Field K] in
theorem access_congr {name : String} {shape : Shape} {dims : List DimAccess}
    (h : Agree (access name shape dims : Expr K).freeIndices ρ ρ') :
    (dims.map fun d => d.at ρ) = dims.map fun d => d.at ρ' := by
  refine map_congr_left fun d hd => ?_
  have terms : d.terms.map (fun t => ρ t.1 * t.2.value) = d.terms.map fun t => ρ' t.1 * t.2.value :=
    map_congr_left fun t ht => by rw [h t.1 (mem_freeIndices_access.2 ⟨d, hd, t, ht, rfl⟩)]
  rw [DimAccess.at, DimAccess.at, terms]

variable {e : Expr K}

omit [Scalar K] [Field K] in
/-- Below its binders, the children of a node depend on the free indices of the node. -/
theorem agree_child {c : Expr K} (hc : c ∈ e.children) (h : Agree e.freeIndices ρ ρ') (vs : List Int) :
    Agree c.freeIndices (ρ.bind e.ownBinders vs) (ρ'.bind e.ownBinders vs) :=
  Agree.bind vs fun i hi out => h i (mem_freeIndices_iff.2 (.inr ⟨⟨c, hc, hi⟩, out⟩))

/-- A value depends on the free indices alone. -/
theorem value_congr (closed : Everywhere RuntimeClosed e) (idx : List Int)
    (h : Agree e.freeIndices ρ ρ') : value env e ρ idx = value env e ρ' idx := by
  induction closed generalizing ρ ρ' idx with
  | @node e here _ ih =>
    have runtime : ∀ r ∈ e.runtimeSlots, value env r ρ [] = value env r ρ' [] := by
      intro r hr
      refine ih r (mem_append_right _ hr) [] ?_
      rw [here r hr]
      exact fun i hi => absurd hi not_mem_nil
    have child : ∀ c ∈ e.children, ∀ vs idx, value env c (ρ.bind e.ownBinders vs) idx = value env c (ρ'.bind e.ownBinders vs) idx :=
      fun c hc vs idx => ih c (mem_append_left _ hc) idx (agree_child hc h vs)
    have same : e.ownBinders = [] → ∀ c ∈ e.children, ∀ idx, value env c ρ idx = value env c ρ' idx := by
      intro none c hc idx
      have := child c hc [] idx
      rwa [none] at this
    cases e with
    | binary op a b =>
      rw [value_binary, value_binary, same rfl a (by simp [children]), same rfl b (by simp [children])]
    | negation a => rw [value_negation, value_negation, same rfl a (by simp [children])]
    | call name args =>
      rw [value_call, value_call]
      exact congrArg _ (map_congr_left fun a ha => same rfl a ha [])
    | conditional c y n =>
      rw [value_conditional, value_conditional, same rfl c (by simp [children]), same rfl y (by simp [children]),
        same rfl n (by simp [children])]
    | indexed t slots =>
      have positions : slots.map (position env ρ) = slots.map (position env ρ') := by
        refine map_congr_left fun s hs => position_congr ?_ ?_
        · rintro i rfl
          exact h i (mem_freeIndices_indexed.2 (.inl hs))
        · rintro r rfl
          exact runtime r (mem_runtimeSlots_indexed.2 hs)
      rw [value_indexed, value_indexed, positions, same rfl t (by simp [children])]
    | access name shape dims => rw [value_access, value_access, access_congr h]
    | componentTensor body bs =>
      rw [value_componentTensor, value_componentTensor]
      exact child body (by simp [children]) idx []
    | indexSum body bs =>
      obtain ⟨ps, ranging⟩ := Valuation.exists_ranging_eq bs
      rw [value_indexSum, value_indexSum, ranging, ranging, map_map, map_map]
      exact congrArg List.sum (map_congr_left fun vs _ => child body (by simp [children]) vs [])
    | listTensor shape entries =>
      rw [value_listTensor, value_listTensor]
      cases hc : entryAt shape entries idx with
      | none => rfl
      | some c => exact same rfl c (mem_of_entryAt hc) []
    | concatenate ps =>
      rw [value_concatenate, value_concatenate]
      cases hc : partAt ps idx with
      | none => rfl
      | some p => exact same rfl p.1 (mem_of_partAt hc) _
    | delta s t =>
      have first : position env ρ s = position env ρ' s :=
        position_congr (fun i hi => h i (mem_freeIndices_delta.2 (.inl hi)))
          fun r hr => runtime r (mem_runtimeSlots_delta.2 (.inl hr))
      have second : position env ρ t = position env ρ' t :=
        position_congr (fun i hi => h i (mem_freeIndices_delta.2 (.inr hi)))
          fun r hr => runtime r (mem_runtimeSlots_delta.2 (.inr hr))
      rw [value_delta, value_delta, first, second]
    | _ => simp

end Congruence

/-! ## Well-formedness -/

/-- A slot that fits a dimension: a running index has its extent, and what becomes known at run time is a number. -/
def SlotFits [Scalar K] (extent : Index → Extent) : Slot (Expr K) → Extent → Prop
  | .fixed _, _ => True
  | .free i, n => n = none ∨ extent i = n
  | .runtime r, _ => r.freeIndices = [] ∧ r.shape = []

/-- Binders of a scalar body: there are some, free in the body, of the extents of their indices. -/
structure BindersFit [Scalar K] (extent : Index → Extent) (body : Expr K) (bs : List Binder) : Prop where
  scalar : body.shape = []
  ne_nil : bs ≠ []
  free {b : Binder} : b ∈ bs → b.1 ∈ body.freeIndices
  extent {b : Binder} : b ∈ bs → extent b.1 = some b.2
  pos {b : Binder} : b ∈ bs → 0 < b.2

/-- What the constructors see to at one node, where indices have the given extents. -/
def NodeFits [Scalar K] (extent : Index → Extent) : Expr K → Prop
  | .binary _ a b => a.shape = [] ∧ b.shape = []
  | .negation a => a.shape = []
  | .call _ args => ∀ a ∈ args, a.shape = []
  | .conditional c y n => c.shape = [] ∧ y.shape = n.shape
  | .indexed t slots => slots ≠ [] ∧ Forall₂ (SlotFits extent) slots t.shape
  | .componentTensor body bs => BindersFit extent body bs
  | .indexSum body bs => BindersFit extent body bs
  | .listTensor shape entries => entries.length = count shape ∧ ∀ e ∈ entries, e.shape = []
  | .concatenate ps => ∀ p ∈ ps, (Shape.toNats? p.shape).isSome
  | .delta i j => SlotFits extent i none ∧ SlotFits extent j none
  | _ => True

/-- An expression as the constructors make it, where indices have the given extents. -/
def WellFormed [Scalar K] (extent : Index → Extent) : Expr K → Prop := Everywhere (NodeFits extent)

theorem exists_of_forall₂ {α β : Type} {R : α → β → Prop} {as : List α} {bs : List β} (h : Forall₂ R as bs) {a : α}
    (ha : a ∈ as) : ∃ b ∈ bs, R a b := by
  induction h with
  | nil => cases ha
  | cons hab _ ih =>
    rcases mem_cons.1 ha with rfl | ha
    · exact ⟨_, mem_cons_self, hab⟩
    · obtain ⟨b, hb, hr⟩ := ih ha
      exact ⟨b, mem_cons_of_mem _ hb, hr⟩

theorem NodeFits.runtimeClosed [Scalar K] (h : NodeFits extent e) : RuntimeClosed e := by
  intro r hr
  cases e with
  | indexed t slots =>
    obtain ⟨n, -, hn⟩ := exists_of_forall₂ h.2 (mem_runtimeSlots_indexed.1 hr)
    exact hn.1
  | delta i j =>
    rcases mem_runtimeSlots_delta.1 hr with rfl | rfl
    · exact h.1.1
    · exact h.2.1
  | _ => simp [runtimeSlots] at hr

theorem WellFormed.runtimeClosed [Scalar K] (h : WellFormed extent e) :
    Everywhere RuntimeClosed e := h.mono fun _ => NodeFits.runtimeClosed

end Expr

end FormCompiler
