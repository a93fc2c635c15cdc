import FormCompiler.Proofs.Likeness
import FormCompiler.Proofs.WellFormed

/-!
# Relabelling

An expression may be written with other indices, and with other numbers that are told apart like its own. All that is
read off an expression moves along: its children, its shape, its free indices as a set, and whether it is the same as
another one. Only the order in which free indices are listed does not.
-/

namespace FormCompiler

open FormCompiler.Expr List

/-- Other indices, and other numbers that are told apart like the old ones. -/
structure Relabelling (K L : Type) [Scalar K] [Scalar L] where
  index : Index → Index
  number : K → L
  index_injective : Function.Injective index
  same_number (x y : K) : Scalar.same (number x) (number y) = Scalar.same x y

namespace Relabelling

variable {K L : Type} [Scalar K] [Scalar L]

/-- Other indices and the same numbers. -/
def ofPerm (p : Equiv.Perm Index) : Relabelling K K where
  index := p
  number := id
  index_injective := p.injective
  same_number _ _ := rfl

theorem index_beq (r : Relabelling K L) (i j : Index) : (r.index i == r.index j) = (i == j) := by
  rw [Bool.eq_iff_iff, beq_iff_eq, beq_iff_eq, r.index_injective.eq_iff]

theorem mem_map_index (r : Relabelling K L) {is : List Index} {i : Index} : r.index i ∈ is.map r.index ↔ i ∈ is :=
  mem_map_of_injective r.index_injective

theorem map_index_beq (r : Relabelling K L) (is js : List Index) :
    (is.map r.index == js.map r.index) = (is == js) := by
  rw [Bool.eq_iff_iff, beq_iff_eq, beq_iff_eq, (map_injective_iff.2 r.index_injective).eq_iff]

/-- Other binders with the same extents. -/
def binder (r : Relabelling K L) (b : Binder) : Binder := (r.index b.1, b.2)

/-- An access at other indices. -/
def access (r : Relabelling K L) (d : DimAccess) : DimAccess :=
  { d with terms := d.terms.map fun t => (r.index t.1, t.2) }

theorem binder_injective (r : Relabelling K L) : Function.Injective r.binder := fun a b h => by
  simp only [binder, Prod.mk.injEq] at h
  exact Prod.ext (r.index_injective h.1) h.2

theorem access_injective (r : Relabelling K L) : Function.Injective r.access := fun a b h => by
  have term : Function.Injective fun t : Index × Stride => (r.index t.1, t.2) := fun s t h => by
    simp only [Prod.mk.injEq] at h
    exact Prod.ext (r.index_injective h.1) h.2
  cases a
  cases b
  simp only [access, DimAccess.mk.injEq] at h ⊢
  exact ⟨h.1, map_injective_iff.2 term h.2⟩

end Relabelling

/-- A table of other numbers. -/
def Tensor.relabel {K L : Type} [Scalar K] [Scalar L] (r : Relabelling K L) (t : Tensor K) : Tensor L :=
  ⟨t.shape, t.entries.map r.number⟩

namespace Expr

variable {K L : Type} [Scalar K] [Scalar L]

mutual

/-- An expression with other indices and other numbers. -/
def relabel (r : Relabelling K L) : Expr K → Expr L
  | .zero shape => .zero shape
  | .identity n => .identity n
  | .literal t stamp => .literal (t.relabel r) stamp
  | .var name shape => .var name shape
  | .failure shape kind text serial => .failure shape kind text serial
  | .binary op a b => .binary op (relabel r a) (relabel r b)
  | .negation a => .negation (relabel r a)
  | .call name args => .call name (relabelAll r args)
  | .conditional c y n => .conditional (relabel r c) (relabel r y) (relabel r n)
  | .indexed t slots => .indexed (relabel r t) (relabelSlots r slots)
  | .access name shape dims => .access name shape (dims.map r.access)
  | .componentTensor body binders => .componentTensor (relabel r body) (binders.map r.binder)
  | .indexSum body binders => .indexSum (relabel r body) (binders.map r.binder)
  | .listTensor shape entries => .listTensor shape (relabelAll r entries)
  | .concatenate parts => .concatenate (relabelAll r parts)
  | .delta i j => .delta (relabelSlot r i) (relabelSlot r j)

/-- Expressions with other indices and other numbers. -/
def relabelAll (r : Relabelling K L) : List (Expr K) → List (Expr L)
  | [] => []
  | e :: es => relabel r e :: relabelAll r es

/-- A slot with other indices and other numbers. -/
def relabelSlot (r : Relabelling K L) : Slot (Expr K) → Slot (Expr L)
  | .fixed n => .fixed n
  | .free i => .free (r.index i)
  | .runtime e => .runtime (relabel r e)

/-- Slots with other indices and other numbers. -/
def relabelSlots (r : Relabelling K L) : List (Slot (Expr K)) → List (Slot (Expr L))
  | [] => []
  | s :: ss => relabelSlot r s :: relabelSlots r ss

end

attribute [local simp] relabel

variable (r : Relabelling K L)

@[simp] theorem relabelAll_eq_map (es : List (Expr K)) : relabelAll r es = es.map (relabel r) := by
  induction es with
  | nil => rfl
  | cons e es ih => rw [relabelAll, ih, map_cons]

@[simp] theorem relabelSlots_eq_map (ss : List (Slot (Expr K))) : relabelSlots r ss = ss.map (relabelSlot r) := by
  induction ss with
  | nil => rfl
  | cons s ss ih => rw [relabelSlots, ih, map_cons]

/-! ## Parts -/

@[simp] theorem children_relabel (e : Expr K) : (e.relabel r).children = e.children.map (relabel r) := by
  cases e <;> simp [children]

theorem filterMap_expr?_relabelSlot (ss : List (Slot (Expr K))) :
    (ss.map (relabelSlot r)).filterMap Slot.expr? = (ss.filterMap Slot.expr?).map (relabel r) := by
  rw [filterMap_map, map_filterMap]
  congr 1
  funext s
  cases s <;> rfl

theorem filterMap_index?_relabelSlot (ss : List (Slot (Expr K))) :
    (ss.map (relabelSlot r)).filterMap Slot.index? = (ss.filterMap Slot.index?).map r.index := by
  rw [filterMap_map, map_filterMap]
  congr 1
  funext s
  cases s <;> rfl

theorem parts_relabel (e : Expr K) : (e.relabel r).parts = e.parts.map (relabel r) := by
  rw [parts, parts, map_append, children_relabel]
  congr 1
  cases e <;> try rfl
  case indexed t slots => rw [relabel, runtimeSlots, runtimeSlots, relabelSlots_eq_map, filterMap_expr?_relabelSlot]
  case delta i j => exact filterMap_expr?_relabelSlot r [i, j]

@[simp] theorem shape_relabel (e : Expr K) : (e.relabel r).shape = e.shape := by
  have shapes : ∀ es : List (Expr K), (∀ e ∈ es, (e.relabel r).shape = e.shape) →
      shapes (es.map (relabel r)) = shapes es := by
    intro es
    induction es with
    | nil => intro _; rfl
    | cons e es ih =>
      intro h
      rw [map_cons, shapes, shapes, h e mem_cons_self,
        ih fun e he => h e (mem_cons_of_mem _ he)]
  cases e <;> try rfl
  case conditional c y n => exact shape_relabel y
  case componentTensor body binders =>
    rw [relabel, shape, shape, map_map]
    rfl
  case concatenate parts =>
    rw [relabel, shape, shape, relabelAll_eq_map, shapes]
    intro e he
    have := sizeOf_part he
    exact shape_relabel e
termination_by sizeOf e

@[simp] theorem isZero_relabel (e : Expr K) : (e.relabel r).isZero = e.isZero := by cases e <;> rfl

theorem ownIndices_relabel (e : Expr K) : (e.relabel r).ownIndices = e.ownIndices.map r.index := by
  cases e <;> try rfl
  case indexed t slots => rw [relabel, ownIndices, ownIndices, relabelSlots_eq_map, filterMap_index?_relabelSlot]
  case access name shape dims =>
    rw [relabel, ownIndices, ownIndices, flatMap_map, map_flatMap]
    simp only [Relabelling.access, map_map]
    rfl
  case delta i j => exact filterMap_index?_relabelSlot r [i, j]

theorem indexOrder?_relabel (e : Expr K) : (e.relabel r).indexOrder? = e.indexOrder?.map (List.map r.index) := by
  cases e <;> try rfl
  case indexed t slots => exact congrArg some (ownIndices_relabel r (.indexed t slots))
  case access name shape dims => exact congrArg some (ownIndices_relabel r (.access name shape dims))

/-! ## Sameness -/

/-- A label with other indices and other numbers. -/
def Label.relabel (r : Relabelling K L) : Label K → Label L
  | .zero shape => .zero shape
  | .identity n => .identity n
  | .literal t stamp => .literal (t.relabel r) stamp
  | .var name shape => .var name shape
  | .failure shape kind text serial => .failure shape kind text serial
  | .binary op => .binary op
  | .negation => .negation
  | .call name => .call name
  | .conditional => .conditional
  | .indexed slots => .indexed (slots.map slot)
  | .access name shape dims => .access name shape (dims.map r.access)
  | .componentTensor binders => .componentTensor (binders.map r.binder)
  | .indexSum binders => .indexSum (binders.map r.binder)
  | .listTensor shape => .listTensor shape
  | .concatenate => .concatenate
  | .delta i j => .delta (slot i) (slot j)
where
  slot : Slot Unit → Slot Unit
    | .free i => .free (r.index i)
    | s => s

theorem Label.slot_injective : Function.Injective (Label.relabel.slot r) := by
  intro s t h
  cases s <;> cases t <;> simp_all [Label.relabel.slot, r.index_injective.eq_iff]

theorem label_relabel (e : Expr K) : (e.relabel r).label = e.label.relabel r := by
  have slot : ∀ s : Slot (Expr K), ((relabelSlot r s).map fun _ => ()) = Label.relabel.slot r (s.map fun _ => ()) := by
    intro s
    cases s <;> rfl
  cases e <;> try rfl
  case indexed t slots => simp [label, Label.relabel, slot]
  case delta i j => simp [label, Label.relabel, slot]

theorem Tensor.same_relabel (s t : Tensor K) : (s.relabel r).same (t.relabel r) = s.same t := by
  rw [Bool.eq_iff_iff, Tensor.same_iff, Tensor.same_iff]
  simp [Tensor.relabel, r.same_number]

theorem Label.same_relabel (l m : Label K) : (l.relabel r).same (m.relabel r) = l.same m := by
  rw [Bool.eq_iff_iff]
  cases l <;> cases m <;>
    simp only [Label.relabel, Label.same, Tensor.same_relabel, Bool.and_eq_true, beq_iff_eq, Bool.false_eq_true,
      sameSlots_iff, List.cons.injEq, (map_injective_iff.2 r.access_injective).eq_iff,
      (map_injective_iff.2 r.binder_injective).eq_iff, (map_injective_iff.2 (slot_injective r)).eq_iff,
      (slot_injective r).eq_iff]

/-- Relabelled expressions are the same exactly if the expressions are. -/
@[simp] theorem relabel_beq (a b : Expr K) : (a.relabel r == b.relabel r) = (a == b) := by
  rw [Bool.eq_iff_iff, beq_iff, beq_iff, label_relabel, label_relabel, Label.same_relabel, parts_relabel, parts_relabel,
    forall₂_map_left_iff, forall₂_map_right_iff]
  refine and_congr_right fun _ => ?_
  rw [forall₂_iff_get, forall₂_iff_get]
  refine and_congr_right fun _ => forall_congr' fun i => forall_congr' fun ha => forall_congr' fun hb => ?_
  have := sizeOf_lt_of_mem_parts (a.parts.get_mem ⟨i, ha⟩)
  rw [relabel_beq]
termination_by sizeOf a

/-! ## Free indices -/

/-- The free indices move along, as a set. -/
theorem mem_freeIndices_relabel {e : Expr K} {i : Index} :
    i ∈ (e.relabel r).freeIndices ↔ i ∈ e.freeIndices.map r.index := by
  have below : (∃ c ∈ e.children.map (relabel r), i ∈ c.freeIndices) ↔ ∃ j, (∃ c ∈ e.children, j ∈ c.freeIndices) ∧ r.index j = i := by
    simp only [mem_map, exists_exists_and_eq_and]
    constructor
    · rintro ⟨c, hc, hi⟩
      have := sizeOf_lt_of_mem_children hc
      obtain ⟨j, hj, rfl⟩ := mem_map.1 (mem_freeIndices_relabel.1 hi)
      exact ⟨j, ⟨c, hc, hj⟩, rfl⟩
    · rintro ⟨j, ⟨c, hc, hj⟩, rfl⟩
      have := sizeOf_lt_of_mem_children hc
      exact ⟨c, hc, mem_freeIndices_relabel.2 (mem_map_of_mem hj)⟩
  have binders : (e.relabel r).ownBinders.map Prod.fst = (e.ownBinders.map Prod.fst).map r.index := by
    cases e <;> simp [ownBinders, Relabelling.binder]
  rw [mem_freeIndices_iff, ownIndices_relabel, children_relabel, below, binders]
  constructor
  · rintro (hi | ⟨⟨j, hj, rfl⟩, out⟩)
    · obtain ⟨j, hj, rfl⟩ := mem_map.1 hi
      exact mem_map_of_mem (mem_freeIndices_iff.2 (.inl hj))
    · exact mem_map_of_mem (mem_freeIndices_iff.2 (.inr ⟨hj, fun mem => out (r.mem_map_index.2 mem)⟩))
  · intro hi
    obtain ⟨j, hj, rfl⟩ := mem_map.1 hi
    exact (mem_freeIndices_iff.1 hj).imp mem_map_of_mem fun inner =>
      ⟨⟨j, inner.1, rfl⟩, fun mem => inner.2 (r.mem_map_index.1 mem)⟩
termination_by sizeOf e

theorem freeIndices_relabel_perm (e : Expr K) : (e.relabel r).freeIndices.Perm (e.freeIndices.map r.index) :=
  (perm_ext_iff_of_nodup (nodup_freeIndices _) ((nodup_freeIndices e).map r.index_injective)).2
    fun _ => mem_freeIndices_relabel r

theorem subset_freeIndices_relabel {a b : Expr K} :
    (a.relabel r).freeIndices ⊆ (b.relabel r).freeIndices ↔ a.freeIndices ⊆ b.freeIndices := by
  simp only [subset_def, mem_freeIndices_relabel]
  constructor
  · intro h i hi
    exact r.mem_map_index.1 (h (mem_map_of_mem hi))
  · intro h i hi
    obtain ⟨j, hj, rfl⟩ := mem_map.1 hi
    exact mem_map_of_mem (h hj)

theorem subset_relabel (a b : Expr K) :
    Indices.subset (a.relabel r).freeIndices (b.relabel r).freeIndices = Indices.subset a.freeIndices b.freeIndices := by
  rw [Bool.eq_iff_iff, Indices.subset_iff, Indices.subset_iff, subset_freeIndices_relabel]

theorem freeIndices_beq_relabel (a b : Expr K) :
    ((a.relabel r).freeIndices == (b.relabel r).freeIndices) = (a.freeIndices == b.freeIndices) := by
  have both : ∀ {M : Type} (x y : Expr M), x.freeIndices = y.freeIndices ↔
      x.freeIndices ⊆ y.freeIndices ∧ y.freeIndices ⊆ x.freeIndices := fun x y =>
    ⟨fun h => h ▸ ⟨fun _ => id, fun _ => id⟩,
      fun h => (sorted_freeIndices x).eq_of_mem_iff (sorted_freeIndices y) fun _ => ⟨@h.1 _, @h.2 _⟩⟩
  rw [Bool.eq_iff_iff, beq_iff_eq, beq_iff_eq, both, both, subset_freeIndices_relabel, subset_freeIndices_relabel]

end Expr

end FormCompiler
