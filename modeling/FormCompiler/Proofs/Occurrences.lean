import FormCompiler.Proofs.Lacking

/-!
# Indices that are bound once

An expression binds its indices once if no two of its nodes, or places in it at which the same node stands, bind the same
index. Constructors bind nothing that is not bound in what they are given, as often as it is bound there, so that indices
that are bound once stay so when tensors made of components are read.
-/

namespace FormCompiler

open FormCompiler.Expr List

namespace Expr

variable {K : Type} {e c : Expr K} {i : Index}

/-! ## Occurrences of binders -/

/-- The indices that are bound in the expression, as often as they are bound. -/
def bound (e : Expr K) : Multiset Index :=
  (e.ownBinders.map Prod.fst : List Index) + (e.children.attach.map fun c => bound c.1).sum
termination_by sizeOf e
decreasing_by exact sizeOf_lt_of_mem_children c.2

theorem bound_eq (e : Expr K) : e.bound = (e.ownBinders.map Prod.fst : List Index) + (e.children.map bound).sum := by
  rw [bound]
  exact congrArg (fun bs : List (Multiset Index) => _ + bs.sum) attach_map_val

/-- What is bound in expressions, all together. -/
def boundIn (es : List (Expr K)) : Multiset Index := (es.map bound).sum

@[simp] theorem boundIn_nil : boundIn ([] : List (Expr K)) = 0 := rfl

@[simp] theorem boundIn_cons (e : Expr K) (es : List (Expr K)) : boundIn (e :: es) = e.bound + boundIn es := sum_cons

theorem boundIn_append (es fs : List (Expr K)) : boundIn (es ++ fs) = boundIn es + boundIn fs := by
  rw [boundIn, map_append, sum_append, boundIn, boundIn]

theorem bound_le_boundIn {es : List (Expr K)} (h : e ∈ es) : e.bound ≤ boundIn es :=
  single_le_sum (fun _ _ => Multiset.zero_le _) _ (mem_map_of_mem h)

theorem mem_boundIn {es : List (Expr K)} : i ∈ boundIn es ↔ ∃ e ∈ es, i ∈ e.bound := by
  induction es with
  | nil => simp
  | cons e es ih => rw [boundIn_cons, Multiset.mem_add, ih, exists_mem_cons_iff]

theorem boundIn_mono {es fs : List (Expr K)} (h : Forall₂ (fun e f => f.bound ≤ e.bound) es fs) : boundIn fs ≤ boundIn es := by
  induction h with
  | nil => exact le_refl _
  | cons first _ ih =>
    rw [boundIn_cons, boundIn_cons]
    exact add_le_add first ih

theorem bound_node (plain : e.ownBinders = []) : e.bound = boundIn e.children := by
  rw [bound_eq, plain]
  exact zero_add _

theorem bound_leaf (none : e.children = []) : e.bound = 0 := by
  have plain : e.ownBinders = [] := by
    cases e with
    | componentTensor body bs => cases none
    | indexSum body bs => cases none
    | _ => rfl
  rw [bound_node plain, none, boundIn_nil]

theorem bound_child (hc : c ∈ e.children) : c.bound ≤ e.bound := by
  rw [bound_eq e]
  exact (bound_le_boundIn hc).trans (Multiset.le_add_left _ _)

theorem bound_indexSum (body : Expr K) (bs : List Binder) : (Expr.indexSum body bs).bound = (bs.map Prod.fst : List Index) + body.bound := by
  rw [bound_eq]
  exact congrArg _ (add_zero _)

theorem bound_componentTensor (body : Expr K) (bs : List Binder) :
    (Expr.componentTensor body bs).bound = (bs.map Prod.fst : List Index) + body.bound := by
  rw [bound_eq]
  exact congrArg _ (add_zero _)

theorem bound_indexed (t : Expr K) (slots : List (Slot (Expr K))) : (Expr.indexed t slots).bound = t.bound :=
  (bound_node rfl).trans (add_zero _)

theorem bound_binary (op : BinaryOp) (a b : Expr K) : (Expr.binary op a b).bound = a.bound + b.bound := by
  rw [bound_node rfl]
  exact congrArg _ (add_zero _)

theorem bound_access (name : String) (shape : Shape) (dims : List DimAccess) : (Expr.access name shape dims : Expr K).bound = 0 :=
  (bound_node rfl).trans ((add_zero _).trans (bound_leaf rfl))

/-- An index is bound somewhere if it occurs among the bound ones. -/
theorem mem_bound : i ∈ e.bound ↔ Binds i e := by
  constructor
  · intro h
    induction e using bound.induct with
    | case1 e ih =>
      rw [bound_eq, Multiset.mem_add, Multiset.mem_coe] at h
      rcases h with here | below
      · exact .here here
      · obtain ⟨c, hc, hi⟩ := mem_boundIn.1 below
        exact .child hc (ih ⟨c, hc⟩ hi)
  · intro h
    induction h with
    | here own =>
      rw [bound_eq, Multiset.mem_add]
      exact .inl own
    | child hc _ ih => exact Multiset.mem_of_le (bound_child hc) ih

/-- Each index is bound once, and none that is free. -/
structure Unique (e : Expr K) : Prop where
  once : e.bound.Nodup
  free {i : Index} : i ∈ e.freeIndices → i ∉ e.bound

/-- Where indices are bound once, none is bound below itself. -/
theorem not_nested_of_nodup (once : e.bound.Nodup) : ¬ Nested e := by
  intro nested
  induction nested with
  | here twice =>
    rw [bound_eq] at once
    obtain ⟨own, -, apart⟩ := Multiset.nodup_add.1 once
    rcases twice with twice | ⟨i, hi, c, hc, below⟩
    · exact twice (Multiset.coe_nodup.1 own)
    · exact Multiset.disjoint_left.1 apart (Multiset.mem_coe.2 hi) (Multiset.mem_of_le (bound_le_boundIn hc) (mem_bound.2 below))
  | child hc _ ih => exact ih (Multiset.nodup_of_le (bound_child hc) once)

theorem Unique.unshadowed (h : Unique e) : Unshadowed e :=
  ⟨fun _ hi binds => h.free hi (mem_bound.2 binds), not_nested_of_nodup h.once⟩

/-- What binds no more, and depends on no more, binds its indices once as well. -/
theorem Unique.mono {r : Expr K} (h : Unique e) (less : r.bound ≤ e.bound) (free : r.freeIndices ⊆ e.freeIndices) : Unique r :=
  ⟨Multiset.nodup_of_le less h.once, fun hi mem => h.free (free hi) (Multiset.mem_of_le less mem)⟩

end Expr

/-! ## What constructors bind -/

namespace Expr

variable {K : Type} {reads : Expr K → List (Slot (Expr K)) → Prop} {es cs : List (Expr K)} {is : List Index} {e r : Expr K}

/-- What is made of operands binds no more than they do, and the listed indices. -/
theorem Made.bound_le (h : Made reads es is r) : r.bound ≤ (is : List Index) + boundIn es := by
  have scope {bs : List Binder} {js is : List Index} {m : Multiset Index} (hb : m ≤ (js : List Index) + boundIn es)
      (sub : (bs.map Prod.fst ++ js).Subperm is) : (bs.map Prod.fst : List Index) + m ≤ (is : List Index) + boundIn es := by
    refine (add_le_add_right hb _).trans ?_
    rw [← add_assoc, Multiset.coe_add]
    exact add_le_add_left (Multiset.coe_le.2 sub) _
  induction h with
  | literal => exact (bound_leaf rfl).trans_le (Multiset.zero_le _)
  | zero _ => exact (bound_leaf rfl).trans_le (Multiset.zero_le _)
  | operand he => exact (bound_le_boundIn he).trans (Multiset.le_add_left _ _)
  | listed _ he ih => exact (bound_child he).trans ih
  | @join is e kind children =>
    rw [bound_node (by cases e <;> first | rfl | cases kind), children]
    exact Multiset.le_add_left _ _
  | indexed _ _ ih => exact (bound_indexed _ _).trans_le ih
  | componentTensor _ sub ih => exact (bound_componentTensor _ _).trans_le (scope ih sub)
  | indexSum _ sub ih => exact (bound_indexSum _ _).trans_le (scope ih sub)

/-- A node that is made again binds its own indices and what is bound in the new children. -/
theorem Remade.bound_le (h : Remade reads e cs r) (scalar : ∀ shape entries, e = .listTensor shape entries → ∀ c ∈ cs, c.shape = []) :
    r.bound ≤ (e.ownBinders.map Prod.fst : List Index) + boundIn cs := by
  cases h with
  | made made => exact made.bound_le
  | listed eq made same _ =>
    rw [← same (scalar _ _ eq)]
    exact made.bound_le.trans (add_le_add_left (Multiset.zero_le _) _)
  | zeros _ _ _ => exact (bound_leaf rfl).trans_le (Multiset.zero_le _)
  | access => exact (bound_access _ _ _).trans_le (Multiset.zero_le _)
  | leaf _ none => exact (bound_leaf none).trans_le (Multiset.zero_le _)

end Expr

/-! ## Replacement of indices -/

namespace Rewrite

variable {K : Type} [Scalar K] [Field K] [Exact K] {w : Index → Prop} {extent : Index → Extent}

omit [Exact K] in
/-- One step binds no more. -/
theorem Stepped.bound_le {reads : Expr K → List (Slot (Expr K)) → Prop} {e r : Expr K} {rules : Substitution K} (fits : e.WellFormed extent)
    (h : Stepped w extent reads (fun c rules c' => Substituted w extent rules c c' ∧ (True → c'.bound ≤ c.bound)) rules e r) :
    r.bound ≤ e.bound := by
  cases h with
  | delta _ made =>
    rcases made with rfl | made | ⟨-, rfl⟩
    · exact le_rfl
    · exact made.bound_le.trans (Multiset.zero_le _)
    · exact (bound_leaf rfl).trans_le (Multiset.zero_le _)
  | inline hr =>
    rw [bound_indexed, bound_componentTensor]
    exact (hr.2 trivial).trans (Multiset.le_add_left _ _)
  | indexed _ ht _ made =>
    rcases made with rfl | made
    · exact le_rfl
    · rw [bound_indexed]
      exact made.bound_le.trans (by simpa using ht.2 trivial)
  | access _ made =>
    obtain ⟨dims, rfl, -⟩ := made
    exact (bound_access _ _ _).trans_le (Multiset.zero_le _)
  | node _ hcs _ made =>
    rcases made with rfl | ⟨-, made⟩
    · exact le_rfl
    rw [bound_eq e]
    refine (made.bound_le ?_).trans (add_le_add_right (boundIn_mono (hcs.imp fun _ _ hc => hc.2 trivial)) _)
    rintro shape entries rfl c hc
    obtain ⟨c₀, mem, sub, -⟩ := exists_of_forall₂ hcs.flip hc
    rw [sub.shape]
    exact fits.here.2 c₀ mem

/-- Carrying out the indexings of tensors made of components binds no more. -/
theorem ensures_inlineComponents_bound {es : List (Expr K)} (fits : ∀ e ∈ es, e.WellFormed extent) (scopes : ∀ e ∈ es, e.Unshadowed) :
    Build.Ensures extent (inlineComponents es) fun rs =>
      Forall₂ (fun e r => Refines w extent e r ∧ r.bound ≤ e.bound) es rs := by
  refine (ensures_inlineComponents_with (w := w) (A := fun _ _ => True) (T := fun e _ r => r.bound ≤ e.bound) (R := fun _ _ => True)
    (fun _ => trivial) (fun _ _ => trivial) (fun pre _ h => h.bound_le pre.fits) fits scopes).mono fun rs hrs => hrs.imp fun _ _ hr => ?_
  exact ⟨hr.1, hr.2 trivial⟩

end Rewrite

end FormCompiler
