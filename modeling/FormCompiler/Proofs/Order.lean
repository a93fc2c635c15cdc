import FormCompiler.Proofs.WellFormed
import FormCompiler.Schedule.LoopTree

/-!
# The loops of an operation

The loops around an operation are the free indices of one expression in the order of loops. They exist as soon as the
order has all these indices.
-/

namespace FormCompiler

open List

variable {α β : Type} {m : Type → Type} {order : IndexOrder} {as : List α} {f : α → m β}

/-- A computation at each member that only returns. -/
theorem mapM_eq_pure [Monad m] [LawfulMonad m] {g : α → β} (h : ∀ a ∈ as, f a = pure (g a)) : as.mapM f = pure (as.map g) := by
  induction as with
  | nil => rfl
  | cons a as ih =>
    rw [mapM_cons, h a mem_cons_self, ih fun b hb => h b (mem_cons_of_mem _ hb)]
    simp

theorem mapM_congr [Monad m] [LawfulMonad m] {g : α → m β} (h : ∀ a ∈ as, f a = g a) : as.mapM f = as.mapM g := by
  induction as with
  | nil => rfl
  | cons a as ih =>
    rw [mapM_cons, mapM_cons, h a mem_cons_self, ih fun b hb => h b (mem_cons_of_mem _ hb)]

namespace IndexOrder

/-- Indices by their positions in the order. -/
def arranged (order : IndexOrder) (is : List Index) : List Index :=
  ((is.map fun i => ((order.position? i).getD 0, i)).mergeSort fun a b => a.1 ≤ b.1).map Prod.snd

variable {order : IndexOrder} {i : Index} {is : List Index}

theorem position?_isSome (h : i ∈ order) : (order.position? i).isSome := by
  have : (order.zipIdx.reverse.find? fun p => p.1 == i).isSome := by
    obtain ⟨n, hn, rfl⟩ := getElem_of_mem h
    rw [List.find?_isSome]
    exact ⟨(order[n], n), mem_reverse.2 (mem_zipIdx_iff_getElem?.2 (List.getElem?_eq_getElem hn)), by simp⟩
  simpa [position?] using this

/-- Indices that the order has can be brought into order. -/
theorem sort_eq (h : ∀ i ∈ is, i ∈ order) : order.sort is = pure (order.arranged is) := by
  rw [sort, mapM_eq_pure (g := fun i => ((order.position? i).getD 0, i)), pure_bind]
  · rfl
  · intro i hi
    obtain ⟨n, hn⟩ := Option.isSome_iff_exists.1 (position?_isSome (h i hi))
    rw [hn]
    rfl

theorem arranged_perm (order : IndexOrder) (is : List Index) : (order.arranged is).Perm is := by
  have := (mergeSort_perm (is.map fun i => ((order.position? i).getD 0, i)) fun a b => a.1 ≤ b.1).map Prod.snd
  simpa [arranged, Function.comp_def] using this

theorem mem_arranged : i ∈ order.arranged is ↔ i ∈ is :=
  (arranged_perm order is).mem_iff

end IndexOrder

instance {K : Type} [Scalar K] [LawfulBEq (Expr K)] : LawfulBEq (Operation K) where
  eq_of_beq {a b} h := by
    change Operation.same a b = true at h
    cases a <;> cases b <;> simp_all [Operation.same]
  rfl {a} := by
    change Operation.same a a = true
    cases a <;> simp [Operation.same]

instance {K : Type} [Scalar K] [LawfulBEq (Expr K)] : DecidableEq (Operation K) := instDecidableEqOfLawfulBEq

variable {K : Type}

/-- The loops around an operation. -/
def Operation.loops (order : IndexOrder) (op : Operation K) : List Index := order.arranged op.loopExpr.freeIndices

theorem Operation.nodup_loops (order : IndexOrder) (op : Operation K) : (op.loops order).Nodup :=
  (IndexOrder.arranged_perm order _).nodup_iff.2 (Expr.nodup_freeIndices _)

theorem Operation.mem_loops {op : Operation K} {i : Index} :
    i ∈ op.loops order ↔ i ∈ op.loopExpr.freeIndices := IndexOrder.mem_arranged

/-- The loop tree of operations whose loops exist. -/
theorem Statement.ofOperations_eq {ops : List (Operation K)} (h : ∀ op ∈ ops, ∀ i ∈ op.loopExpr.freeIndices, i ∈ order) :
    ∃ depth, (∀ op ∈ ops, (op.loops order).length ≤ depth) ∧
      Statement.ofOperations order ops = pure (gather depth (ops.map fun op => (op.loops order, op))) := by
  have pending : ∀ op ∈ ops, (do return (← order.loops op.loopExpr, op)) =
      (pure (op.loops order, op) : Build (Pending K)) := by
    intro op hop
    rw [IndexOrder.loops, IndexOrder.sort_eq (h op hop), pure_bind]
    rfl
  have bound : ∀ (ps : List (Pending K)) (n : Nat), n ≤ ps.foldl (fun acc p => max acc p.1.length) n ∧
      ∀ p ∈ ps, p.1.length ≤ ps.foldl (fun acc p => max acc p.1.length) n := by
    intro ps
    induction ps with
    | nil => simp
    | cons p ps ih =>
      intro n
      obtain ⟨start, all⟩ := ih (max n p.1.length)
      rw [foldl_cons]
      refine ⟨by omega, fun q hq => ?_⟩
      rcases mem_cons.1 hq with rfl | hq
      · omega
      · exact all q hq
  refine ⟨_, fun op hop => ?_, by rw [ofOperations, mapM_eq_pure pending, pure_bind]⟩
  have := (bound (ops.map fun op => (op.loops order, op)) 0).2 _ (mem_map_of_mem hop)
  exact Nat.le_succ_of_le this

end FormCompiler
