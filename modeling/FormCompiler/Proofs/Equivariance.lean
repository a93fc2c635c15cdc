import FormCompiler.Proofs.Relabelling
import FormCompiler.Proofs.Schedule
import FormCompiler.Proofs.Tables

/-!
# Scheduling does not see labels

Relabelled assignments are scheduled like the assignments themselves: the same nodes are visited in the same order, the
same references are counted, and the queue takes the same decisions. Where one run fails, so does the other, with the
same error.
-/

namespace FormCompiler

open FormCompiler.Expr List Build

/-! ## Computations that end alike -/

namespace Build

/-- Both computations return, with related results, or both fail with the same error. -/
inductive Alike {α β : Type} (R : α → β → Prop) (x : Build α) (y : Build β) : Prop where
  | returns {a : α} {b : β} : x = pure a → y = pure b → R a b → Alike R x y
  | fails {e : Error} : x = throw e → y = throw e → Alike R x y

section Alike

variable {α β α' β' : Type} {R : α → β → Prop} {S : α' → β' → Prop}

theorem throw_bind (e : Error) (f : α → Build β) : (throw e : Build α) >>= f = throw e := rfl

variable {a : α} {b : β} {e : Error} {x : Build α} {y : Build β} {ι κ : Type} {is : List ι} {h : ι → κ}

theorem alike_pure (h : R a b) : Alike R (pure a) (pure b) := .returns rfl rfl h

theorem alike_throw : Alike R (throw e) (throw e) := .fails rfl rfl

theorem Alike.bind {f : α → Build α'} {g : β → Build β'} (h : Alike R x y)
    (next : ∀ a b, R a b → Alike S (f a) (g b)) : Alike S (x >>= f) (y >>= g) := by
  cases h with
  | returns hx hy related => rw [hx, hy, pure_bind, pure_bind]; exact next _ _ related
  | fails hx hy => rw [hx, hy, throw_bind, throw_bind]; exact alike_throw

theorem pure_ne_throw : (pure a : Build α) ≠ throw e := fun h => by
  have run : (pure a : Build α).run.run {} = (throw e : Build α).run.run {} := by rw [h]
  cases run

/-- If the second computation fails, so does the first. -/
theorem Alike.failed (h : Alike R x y) (hy : y = throw e) : x = throw e := by
  cases h with
  | returns _ hy' _ => exact absurd (hy'.symm.trans hy) pure_ne_throw
  | fails hx hy' =>
    have run : y.run.run {} = (.error e, {}) := by rw [hy]; rfl
    rw [hy'] at run
    cases run
    exact hx

/-- If the second computation returns, so does the first. -/
theorem Alike.returned (h : Alike R x y) (hy : y = pure b) : ∃ a, x = pure a ∧ R a b := by
  have run : y.run.run {} = (.ok b, {}) := by rw [hy]; rfl
  cases h with
  | returns hx hy' related =>
    rw [hy'] at run
    cases run
    exact ⟨_, hx, related⟩
  | fails hx hy' =>
    rw [hy'] at run
    cases run

theorem alike_require (b : Bool) : Alike (fun _ _ => b = true) (require b) (require b) := by
  cases b
  · exact alike_throw
  · exact alike_pure rfl

theorem alike_mapM {f : ι → Build α} {g : κ → Build β}
    (each : ∀ i ∈ is, Alike R (f i) (g (h i))) : Alike (Forall₂ R) (is.mapM f) ((is.map h).mapM g) := by
  induction is with
  | nil => exact alike_pure .nil
  | cons i is ih =>
    rw [map_cons, mapM_cons, mapM_cons]
    refine (each i mem_cons_self).bind fun a b first => ?_
    refine (ih fun j hj => each j (mem_cons_of_mem _ hj)).bind fun as bs rest => ?_
    exact alike_pure (.cons first rest)

theorem alike_foldlM {f : α → ι → Build α} {g : β → κ → Build β}
    (each : ∀ a b, ∀ i ∈ is, R a b → Alike R (f a i) (g b (h i))) (start : R a b) :
    Alike R (is.foldlM f a) ((is.map h).foldlM g b) := by
  induction is generalizing a b with
  | nil => exact alike_pure start
  | cons i is ih =>
    rw [map_cons, foldlM_cons, foldlM_cons]
    refine (each a b i mem_cons_self start).bind fun a' b' next => ?_
    exact ih (fun a b j hj => each a b j (mem_cons_of_mem _ hj)) next

end Alike

end Build

variable {K L : Type} [Scalar K] [Scalar L] (r : Relabelling K L)

/-! ## Traversal -/

namespace Expr

variable {seen : Std.HashSet (Expr K)} {seen' : Std.HashSet (Expr L)}

theorem pushUnseen_relabel [EquivBEq (Expr K)] [EquivBEq (Expr L)] (h : ∀ e : Expr K, seen'.contains (e.relabel r) = seen.contains e)
    (stack es : List (Expr K)) :
    (∀ e : Expr K, (pushUnseen seen' (stack.map (relabel r)) (es.map (relabel r))).1.contains (e.relabel r) =
        (pushUnseen seen stack es).1.contains e) ∧
      (pushUnseen seen' (stack.map (relabel r)) (es.map (relabel r))).2 = (pushUnseen seen stack es).2.map (relabel r) := by
  induction es generalizing seen seen' stack with
  | nil => exact ⟨h, rfl⟩
  | cons e es ih =>
    rw [map_cons, pushUnseen, pushUnseen, h]
    split
    · exact ih h stack
    · refine ih (fun x => ?_) (e :: stack)
      rw [Std.HashSet.contains_insert, Std.HashSet.contains_insert, relabel_beq, h]

theorem traverse_relabel [EquivBEq (Expr K)] [EquivBEq (Expr L)] (h : ∀ e : Expr K, seen'.contains (e.relabel r) = seen.contains e)
    {visited : Array (Expr K)} {visited' : Array (Expr L)} (same : visited'.toList = visited.toList.map (relabel r))
    (stack : List (Expr K)) :
    (traverse seen' visited' (stack.map (relabel r))).toList = (traverse seen visited stack).toList.map (relabel r) := by
  fun_induction traverse seen visited stack generalizing seen' visited' with
  | case1 seen visited => rw [map_nil, traverse]; exact same
  | case2 seen visited e stack next =>
    rename_i ih
    obtain ⟨seen_eq, stack_eq⟩ := pushUnseen_relabel r h stack e.children.reverse
    rw [map_cons, traverse]
    simp only [children_relabel, ← map_reverse]
    rw [stack_eq]
    exact ih seen_eq (by simp [same])

/-- The same nodes are visited in the same order. -/
theorem traversal_relabel [EquivBEq (Expr K)] [EquivBEq (Expr L)] (roots : List (Expr K)) :
    traversal (roots.map (relabel r)) = (traversal roots).map (relabel r) := by
  have unseen : ∀ e : Expr K, (∅ : Std.HashSet (Expr L)).contains (e.relabel r) = (∅ : Std.HashSet (Expr K)).contains e := by
    simp
  have unvisited : (#[] : Array (Expr L)).toList = (#[] : Array (Expr K)).toList.map (relabel r) := rfl
  obtain ⟨seen_eq, stack_eq⟩ := pushUnseen_relabel r unseen [] roots
  rw [map_nil] at seen_eq stack_eq
  rw [traversal, stack_eq]
  exact traverse_relabel r seen_eq unvisited _

/-- The same references are counted. -/
theorem corresponds_refCount [EquivBEq (Expr K)] [EquivBEq (Expr L)] (roots : List (Expr K)) :
    Corresponds (relabel r) id (refCount roots) (refCount (roots.map (relabel r))) := by
  have add : ∀ {m : RefCount K} {m' : RefCount L} (es : List (Expr K)), Corresponds (relabel r) id m m' →
      Corresponds (relabel r) id (m.addAll es) (RefCount.addAll m' (es.map (relabel r))) := by
    intro m m' es h
    refine Corresponds.foldl (fun {m m'} e h => ?_) h es
    have old : m'.getD (e.relabel r) 0 = m.getD e 0 := h.getD_eq (relabel_beq r) e 0
    rw [old]
    exact h.insert (relabel_beq r) e _
  rw [refCount, refCount, traversal_relabel]
  refine Corresponds.foldl (fun e h => ?_) (add roots .empty) _
  rw [children_relabel]
  exact add e.children h

end Expr

/-! ## The order of loops -/

/-- Sorting by keys that tell members apart does not depend on the order before. -/
theorem mergeSort_eq_of_perm {α : Type} (key : α → Nat) {as bs : List α} (perm : as.Perm bs)
    (distinct : ∀ a ∈ bs, ∀ b ∈ bs, key a = key b → a = b) :
    as.mergeSort (fun a b => key a ≤ key b) = bs.mergeSort fun a b => key a ≤ key b := by
  have sorted : ∀ l : List α, (l.mergeSort fun a b => key a ≤ key b).Pairwise fun a b => key a ≤ key b := fun l =>
    (pairwise_mergeSort (by simp; omega) (by simp; omega) l).imp (by simp)
  refine Perm.eq_of_pairwise (fun a b ha hb hab hba => ?_) (sorted as) (sorted bs)
    ((mergeSort_perm as _).trans (perm.trans (mergeSort_perm bs _).symm))
  exact distinct a (perm.mem_iff.1 (mem_mergeSort.1 ha)) b (mem_mergeSort.1 hb) (Nat.le_antisymm hab hba)

namespace IndexOrder

theorem position?_relabel (order : IndexOrder) (i : Index) :
    position? (order.map r.index) (r.index i) = order.position? i := by
  rw [position?, position?, zipIdx_map, ← map_reverse, find?_map, Option.map_map]
  congr 1
  · congr 1
    funext p
    exact r.index_beq p.1 i

variable {order : IndexOrder} {i : Index} {is : List Index}

theorem mem_of_position? {n : Nat} (h : order.position? i = some n) : order[n]? = some i := by
  obtain ⟨p, found, rfl⟩ := Option.map_eq_some_iff.1 h
  have same := find?_some found
  have mem := mem_zipIdx_iff_getElem?.1 (mem_reverse.1 (mem_of_find?_eq_some found))
  rw [mem]
  simpa using same

theorem sort_eq_throw (hi : i ∈ is) (out : i ∉ order) : order.sort is = throw .missing := by
  have missing : order.position? i = none := by
    cases h : order.position? i with
    | none => rfl
    | some n => exact absurd (mem_of_getElem? (mem_of_position? h)) out
  rw [sort]
  refine (congrArg (· >>= _) ?_).trans (throw_bind _ _)
  induction is with
  | nil => simp at hi
  | cons j is ih =>
    rw [mapM_cons]
    rcases mem_cons.1 hi with rfl | hi
    · rw [missing]
      rfl
    · rw [ih hi]
      cases order.position? j <;> rfl

theorem arranged_relabel {js : List Index} (perm : js.Perm (is.map r.index))
    (known : ∀ i ∈ is, i ∈ order) : arranged (order.map r.index) js = (order.arranged is).map r.index := by
  have keyed : (js.map fun i => ((position? (order.map r.index) i).getD 0, i)).Perm
      ((is.map fun i => ((order.position? i).getD 0, i)).map (Prod.map id r.index)) := by
    refine (perm.map _).trans (.of_eq ?_)
    simp [position?_relabel]
  have distinct : ∀ a ∈ (is.map fun i => ((order.position? i).getD 0, i)).map (Prod.map id r.index),
      ∀ b ∈ (is.map fun i => ((order.position? i).getD 0, i)).map (Prod.map id r.index), a.1 = b.1 → a = b := by
    simp only [mem_map]
    rintro _ ⟨_, ⟨i, hi, rfl⟩, rfl⟩ _ ⟨_, ⟨j, hj, rfl⟩, rfl⟩ same
    obtain ⟨m, hm⟩ := Option.isSome_iff_exists.1 (position?_isSome (known i hi))
    obtain ⟨n, hn⟩ := Option.isSome_iff_exists.1 (position?_isSome (known j hj))
    simp only [Prod.map, id, hm, hn, Option.getD_some] at same
    have := mem_of_position? hm
    rw [same, mem_of_position? hn, Option.some.injEq] at this
    rw [this]
  rw [arranged, arranged, mergeSort_eq_of_perm Prod.fst keyed distinct,
    ← map_mergeSort (r := fun a b => decide (a.1 ≤ b.1)) fun _ _ _ _ => rfl]
  simp

/-- The loops move along. -/
theorem alike_loops (order : IndexOrder) (e : Expr K) :
    Alike (fun is js => js = is.map r.index) (order.loops e) (loops (order.map r.index) (e.relabel r)) := by
  by_cases known : ∀ i ∈ e.freeIndices, i ∈ order
  · have known' : ∀ i ∈ (e.relabel r).freeIndices, i ∈ order.map r.index := fun i hi => by
      obtain ⟨j, hj, rfl⟩ := mem_map.1 ((mem_freeIndices_relabel r).1 hi)
      exact r.mem_map_index.2 (known j hj)
    exact .returns (sort_eq known) (sort_eq known') (arranged_relabel r (freeIndices_relabel_perm r e) known)
  · push Not at known
    obtain ⟨i, hi, out⟩ := known
    refine .fails (sort_eq_throw hi out) (sort_eq_throw (i := r.index i) ?_ fun mem => out (r.mem_map_index.1 mem))
    exact (mem_freeIndices_relabel r).2 (mem_map_of_mem hi)

end IndexOrder

/-! ## The queue -/

namespace Queue

variable {κ κ' α β : Type} [BEq κ] [BEq κ'] {f : κ → κ'} {g : α → β}

/-- A queue with other loops and other elements. -/
def map (f : κ → κ') (g : α → β) (q : Queue κ α) : Queue κ' β where
  waiting := q.waiting.map (Prod.map (List.map f) (List.map g))
  current := q.current.map (List.map f)

section Loops

variable (loops : ∀ as bs : List κ, (as.map f == bs.map f) = (as == bs))

include loops

theorem insertInto_map (is : List κ) (a : α) (w : List (List κ × List α)) :
    insertInto (is.map f) (g a) (w.map (Prod.map (List.map f) (List.map g))) =
      (insertInto is a w).map (Prod.map (List.map f) (List.map g)) := by
  induction w with
  | nil => rfl
  | cons p w ih =>
    obtain ⟨key, as⟩ := p
    rw [map_cons, Prod.map_apply, insertInto, insertInto, loops]
    split
    · simp
    · rw [ih, map_cons, Prod.map_apply]

theorem insert_map (q : Queue κ α) (is : List κ) (a : α) : (q.map f g).insert (is.map f) (g a) = (q.insert is a).map f g := by
  rw [insert, map, insertInto_map loops]
  rfl

theorem find?_map_waiting (w : List (List κ × List α)) (is : List κ) :
    (w.map (Prod.map (List.map f) (List.map g))).find? (fun p => p.1 == is.map f) =
      (w.find? fun p => p.1 == is).map (Prod.map (List.map f) (List.map g)) := by
  rw [List.find?_map]
  congr 2
  funext p
  exact loops p.1 is

theorem nextLoops_map (w : List (List κ × List α)) (n : Nat) (is : List κ) :
    nextLoops (w.map (Prod.map (List.map f) (List.map g))) n (is.map f) = (nextLoops w n is).map (List.map f) := by
  induction n generalizing is with
  | zero => cases w <;> rfl
  | succ n ih =>
    have found : (w.map (Prod.map (List.map f) (List.map g))).find?
        (fun p => p.1.take (is.map f).length == is.map f) =
        (w.find? fun p => p.1.take is.length == is).map (Prod.map (List.map f) (List.map g)) := by
      rw [List.find?_map]
      congr 2
      funext p
      rw [Function.comp_apply, Prod.map_fst, length_map, ← map_take, loops]
    rw [nextLoops, nextLoops, found]
    cases w.find? fun p => p.1.take is.length == is with
    | none =>
      rw [Option.map_none, ← map_dropLast]
      exact ih _
    | some p => rfl

/-- The same step is taken. -/
theorem step_map (q : Queue κ α) : (q.map f g).step = q.step.map (Prod.map (Option.map g) (map f g)) := by
  have enter : ∀ (w : List (List κ × List α)) (is : List κ),
      (if (w.map (Prod.map (List.map f) (List.map g))).isEmpty then none else
        some ((none : Option β), (⟨w.map (Prod.map (List.map f) (List.map g)),
          nextLoops (w.map (Prod.map (List.map f) (List.map g))) (is.map f).length (is.map f)⟩ : Queue κ' β))) =
      (if w.isEmpty then none else some ((none : Option α), (⟨w, nextLoops w is.length is⟩ : Queue κ α))).map
        (Prod.map (Option.map g) (map f g)) := by
    intro w is
    rw [isEmpty_map, length_map, nextLoops_map loops]
    split <;> rfl
  obtain ⟨waiting, current⟩ := q
  cases current with
  | none => exact enter waiting []
  | some is =>
    simp only [step, map, Option.map_some, find?_map_waiting loops]
    cases waiting.find? fun p => p.1 == is with
    | none => exact enter waiting is
    | some p =>
      obtain ⟨key, as⟩ := p
      simp only [Option.map_some, Prod.map_apply, List.getLast?_map]
      cases as.getLast? with
      | none =>
        have left : (waiting.map (Prod.map (List.map f) (List.map g))).filter (fun p => !(p.1 == is.map f)) =
            (waiting.filter fun p => !(p.1 == is)).map (Prod.map (List.map f) (List.map g)) := by
          rw [filter_map]
          congr 2
          funext p
          rw [Function.comp_apply, Prod.map_fst, loops]
        simp only [Option.map_none, left]
        exact enter _ is
      | some a =>
        simp only [Option.map_some, map_map, Prod.map_apply, map, Option.some.injEq, Prod.mk.injEq, true_and,
          mk.injEq, and_true]
        refine map_congr_left fun p _ => ?_
        simp only [Function.comp_apply, Prod.map_fst, Prod.map_snd, loops]
        split
        · simp [Prod.map, map_dropLast]
        · rfl

end Loops

end Queue

/-! ## Operations -/

namespace Operation

/-- The same operation on relabelled expressions. -/
def relabel : Operation K → Operation L
  | .evaluate e => .evaluate (e.relabel r)
  | .initialise s => .initialise (s.relabel r)
  | .accumulate s => .accumulate (s.relabel r)
  | .hold e => .hold (e.relabel r)
  | .give v e => .give (v.relabel r) (e.relabel r)
  | .giveSum v s => .giveSum (v.relabel r) (s.relabel r)

theorem summand_relabel (e : Expr K) : summand (e.relabel r) = (summand e).relabel r := by cases e <;> rfl

theorem loopExpr_relabel (op : Operation K) : (op.relabel r).loopExpr = op.loopExpr.relabel r := by
  cases op <;> simp [relabel, loopExpr, summand_relabel]

theorem relabel_beq (a b : Operation K) : (a.relabel r == b.relabel r) = (a == b) := by
  change same _ _ = same a b
  cases a <;> cases b <;> simp [relabel, same]

theorem alike_makeGive (v e : Expr K) :
    Alike (fun a b => b = a.relabel r) (makeGive v e) (makeGive (v.relabel r) (e.relabel r)) := by
  unfold makeGive
  rw [subset_relabel]
  exact (alike_require _).bind fun _ _ _ => alike_pure rfl

end Operation

namespace Schedule

/-- The same task on relabelled expressions. -/
def Task.relabel : Task K → Task L
  | .provide e => .provide (e.relabel r)
  | .run op => .run (op.relabel r)

/-- States of scheduling that differ in labels alone. -/
structure Mirrors (st : State K) (st' : State L) : Prop where
  operations : st'.operations = st.operations.map (Operation.relabel r)
  waiting : Corresponds (relabel r) id st.waiting st'.waiting

/-- Scheduling that goes the same way whatever the labels are. -/
def Alike (x : Scheduling K Unit) (y : Scheduling L Unit) : Prop :=
  ∀ q st st', Mirrors r st st' →
    Build.Alike (fun a b => b.1.2 = a.1.2.map r.index (Task.relabel r) ∧ Mirrors r a.2 b.2)
      ((x.run q).run st) ((y.run (q.map r.index (Task.relabel r))).run st')

variable {r}

theorem alike_pure : Alike r (pure ()) (pure ()) := fun _ _ _ h => Build.alike_pure ⟨rfl, h⟩

theorem Alike.bind {x : Scheduling K Unit} {y : Scheduling L Unit} {f : Unit → Scheduling K Unit}
    {g : Unit → Scheduling L Unit} (h : Alike r x y) (next : Alike r (f ()) (g ())) : Alike r (x >>= f) (y >>= g) := by
  intro q st st' related
  simp only [StateT.run_bind]
  refine (h q st st' related).bind ?_
  rintro ⟨⟨⟨⟩, q₁⟩, st₁⟩ ⟨⟨⟨⟩, _⟩, st₁'⟩ ⟨rfl, related⟩
  exact next q₁ st₁ st₁' related

theorem insert_relabel (q : Queue Index (Task K)) (is : List Index) (t : Task K) :
    (q.map r.index (Task.relabel r)).insert (is.map r.index) (t.relabel r) =
      (q.insert is t).map r.index (Task.relabel r) :=
  Queue.insert_map r.map_index_beq q is t

theorem alike_emit (op : Operation K) : Alike r (emit op) (emit (op.relabel r)) := fun q st st' h =>
  .returns (runs_emit op q st) (runs_emit _ _ st') ⟨rfl, by simp [h.operations], h.waiting⟩

theorem run_push (order : IndexOrder) (op : Operation K) (q : Queue Index (Task K)) (st : State K) :
    ((push order op).run q).run st =
      order.loops op.loopExpr >>= fun loops => pure (((), q.insert loops (.run op)), st) := by
  simp [push]

theorem alike_push (order : IndexOrder) (op : Operation K) :
    Alike r (push order op) (push (order.map r.index) (op.relabel r)) := by
  intro q st st' h
  rw [run_push, run_push, Operation.loopExpr_relabel]
  refine (IndexOrder.alike_loops r order op.loopExpr).bind ?_
  rintro is _ rfl
  exact Build.alike_pure ⟨insert_relabel q is (.run op), h⟩

variable {order : IndexOrder} {e : Expr K} {q : Queue Index (Task K)} {st : State K}

theorem run_release_throw (none : st.waiting[e]?.getD 0 = 0) : ((release order e).run q).run st = throw (.requirement "") := by
  have read : ((getThe (State K) : Scheduling K (State K)).run q).run st = pure ((st, q), st) := rfl
  unfold release
  rw [StateT.run_bind, StateT.run_bind, read, pure_bind]
  cases h : st.waiting[e]? with
  | none => rfl
  | some n =>
    obtain rfl : n = 0 := by simpa [h] using none
    rfl

theorem run_release {n : Nat} (some : st.waiting[e]? = some (n + 1)) : ((release order e).run q).run st =
      if n = 0 then order.loops e >>= fun loops =>
        pure (((), q.insert loops (.provide e)), { st with waiting := st.waiting.insert e n })
      else pure (((), q), { st with waiting := st.waiting.insert e n }) := by
  have read : ((getThe (State K) : Scheduling K (State K)).run q).run st = pure ((st, q), st) := rfl
  unfold release
  rw [StateT.run_bind, StateT.run_bind, read, pure_bind]
  simp only [some]
  split
  · simp
    rfl
  · rfl

variable [EquivBEq (Expr K)] [EquivBEq (Expr L)]

theorem alike_release (order : IndexOrder) (e : Expr K) :
    Alike r (release order e) (release (order.map r.index) (e.relabel r)) := by
  intro q st st' h
  have waiting : st'.waiting[e.relabel r]? = st.waiting[e]? := by
    rw [h.waiting.getElem?_eq (relabel_beq r), Option.map_id, id]
  rcases Nat.eq_zero_or_pos (st.waiting[e]?.getD 0) with none | pos
  · rw [run_release_throw none, run_release_throw (waiting ▸ none)]
    exact Build.alike_throw
  · obtain ⟨n, hn⟩ : ∃ n, st.waiting[e]? = some (n + 1) := by
      cases found : st.waiting[e]? with
      | none => simp [found] at pos
      | some n => exact ⟨n - 1, by rw [found, Option.getD_some] at pos; congr 1; omega⟩
    have taken : Mirrors r { st with waiting := st.waiting.insert e n }
        { st' with waiting := st'.waiting.insert (e.relabel r) n } :=
      ⟨h.operations, h.waiting.insert (relabel_beq r) e n⟩
    rw [run_release hn, run_release (waiting.trans hn)]
    split
    · refine (IndexOrder.alike_loops r order e).bind ?_
      rintro is _ rfl
      exact Build.alike_pure ⟨insert_relabel q is (.provide e), taken⟩
    · exact Build.alike_pure ⟨rfl, taken⟩

theorem alike_releaseAll (order : IndexOrder) (es : List (Expr K)) :
    Alike r (releaseAll order es) (releaseAll (order.map r.index) (es.map (relabel r))) := by
  induction es with
  | nil => exact alike_pure
  | cons e es ih => exact (alike_release order e).bind ih

theorem alike_provide (order : IndexOrder) (e : Expr K) :
    Alike r (provide order e) (provide (order.map r.index) (e.relabel r)) := by
  have isSum : (e.relabel r).isSum = e.isSum := by cases e <;> rfl
  have isComputed : (e.relabel r).isComputed = e.isComputed := by
    cases e <;> simp [Expr.relabel, Expr.isComputed, Expr.shape, Tensor.relabel]
  cases sum : e.isSum with
  | true =>
    obtain ⟨body, bs, rfl⟩ : ∃ body bs, e = .indexSum body bs := by cases e <;> simp_all [Expr.isSum]
    exact (alike_emit (.hold (.indexSum body bs))).bind (alike_push order (.accumulate (.indexSum body bs)))
  | false =>
    rw [provide_eq sum, provide_eq (isSum.trans sum), isComputed, Expr.children_relabel]
    refine Alike.bind ?_ (alike_releaseAll order e.children)
    split
    · exact alike_emit (.evaluate e)
    · exact alike_pure

/-- A task is treated the same way. -/
theorem alike_treat (order : IndexOrder) (t : Task K) :
    Alike r (treat order t) (treat (order.map r.index) (t.relabel r)) := by
  cases t with
  | provide e => exact alike_provide order e
  | run op =>
    refine (alike_emit op).bind ?_
    cases op with
    | accumulate s =>
      simp only [Operation.relabel, Operation.summand_relabel]
      exact (alike_push order (.initialise s)).bind (alike_release order _)
    | give v e => exact alike_release order e
    | giveSum v s =>
      simp only [Operation.relabel, Operation.summand_relabel]
      exact alike_release order _
    | _ => exact alike_pure

/-- The queue is emptied the same way. -/
theorem alike_process (order : IndexOrder) (fuel : Nat) :
    Alike r (Queue.process (treat order) fuel) (Queue.process (treat (order.map r.index)) fuel) := by
  induction fuel with
  | zero => exact alike_pure
  | succ fuel ih =>
    intro q st st' h
    have read : ∀ {M : Type} [Scalar M] (q : Queue Index (Task M)) (st : State M),
        ((get : Scheduling M (Queue Index (Task M))).run q).run st = pure ((q, q), st) := fun _ _ => rfl
    have write : ∀ {M : Type} [Scalar M] (q q' : Queue Index (Task M)) (st : State M),
        ((set q' : Scheduling M PUnit).run q).run st = pure (((), q'), st) := fun _ _ _ => rfl
    unfold Queue.process
    simp only [StateT.run_bind, read, pure_bind, Queue.step_map r.map_index_beq]
    cases q.step with
    | none => exact Build.alike_pure ⟨rfl, h⟩
    | some next =>
      obtain ⟨a?, q₁⟩ := next
      simp only [Option.map_some, Prod.map_apply, StateT.run_bind, write, pure_bind]
      cases a? with
      | none => exact ih q₁ st st' h
      | some a => exact (alike_treat order a).bind ih q₁ st st' h

omit [EquivBEq (Expr K)] [EquivBEq (Expr L)] in
theorem alike_pushAll (order : IndexOrder) (ops : List (Operation K)) :
    Alike r (forIn ops PUnit.unit fun op _ => do push order op; pure (.yield PUnit.unit))
      (forIn (ops.map (Operation.relabel r)) PUnit.unit fun op _ => do
        push (order.map r.index) op; pure (.yield PUnit.unit)) := by
  induction ops with
  | nil => exact alike_pure
  | cons op ops ih =>
    rw [map_cons, forIn_cons, forIn_cons, bind_assoc, bind_assoc]
    refine (alike_push order op).bind ?_
    rw [pure_bind, pure_bind]
    exact ih

/-- Pairs of expressions with other labels. -/
def relabelPair (r : Relabelling K L) (a : Expr K × Expr K) : Expr L × Expr L := (a.1.relabel r, a.2.relabel r)

omit [EquivBEq (Expr K)] [EquivBEq (Expr L)] in
theorem map_snd_relabelPair (assignments : List (Expr K × Expr K)) :
    (assignments.map (relabelPair r)).map Prod.snd = (assignments.map Prod.snd).map (relabel r) := by
  simp [relabelPair]

variable {counts : RefCount K} {counts' : RefCount L}

theorem alike_stage (h : Corresponds (relabel r) id counts counts') (v e : Expr K) :
    Build.Alike (fun a b => b.1 = a.1.relabel r ∧ Corresponds (relabel r) id a.2 b.2)
      (stage counts v e) (stage counts' (v.relabel r) (e.relabel r)) := by
  have count : counts'.getD (e.relabel r) 0 = counts.getD e 0 := h.getD_eq (relabel_beq r) e 0
  have given : Build.Alike (fun a b => b.1 = a.1.relabel r ∧ Corresponds (relabel r) id a.2 b.2)
      (Operation.makeGive v e >>= fun op => pure (op, counts))
      (Operation.makeGive (v.relabel r) (e.relabel r) >>= fun op => pure (op, counts')) :=
    (Operation.alike_makeGive r v e).bind fun _ _ same => Build.alike_pure ⟨same, h⟩
  unfold stage
  rw [count, freeIndices_beq_relabel]
  cases e with
  | indexSum body bs =>
    simp only [relabel]
    split
    · exact Build.alike_pure ⟨rfl, h.insert (relabel_beq r) (.indexSum body bs) 0⟩
    · exact given
  | _ => exact given

theorem alike_stageAll (h : Corresponds (relabel r) id counts counts') (assignments : List (Expr K × Expr K)) :
    Build.Alike (fun a b => b.1 = a.1.map (Operation.relabel r) ∧ Corresponds (relabel r) id a.2 b.2)
      (stageAll counts assignments) (stageAll counts' (assignments.map (relabelPair r))) := by
  unfold stageAll
  refine Build.alike_foldlM (fun a b i _ related => ?_) ⟨rfl, h⟩
  refine (alike_stage related.2 i.1 i.2).bind fun s t staged => Build.alike_pure ⟨?_, staged.2⟩
  simp [related.1, staged.1]

/-- Relabelled assignments have the relabelled operations. -/
theorem alike_operations (assignments : List (Expr K × Expr K)) (order : IndexOrder) :
    Build.Alike (fun ops ops' => ops' = ops.map (Operation.relabel r)) (operations assignments order)
      (operations (assignments.map (relabelPair r)) (order.map r.index)) := by
  have bound : stepBound (assignments.map (relabelPair r)) = stepBound assignments := by
    rw [stepBound, stepBound, map_snd_relabelPair, traversal_relabel, length_map, length_map]
  have first : ∀ {M : Type} [Scalar M] (x : Scheduling M Unit) (q : Queue Index (Task M)) (st : State M),
      (StateT.run' x q).run st = (x.run q).run st >>= fun a => pure ((), a.2) := by
    intros
    rfl
  unfold operations
  rw [map_snd_relabelPair, bound]
  refine (alike_stageAll (corresponds_refCount r _) assignments).bind ?_
  rintro ⟨staged, counts⟩ ⟨_, counts'⟩ ⟨rfl, related⟩
  dsimp only
  rw [first, first, bind_assoc, bind_assoc]
  refine (((alike_pushAll order staged).bind (alike_process order _)) {} _ _ ⟨rfl, related⟩).bind fun a b ended => ?_
  rw [pure_bind, pure_bind]
  have settled : (b.2.waiting.toList.all fun p => p.2 == 0) = a.2.waiting.toList.all fun p => p.2 == 0 := by
    rw [ended.2.waiting.all_eq, all_map]
    rfl
  dsimp only
  rw [settled]
  exact (Build.alike_require _).bind fun _ _ _ => Build.alike_pure ended.2.operations

end Schedule

end FormCompiler
