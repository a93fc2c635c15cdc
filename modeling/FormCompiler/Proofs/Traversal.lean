import FormCompiler.Expr.Traversal
import FormCompiler.Proofs.Rational

/-!
# Traversal and references are exact

A traversal visits the nodes that can be reached from the roots, each once, and the count of references to a node is
the number of its places among the roots and among the children of those nodes.
-/

namespace FormCompiler

open List

namespace Expr

/-- The nodes that can be reached from some roots. -/
inductive Reachable {K : Type} (roots : List (Expr K)) : Expr K → Prop where
  | root {e : Expr K} : e ∈ roots → Reachable roots e
  | child {p c : Expr K} : Reachable roots p → c ∈ p.children → Reachable roots c

/-- What is reachable from reachable expressions is reachable. -/
theorem Reachable.trans {K : Type} {roots roots' : List (Expr K)} {e : Expr K} (h : Reachable roots e)
    (reach : ∀ r ∈ roots, Reachable roots' r) : Reachable roots' e := by
  induction h with
  | root mem => exact reach _ mem
  | child _ mem ih => exact .child ih mem

variable {K : Type} [Scalar K] [LawfulBEq (Expr K)]

/-! ## Marking nodes -/

variable {seen : Std.HashSet (Expr K)} {stack es visited roots : List (Expr K)} {x e : Expr K}

theorem mem_seen_pushUnseen : x ∈ (pushUnseen seen stack es).1 ↔ x ∈ seen ∨ x ∈ es := by
  induction es generalizing seen stack with
  | nil => simp [pushUnseen]
  | cons e es ih =>
    unfold pushUnseen
    split
    · rename_i h
      have known : e ∈ seen := h
      rw [ih, mem_cons]
      constructor
      · rintro (h | h)
        · exact .inl h
        · exact .inr (.inr h)
      · rintro (h | rfl | h)
        · exact .inl h
        · exact .inl known
        · exact .inr h
    · rw [ih, Std.HashSet.mem_insert, mem_cons, beq_iff_eq]
      constructor
      · rintro ((rfl | h) | h)
        · exact .inr (.inl rfl)
        · exact .inl h
        · exact .inr (.inr h)
      · rintro (h | rfl | h)
        · exact .inl (.inr h)
        · exact .inl (.inl rfl)
        · exact .inr h

theorem mem_stack_pushUnseen : x ∈ (pushUnseen seen stack es).2 ↔ x ∈ stack ∨ (x ∈ es ∧ x ∉ seen) := by
  induction es generalizing seen stack with
  | nil => simp [pushUnseen]
  | cons e es ih =>
    unfold pushUnseen
    split
    · rename_i h
      have known : e ∈ seen := h
      rw [ih, mem_cons]
      constructor
      · rintro (h | ⟨h, hx⟩)
        · exact .inl h
        · exact .inr ⟨.inr h, hx⟩
      · rintro (h | ⟨rfl | h, hx⟩)
        · exact .inl h
        · exact absurd known hx
        · exact .inr ⟨h, hx⟩
    · rename_i h
      have new : e ∉ seen := h
      rw [ih, Std.HashSet.mem_insert, mem_cons, mem_cons, beq_iff_eq]
      by_cases same : x = e
      · subst same
        simp [new]
      · have : e ≠ x := fun h => same h.symm
        simp [same, this]

/-- Marked nodes stand on the stack once. -/
theorem nodup_pushUnseen (marked : ∀ x ∈ visited ++ stack, x ∈ seen) (nodup : (visited ++ stack).Nodup) :
    (visited ++ (pushUnseen seen stack es).2).Nodup := by
  induction es generalizing seen stack with
  | nil => simpa [pushUnseen] using nodup
  | cons e es ih =>
    unfold pushUnseen
    split
    · exact ih marked nodup
    · rename_i h
      have new : e ∉ seen := h
      have fresh : e ∉ visited ++ stack := fun hx => new (marked e hx)
      apply ih
      · intro x hx
        rw [Std.HashSet.mem_insert, beq_iff_eq]
        rcases mem_append.1 hx with hx | hx
        · exact .inr (marked x (mem_append_left _ hx))
        · rcases mem_cons.1 hx with rfl | hx
          · exact .inl rfl
          · exact .inr (marked x (mem_append_right _ hx))
      · exact (perm_middle.nodup_iff).2 (nodup_cons.2 ⟨fresh, nodup⟩)

/-! ## The traversal -/

/-- What holds while nodes are visited: those seen have been visited or wait, each once, and the children of those
visited have been seen. -/
structure Visiting (roots : List (Expr K)) (seen : Std.HashSet (Expr K)) (visited stack : List (Expr K)) : Prop where
  nodup : (visited ++ stack).Nodup
  mem_seen (x : Expr K) : x ∈ seen ↔ x ∈ visited ++ stack
  children {x c : Expr K} : x ∈ visited → c ∈ x.children → c ∈ seen
  reachable {x : Expr K} : x ∈ visited ++ stack → Reachable roots x
  roots {x : Expr K} : x ∈ roots → x ∈ seen

theorem Visiting.start (roots : List (Expr K)) :
    Visiting roots (pushUnseen ∅ [] roots).1 [] (pushUnseen ∅ [] roots).2 where
  nodup := nodup_pushUnseen (by simp) (by simp)
  mem_seen x := by
    simp only [nil_append, mem_seen_pushUnseen, mem_stack_pushUnseen]
    simp
  children h := by simp at h
  reachable h := by
    simp only [nil_append, mem_stack_pushUnseen, not_mem_nil, false_or] at h
    exact .root h.1
  roots h := mem_seen_pushUnseen.2 (.inr h)

/-- One visit: the children that were not seen are put on the stack. -/
theorem Visiting.step (h : Visiting roots seen visited (e :: stack)) :
    Visiting roots (pushUnseen seen stack e.children.reverse).1 (visited ++ [e])
      (pushUnseen seen stack e.children.reverse).2 where
  nodup := by
    apply nodup_pushUnseen
    · intro x hx
      rw [h.mem_seen]
      simpa using hx
    · simpa using h.nodup
  mem_seen x := by
    simp only [mem_seen_pushUnseen, mem_stack_pushUnseen, mem_append, h.mem_seen, mem_cons,
      mem_reverse, not_mem_nil, or_false]
    tauto
  children {x c} hx hc := by
    rw [mem_seen_pushUnseen]
    rcases mem_append.1 hx with hx | hx
    · exact .inl (h.children hx hc)
    · rw [mem_singleton] at hx
      subst hx
      exact .inr (mem_reverse.2 hc)
  reachable {x} hx := by
    have here : Reachable roots e := h.reachable (by simp)
    rcases mem_append.1 hx with hx | hx
    · rcases mem_append.1 hx with hx | hx
      · exact h.reachable (mem_append_left _ hx)
      · rw [mem_singleton] at hx
        exact hx ▸ here
    · rcases mem_stack_pushUnseen.1 hx with hx | ⟨hx, -⟩
      · exact h.reachable (by simp [hx])
      · exact .child here (mem_reverse.1 hx)
  roots hx := mem_seen_pushUnseen.2 (.inl (h.roots hx))

theorem Visiting.traverse {visited : Array (Expr K)} (h : Visiting roots seen visited.toList stack) :
    ∃ seen', Visiting roots seen' (traverse seen visited stack).toList [] := by
  fun_induction Expr.traverse seen visited stack with
  | case1 seen visited => exact ⟨seen, h⟩
  | case2 seen visited e stack next ih =>
    apply ih
    rw [Array.toList_push]
    exact h.step

theorem visiting_traversal (roots : List (Expr K)) : ∃ seen, Visiting roots seen (traversal roots) [] := by
  have start : Visiting roots (pushUnseen ∅ [] roots).1 (#[] : Array (Expr K)).toList (pushUnseen ∅ [] roots).2 :=
    Visiting.start roots
  exact start.traverse

/-- No node is visited twice. -/
theorem nodup_traversal (roots : List (Expr K)) : (traversal roots).Nodup := by
  obtain ⟨seen, h⟩ := visiting_traversal roots
  simpa using h.nodup

/-- The nodes that are visited are those that can be reached. -/
theorem mem_traversal : e ∈ traversal roots ↔ Reachable roots e := by
  obtain ⟨seen, h⟩ := visiting_traversal roots
  constructor
  · intro he
    exact h.reachable (by simpa using he)
  · intro he
    induction he with
    | root he => simpa [h.mem_seen] using h.roots he
    | child _ hc ih => simpa [h.mem_seen] using h.children ih hc

/-- Nodes in an order in which each is a root or has a parent before it. -/
inductive Led (roots : List (Expr K)) : List (Expr K) → Prop where
  | nil : Led roots []
  | visit {visited : List (Expr K)} {e : Expr K} : Led roots visited → (e ∈ roots ∨ ∃ p ∈ visited, e ∈ p.children) →
      Led roots (visited ++ [e])

omit [Scalar K] [LawfulBEq (Expr K)] in
theorem Led.parent {done rest : List (Expr K)} (h : Led roots visited)
    (split : visited = done ++ e :: rest) : e ∈ roots ∨ ∃ p ∈ done, e ∈ p.children := by
  induction h generalizing rest with
  | nil => simp at split
  | @visit visited x _ here ih =>
    rcases eq_nil_or_concat rest with rfl | ⟨rest, y, rfl⟩
    · obtain ⟨rfl, same⟩ := append_inj' split rfl
      cases same
      exact here
    · rw [concat_eq_append, ← cons_append, ← append_assoc] at split
      exact ih (append_inj' split rfl).1

/-- What waits on the stack is a root or a child of what has been visited. -/
theorem led_traverse {visited : Array (Expr K)}
    (led : Led roots visited.toList) (waiting : ∀ x ∈ stack, x ∈ roots ∨ ∃ p ∈ visited.toList, x ∈ p.children) :
    Led roots (traverse seen visited stack).toList := by
  fun_induction Expr.traverse seen visited stack with
  | case1 => exact led
  | case2 seen visited e stack next ih =>
    rw [Array.toList_push] at ih
    refine ih (led.visit (waiting e mem_cons_self)) fun x hx => ?_
    rcases mem_stack_pushUnseen.1 hx with old | ⟨new, -⟩
    · obtain root | ⟨p, hp, hx⟩ := waiting x (mem_cons_of_mem _ old)
      · exact .inl root
      · exact .inr ⟨p, mem_append_left _ hp, hx⟩
    · exact .inr ⟨e, by simp, mem_reverse.1 new⟩

/-! ## References -/

theorem getD_addAll (counts : RefCount K) (es : List (Expr K)) (e : Expr K) :
    (RefCount.addAll counts es).getD e 0 = counts.getD e 0 + es.count e := by
  unfold RefCount.addAll
  induction es generalizing counts with
  | nil => simp
  | cons x es ih =>
    rw [foldl_cons, ih, Std.HashMap.getD_insert, List.count_cons]
    by_cases h : x = e
    · subst h
      simp only [beq_self_eq_true, if_true]
      omega
    · simp [h]

/-- The references to a node: its places among the roots and among the children of reachable nodes. -/
theorem getD_refCount (roots : List (Expr K)) (e : Expr K) :
    (refCount roots).getD e 0 = roots.count e + ((traversal roots).map fun p => p.children.count e).sum := by
  have fold : ∀ (ps : List (Expr K)) (counts : RefCount K),
      (ps.foldl (fun m p => RefCount.addAll m p.children) counts).getD e 0 =
        counts.getD e 0 + (ps.map fun p => p.children.count e).sum := by
    intro ps
    induction ps with
    | nil => simp
    | cons p ps ih =>
      intro counts
      rw [foldl_cons, ih, getD_addAll, map_cons, sum_cons]
      omega
  rw [refCount, fold, getD_addAll]
  simp

/-- A traversal visits what can be reached from the roots, each node once, and each but the roots after one of its parents.
The references that are counted are the places among the roots and among the children of all these nodes; what cannot be
reached has none. -/
theorem traversal_exact (roots : List (Expr K)) : (traversal roots).Nodup ∧ (∀ e, e ∈ traversal roots ↔ Reachable roots e) ∧
    (∀ done e rest, traversal roots = done ++ e :: rest → e ∈ roots ∨ ∃ p ∈ done, e ∈ p.children) ∧
    (∀ e, (refCount roots).getD e 0 = roots.count e + ((traversal roots).map fun p => p.children.count e).sum) ∧
    ∀ e, ¬ Reachable roots e → (refCount roots).getD e 0 = 0 := by
  refine ⟨nodup_traversal roots, fun e => mem_traversal, fun done e rest split => ?_, getD_refCount roots, fun e out => ?_⟩
  · have none : Led roots (#[] : Array (Expr K)).toList := .nil
    refine (led_traverse none fun x hx => ?_).parent split
    exact .inl ((mem_stack_pushUnseen.1 hx).resolve_left not_mem_nil).1
  · rw [getD_refCount, count_eq_zero.2 fun root => out (.root root), zero_add]
    refine sum_eq_zero fun n hn => ?_
    obtain ⟨p, hp, rfl⟩ := mem_map.1 hn
    exact count_eq_zero.2 fun child => out (.child (mem_traversal.1 hp) child)

/-- A square next to what is squared. -/
theorem traversal_square : ∃ x y : Expr ℚ, (traversal [.binary .product x x, x]).Nodup ∧ x ∈ traversal [.binary .product x x, x] ∧
    (refCount [.binary .product x x, x]).getD y 0 = 0 := by
  let x : Expr ℚ := .var "x" []
  obtain ⟨nodup, mem, -, -, none⟩ := traversal_exact [.binary .product x x, x]
  have reached : ∀ p, Reachable [.binary .product x x, x] p → p = .binary .product x x ∨ p = x := by
    intro p reach
    induction reach with
    | root mem => simpa using mem
    | child _ mem ih => rcases ih with rfl | rfl <;> simp_all [children, x]
  exact ⟨x, .zero [], nodup, (mem x).2 (.root (by simp)), none _ fun reach => by simpa [x] using reached _ reach⟩

end Expr

end FormCompiler
