import FormCompiler.Proofs.Fusion
import FormCompiler.Proofs.Order
import FormCompiler.Proofs.Rational

/-!
# Loop trees keep the schedule

An operation in a tree has a path: the loops around it, each with its position in the block that it is in. Two operations
are in the same loops to some depth if their paths begin alike. They are where nothing scheduled between them, be it a place
that only holds an expression, needs other loops.
-/

namespace FormCompiler

open List

namespace Statement

variable {K : Type}

/-- An operation with the loops around it and their positions. -/
abbrev Placed (K : Type) := List (Nat × Index) × Operation K

mutual

/-- The operations of the statement at some position of a block. -/
def placed : Nat → Statement K → List (Placed K)
  | _, .run op => [([], op)]
  | n, .loop i body => (placedAll 0 body).map fun p => ((n, i) :: p.1, p.2)

/-- The operations of the statements of a block from some position on. -/
def placedAll : Nat → List (Statement K) → List (Placed K)
  | _, [] => []
  | n, s :: ss => placed n s ++ placedAll (n + 1) ss

end

/-- Each loop does something. -/
inductive Filled : Statement K → Prop where
  | run (op : Operation K) : Filled (.run op)
  | loop {i : Index} {body : List (Statement K)} : body ≠ [] → (∀ s ∈ body, Filled s) → Filled (.loop i body)

def Placed.pending (p : Placed K) : Pending K := (p.1.map Prod.snd, p.2)

/-- What a tree has to do: everything but places that only hold an expression. -/
def kept (ps : List (Pending K)) : List (Pending K) := ps.filter fun p => !p.2.isHold

/-- Two operations of a schedule, with what is scheduled before and between them, are placed in that order, and share as many
loops as everything from the one to the other needs alike. -/
def Shares (ls : List (Placed K)) (pre : List (Pending K)) (p : Pending K) (mid : List (Pending K)) (q : Pending K) : Prop :=
  ∃ before P between Q after, ls = before ++ P :: (between ++ Q :: after) ∧ before.map Placed.pending = kept pre ∧ P.pending = p ∧
    between.map Placed.pending = kept mid ∧ Q.pending = q ∧ ∀ m ≤ p.1.length, m ≤ q.1.length →
      (P.1.take m = Q.1.take m ↔ ∀ r ∈ mid ++ [q], r.1.take m = p.1.take m)

/-- Placed operations follow a schedule. -/
structure Follows (ps : List (Pending K)) (ls : List (Placed K)) : Prop where
  /-- They are in the order of the schedule, each within the loops that it needs. -/
  inOrder : ls.map Placed.pending = kept ps
  sharing : ∀ {pre p mid q post}, ps = pre ++ p :: (mid ++ q :: post) → p.2.isHold = false → q.2.isHold = false →
    Shares ls pre p mid q

theorem kept_append (ps qs : List (Pending K)) : kept (ps ++ qs) = kept ps ++ kept qs := filter_append ..

theorem placedAll_append (n : Nat) (ss ts : List (Statement K)) :
    placedAll n (ss ++ ts) = placedAll n ss ++ placedAll (n + ss.length) ts := by
  induction ss generalizing n with
  | nil => simp [placedAll]
  | cons s ss ih => simp [placedAll, ih, Nat.add_assoc, Nat.add_comm 1]

/-- The outermost loop of an operation is at a position of the block. -/
theorem outer_placedAll {n : Nat} {ss : List (Statement K)} {P : Placed K} (h : P ∈ placedAll n ss) {a : Nat × Index}
    (ha : a ∈ P.1.head?) : n ≤ a.1 ∧ a.1 < n + ss.length := by
  induction ss generalizing n with
  | nil => cases h
  | cons s ss ih =>
    rw [placedAll, mem_append] at h
    rcases h with h | h
    · cases s with
      | run op =>
        rw [placed, mem_singleton] at h
        subst h
        cases ha
      | loop i body =>
        rw [placed] at h
        obtain ⟨p, -, rfl⟩ := mem_map.1 h
        cases ha
        simp
    · have := ih h
      rw [length_cons]
      omega

theorem head?_of_take {α : Type} {xs ys : List α} {m : Nat} (h : xs.take (m + 1) = ys.take (m + 1)) : xs.head? = ys.head? := by
  simpa [head?_take] using congrArg head? h

variable {ps qs pre mid post : List (Pending K)} {p q : Pending K} {ls ms : List (Placed K)}

/-- An operation of a schedule is found where it is expected. -/
theorem find (order : ls.map Placed.pending = kept (pre ++ p :: post)) (does : p.2.isHold = false) :
    ∃ before P after, ls = before ++ P :: after ∧ before.map Placed.pending = kept pre ∧ P.pending = p ∧
      after.map Placed.pending = kept post := by
  rw [kept_append, kept, kept, filter_cons_of_pos (by simp [does])] at order
  obtain ⟨before, rest, rfl, hbefore, hrest⟩ := map_eq_append_iff.1 order
  obtain ⟨P, after, rfl, hP, hafter⟩ := map_eq_cons_iff.1 hrest
  exact ⟨before, P, after, rfl, hbefore, hP, hafter⟩

/-- Operations of two schedules one after the other share no loop if the second begins with another loop than that in which the
first ends. -/
theorem Follows.across {as bs : List (Pending K)} (hp : Follows (pre ++ p :: as) ls) (hq : Follows (bs ++ q :: post) ms)
    (apart : ∀ P ∈ ls, ∀ Q ∈ ms, ∀ a ∈ P.1.head?, a ∉ Q.1.head?)
    (border : ∀ a ∈ (pre ++ p :: as).getLast?, ∀ b ∈ (bs ++ q :: post).head?, a.1.head? ≠ b.1.head?)
    (doesP : p.2.isHold = false) (doesQ : q.2.isHold = false) : Shares (ls ++ ms) pre p (as ++ bs) q := by
  obtain ⟨before, P, between, rfl, hbefore, rfl, hbetween⟩ := find hp.inOrder doesP
  obtain ⟨between', Q, after, rfl, hbetween', rfl, -⟩ := find hq.inOrder doesQ
  refine ⟨before, P, between ++ between', Q, after, by simp, hbefore, rfl, by rw [map_append, hbetween, hbetween', kept_append], rfl,
    fun m hm _ => ?_⟩
  cases m with
  | zero => simp
  | succ m =>
    refine ⟨fun same => absurd (head?_of_take same) ?_, fun same => ?_⟩
    · obtain ⟨a, l, hP⟩ := exists_cons_of_length_pos (l := P.1) (by simpa [Placed.pending] using Nat.zero_lt_of_lt hm)
      have := apart P (by simp) Q (by simp) a (by simp [hP])
      simpa [hP, eq_comm] using this
    · obtain ⟨a, ha⟩ : ∃ a, a ∈ (P.pending :: as).getLast? := ⟨_, getLast?_cons ..⟩
      obtain ⟨b, hb⟩ : ∃ b, b ∈ (bs ++ [Q.pending]).head? := by cases bs <;> simp
      refine absurd ?_ (border a (by simpa using ha) b (by cases bs <;> simpa using hb))
      have left : a.1.head? = P.pending.1.head? := by
        rcases mem_cons.1 (mem_of_getLast? ha) with rfl | mem
        · rfl
        · exact head?_of_take (same a (by simp [mem]))
      rw [left]
      exact (head?_of_take (same b (append_assoc as bs _ ▸ mem_append_right _ (mem_of_head? hb)))).symm

/-- Two schedules one after the other. -/
theorem Follows.append (hp : Follows ps ls) (hq : Follows qs ms) (apart : ∀ P ∈ ls, ∀ Q ∈ ms, ∀ a ∈ P.1.head?, a ∉ Q.1.head?)
    (border : ∀ a ∈ ps.getLast?, ∀ b ∈ qs.head?, a.1.head? ≠ b.1.head?) : Follows (ps ++ qs) (ls ++ ms) := by
  refine ⟨by rw [map_append, hp.inOrder, hq.inOrder, kept_append], fun {pre p mid q post} eq doesP doesQ => ?_⟩
  have second {as} (eq : qs = as ++ p :: (mid ++ q :: post)) : Shares (ls ++ ms) (ps ++ as) p mid q := by
    obtain ⟨before, P, between, Q, after, rfl, hbefore, rest⟩ := hq.sharing eq doesP doesQ
    exact ⟨ls ++ before, P, between, Q, after, by simp, by rw [map_append, hp.inOrder, hbefore, kept_append], rest⟩
  rcases append_eq_append_iff.1 eq with ⟨as, rfl, hqs⟩ | ⟨as, rfl, tail⟩
  · exact second hqs
  cases as with
  | nil => simpa using @second [] tail.symm
  | cons r as =>
    rw [cons_append, cons.injEq] at tail
    obtain ⟨rfl, tail⟩ := tail
    rcases append_eq_append_iff.1 tail with ⟨bs, rfl, rest⟩ | ⟨bs, rfl, rfl⟩
    · cases bs with
      | nil =>
        obtain rfl : [] ++ q :: post = qs := rest
        simpa using hp.across hq apart border doesP doesQ
      | cons r bs =>
        rw [cons_append, cons.injEq] at rest
        obtain ⟨rfl, rfl⟩ := rest
        obtain ⟨before, P, between, Q, after, rfl, rest⟩ := hp.sharing rfl doesP doesQ
        exact ⟨before, P, between, Q, after ++ ms, by simp, rest⟩
    · exact hp.across hq apart border doesP doesQ

/-- Operations that need no loops share none. -/
theorem follows_plain (n : Nat) (plain : ∀ p ∈ ps, p.1 = []) :
    Follows ps (placedAll n (ps.filterMap fun p => if p.2.isHold then none else some (.run p.2))) := by
  have order : (placedAll n (ps.filterMap fun p => if p.2.isHold then none else some (.run p.2))).map Placed.pending = kept ps := by
    induction ps generalizing n with
    | nil => rfl
    | cons p ps ih =>
      obtain ⟨is, op⟩ := p
      obtain rfl : is = [] := plain _ mem_cons_self
      have rest (n) := ih n fun p hp => plain p (mem_cons_of_mem _ hp)
      cases hold : op.isHold <;> simp_all [kept, placedAll, placed, Placed.pending]
  refine ⟨order, fun {pre p mid q post} eq doesP doesQ => ?_⟩
  subst eq
  obtain ⟨before, P, rest, split, hbefore, hP, order⟩ := find order doesP
  obtain ⟨between, Q, after, rfl, hbetween, hQ, -⟩ := find order doesQ
  refine ⟨before, P, between, Q, after, split, hbefore, hP, hbetween, hQ, fun m hm _ => ?_⟩
  rw [plain p (by simp), length_nil, Nat.le_zero] at hm
  simp [hm]

/-- A loop around a schedule. -/
theorem Follows.within (h : Follows ps ls) (n : Nat) (i : Index) :
    Follows (ps.map fun p => (i :: p.1, p.2)) (ls.map fun P => ((n, i) :: P.1, P.2)) := by
  have keep (qs : List (Pending K)) : kept (qs.map fun p => (i :: p.1, p.2)) = (kept qs).map fun p => (i :: p.1, p.2) := filter_map ..
  have pending (ms : List (Placed K)) : (ms.map fun P => ((n, i) :: P.1, P.2)).map Placed.pending =
      (ms.map Placed.pending).map fun p => (i :: p.1, p.2) := by simp [Placed.pending]
  refine ⟨by rw [pending, h.inOrder, keep], fun whole doesP doesQ => ?_⟩
  obtain ⟨pre, rest, rfl, rfl, fromP⟩ := map_eq_append_iff.1 whole
  obtain ⟨p, rest, rfl, rfl, afterP⟩ := map_eq_cons_iff.1 fromP
  obtain ⟨mid, rest, rfl, rfl, fromQ⟩ := map_eq_append_iff.1 afterP
  obtain ⟨q, post, rfl, rfl, rfl⟩ := map_eq_cons_iff.1 fromQ
  obtain ⟨before, P, between, Q, after, rfl, hbefore, rfl, hbetween, rfl, same⟩ := h.sharing rfl doesP doesQ
  rw [map_append, map_cons, map_append, map_cons]
  refine ⟨_, _, _, _, _, rfl, by rw [pending, hbefore, keep], rfl, by rw [pending, hbetween, keep], rfl, fun m hm hm' => ?_⟩
  cases m with
  | zero => simp
  | succ m =>
    have same := same m (Nat.le_of_succ_le_succ hm) (Nat.le_of_succ_le_succ hm')
    simpa only [forall_mem_append, forall_mem_map, forall_mem_singleton, take_succ_cons, cons.injEq, true_and] using same

/-- Runs of operations one after the other, each of which begins with another loop than that of the one before. -/
theorem follows_runs {make : List (Pending K) → List (Statement K)} {rs : List (List (Pending K))}
    (each : ∀ r ∈ rs, ∀ n, Follows r (placedAll n (make r)))
    (chain : rs.IsChain fun a b => ∃ ha hb, (a.getLast ha).1.head? ≠ (b.head hb).1.head?) (n : Nat) :
    Follows rs.flatten (placedAll n (rs.flatMap make)) := by
  induction rs generalizing n with
  | nil => exact ⟨rfl, fun h => by simp at h⟩
  | cons r rs ih =>
    rw [flatten_cons, flatMap_cons, placedAll_append]
    refine (each r mem_cons_self n).append (ih (fun r hr => each r (mem_cons_of_mem _ hr)) chain.tail _) ?_ ?_
    · intro P hP Q hQ a ha ha'
      have := outer_placedAll hP ha
      have := outer_placedAll hQ ha'
      omega
    · intro a ha b hb
      cases rs with
      | nil => cases hb
      | cons s rs =>
        obtain ⟨full, full', differ⟩ := (isChain_cons_cons.1 chain).1
        rw [flatten_cons, head?_append_of_ne_nil _ full', head?_eq_some_head full'] at hb
        rw [getLast?_eq_some_getLast full] at ha
        cases ha
        cases hb
        exact differ

/-- Gathered operations follow their schedule. -/
theorem follows_gather {depth : Nat} (deep : ∀ p ∈ ps, p.1.length ≤ depth) (n : Nat) : Follows ps (placedAll n (gather depth ps)) := by
  induction depth generalizing ps n with
  | zero => exact follows_plain n fun p hp => length_eq_zero_iff.1 (Nat.le_zero.1 (deep p hp))
  | succ depth ih =>
    rw [gather]
    nth_rewrite 1 [← flatten_splitBy (fun a b : Pending K => a.1.head? == b.1.head?) ps]
    refine follows_runs (fun r hr n => ?_) ?_ n
    · obtain ⟨part, full, outer | ⟨i, loop⟩⟩ := outer_of_mem_splitBy hr
      · rw [ofRun_nil outer]
        exact follows_plain n outer
      · have shallow : ∀ q ∈ r.map fun p => (p.1.drop 1, p.2), q.1.length ≤ depth := by
          intro q hq
          obtain ⟨p, hp, rfl⟩ := mem_map.1 hq
          have := deep p (part.subset hp)
          simp only [length_drop]
          omega
        have whole : (r.map fun p => (p.1.drop 1, p.2)).map (fun p => (i :: p.1, p.2)) = r := by
          rw [map_map]
          conv_rhs => rw [← map_id r]
          exact map_congr_left fun p hp => Prod.ext (loop p hp).symm rfl
        have inner := (ih shallow 0).within n i
        rw [whole] at inner
        rw [ofRun_cons full loop]
        split
        · rename_i empty
          rwa [empty] at inner
        · simpa [placedAll, placed] using inner
    · refine (isChain_getLast_head_splitBy _ _).imp fun a b border => ?_
      obtain ⟨ha, hb, differ⟩ := border
      exact ⟨ha, hb, by simpa using differ⟩

mutual

theorem operations_eq (n : Nat) : (s : Statement K) → s.operations = (placed n s).map Prod.snd
  | .run _ => rfl
  | .loop _ body => by
    rw [operations, placed, operationsOf_eq 0 body, map_map]
    rfl

theorem operationsOf_eq (n : Nat) : (ss : List (Statement K)) → operationsOf ss = (placedAll n ss).map Prod.snd
  | [] => rfl
  | s :: ss => by rw [operationsOf, placedAll, map_append, operations_eq n s, operationsOf_eq (n + 1) ss]

end

/-- The operations of a gathered program are those gathered, places aside. -/
theorem operationsOf_gather {depth : Nat} (deep : ∀ p ∈ ps, p.1.length ≤ depth) :
    operationsOf (gather depth ps) = (ps.map Prod.snd).filter fun op => !op.isHold := by
  have order := congrArg (map Prod.snd) (follows_gather deep 0).inOrder
  rw [map_map] at order
  rw [operationsOf_eq 0, filter_map]
  exact order

/-- A property of gathered statements and the loops around them, given how these loops go with those still to come. -/
theorem forall_gather {P : List Index → Statement K → Prop} {C : List Index → List Index → Prop}
    (run : ∀ {outer loops op}, C outer loops → P outer (.run op))
    (inner : ∀ {outer i loops}, C outer (i :: loops) → C (outer ++ [i]) loops)
    (loop : ∀ {outer i loops body}, C outer (i :: loops) → body ≠ [] → (∀ s ∈ body, P (outer ++ [i]) s) → P outer (.loop i body))
    {depth : Nat} (outer : List Index) (h : ∀ p ∈ ps, C outer p.1) : ∀ s ∈ gather depth ps, P outer s := by
  have plain {outer : List Index} {ps : List (Pending K)} (h : ∀ p ∈ ps, C outer p.1) :
      ∀ s ∈ ps.filterMap fun p => if p.2.isHold then none else some (.run p.2), P outer s := by
    intro s hs
    obtain ⟨p, hp, hs⟩ := mem_filterMap.1 hs
    split at hs
    · cases hs
    · cases hs
      exact run (h p hp)
  induction depth generalizing ps outer with
  | zero => exact plain h
  | succ depth ih =>
    intro s hs
    obtain ⟨r, hr, hs⟩ := mem_flatMap.1 hs
    obtain ⟨part, full, none | ⟨i, first⟩⟩ := outer_of_mem_splitBy hr
    · rw [ofRun_nil none] at hs
      exact plain (fun p hp => h p (part.subset hp)) s hs
    · rw [ofRun_cons full first] at hs
      split at hs
      · cases hs
      · rename_i some
        have here : ∀ p ∈ r, C outer (i :: p.1.drop 1) := fun p hp => first p hp ▸ h p (part.subset hp)
        obtain ⟨p, hp⟩ := exists_mem_of_ne_nil r full
        exact mem_singleton.1 hs ▸ loop (here p hp) some (ih (outer ++ [i]) (forall_mem_map.2 fun p hp => inner (here p hp)))

theorem filled_gather {depth : Nat} : ∀ s ∈ gather depth ps, Filled s :=
  forall_gather (P := fun _ => Filled) (C := fun _ _ => True) (fun _ => .run _) (fun _ => trivial) (fun _ => .loop) [] fun _ _ => trivial

/-- No loop is over an index of the loops around it. -/
inductive Unrepeated : List Index → Statement K → Prop where
  | run {outer : List Index} {op : Operation K} : outer.Nodup → Unrepeated outer (.run op)
  | loop {outer : List Index} {i : Index} {body : List (Statement K)} : (outer ++ [i]).Nodup →
    (∀ s ∈ body, Unrepeated (outer ++ [i]) s) → Unrepeated outer (.loop i body)

theorem unrepeated_gather {depth : Nat} (once : ∀ p ∈ ps, p.1.Nodup) : ∀ s ∈ gather depth ps, Unrepeated [] s :=
  forall_gather (C := fun outer loops => (outer ++ loops).Nodup) (fun h => .run h.of_append_left) (fun h => by simpa using h)
    (fun h _ => .loop (h.sublist (by simp))) [] once

/-- Whatever loops the operations need, the tree into which they are gathered follows their order, and has no loop that does
nothing. If the order of loops has all indices, there is a tree for it. -/
theorem loopTree_follows (K : Type) :
    (∀ (ps : List (Pending K)) (depth : Nat), (∀ p ∈ ps, p.1.length ≤ depth) →
      Follows ps (placedAll 0 (gather depth ps)) ∧ ∀ s ∈ gather depth ps, Filled s) ∧
    ∀ (order : IndexOrder) (ops : List (Operation K)), (∀ op ∈ ops, ∀ i ∈ op.loopExpr.freeIndices, i ∈ order) →
      ∃ tree, ofOperations order ops = pure tree ∧ Follows (ops.map fun op => (op.loops order, op)) (placedAll 0 tree) ∧
        ∀ s ∈ tree, Filled s := by
  refine ⟨fun ps depth deep => ⟨follows_gather deep 0, filled_gather⟩, fun order ops loops => ?_⟩
  obtain ⟨depth, deep, gathered⟩ := ofOperations_eq loops
  exact ⟨_, gathered, follows_gather (forall_mem_map.2 deep) 0, filled_gather⟩

/-- Two operations with a place between them that needs no loop are in two loops. -/
theorem loopTree_follows_split : ∃ (a : Operation ℚ) (P Q : List (Nat × Index)), P ≠ Q ∧
    Follows [([⟨0⟩], a), ([], .hold (.zero [])), ([⟨0⟩], a)] [(P, a), (Q, a)] :=
  ⟨.evaluate (.var "a" []), [(0, ⟨0⟩)], [(1, ⟨0⟩)], by decide, ((loopTree_follows ℚ).1 _ 1 (by simp)).1⟩

end Statement

end FormCompiler
