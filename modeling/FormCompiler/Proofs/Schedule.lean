import FormCompiler.Proofs.Order
import FormCompiler.Proofs.Queue
import FormCompiler.Proofs.Traversal
import FormCompiler.Schedule.Emit

/-!
# The schedule is complete and in order

Scheduling goes backwards, from what is returned to what is needed for it. The count that is kept for a node is the
number of references to it from what is still to be scheduled. Each node is therefore provided once, after all that
refers to it, and in the order of execution before it. This holds whatever the queue chooses to do next.
-/

namespace FormCompiler

open FormCompiler.Expr List

variable {K : Type}

/-! ## What operations and tasks are about -/

namespace Operation

/-- The node that an operation works for; what is given to a variable works for none. -/
def subject? : Operation K → Option (Expr K)
  | .evaluate e | .initialise e | .accumulate e | .hold e => some e
  | .give _ _ | .giveSum _ _ => none

/-- The nodes that an operation refers to. -/
def refs : Operation K → List (Expr K)
  | .evaluate e => e.children
  | .accumulate s | .giveSum _ s => [summand s]
  | .give _ e => [e]
  | .initialise _ | .hold _ => []

end Operation

namespace Expr

/-- The tensor whose entries an expression takes, through all indexings. -/
def source : Expr K → Expr K
  | .indexed t _ => t.source
  | e => e
termination_by e => sizeOf e

/-- Is the expression a sum over indices? -/
def isSum : Expr K → Bool
  | .indexSum _ _ => true
  | _ => false

/-- Is the expression computed by an operation of its own? -/
def isComputed (e : Expr K) : Bool :=
  match e with
  | .var _ _ | .indexed _ _ | .access _ _ _ | .indexSum _ _ => false
  | .zero _ | .identity _ | .literal _ _ => !e.shape.isEmpty
  | _ => true

/-- The operations that provide an expression, in the order of execution. -/
def providers (e : Expr K) : List (Operation K) :=
  if e.isSum then [.initialise e, .accumulate e, .hold e] else if e.isComputed then [.evaluate e] else []

end Expr

namespace Schedule

namespace Task

/-- The node that a task works for. -/
def subject? : Task K → Option (Expr K)
  | .provide e => some e
  | .run op => op.subject?

/-- The nodes that are referred to until the task is done. -/
def refs : Task K → List (Expr K)
  | .provide e => e.children
  | .run op => op.refs

/-- What a task gives to a variable. -/
def give? : Task K → Option (Operation K)
  | .run (.give v e) => some (.give v e)
  | .run (.giveSum v s) => some (.giveSum v s)
  | _ => none

/-- How many tasks come of one. -/
def weight : Task K → Nat
  | .provide e => if e.isSum then 3 else 1
  | .run (.accumulate _) => 2
  | .run _ => 1

end Task

/-! ## Stages -/

/-- How far a node has come: the tasks left for it, and the operations found for it. A sum that is given directly has
neither. -/
inductive Stage (direct : List (Expr K)) (x : Expr K) : Multiset (Task K) → List (Operation K) → Prop where
  | waiting : x ∉ direct → Stage direct x {.provide x} []
  | held : x ∉ direct → x.isSum → Stage direct x {.run (.accumulate x)} [.hold x]
  | added : x ∉ direct → x.isSum → Stage direct x {.run (.initialise x)} [.accumulate x, .hold x]
  | done : x ∉ direct → Stage direct x 0 x.providers
  | direct : x ∈ direct → Stage direct x 0 []

namespace Stage

variable {direct : List (Expr K)} {x : Expr K} {ts : Multiset (Task K)} {os : List (Operation K)}

theorem card_le_one (h : Stage direct x ts os) : ts.card ≤ 1 := by
  cases h <;> simp

theorem of_zero (h : Stage direct x 0 os) : x ∉ direct ∧ os = x.providers ∨ x ∈ direct ∧ os = [] := by
  generalize hts : (0 : Multiset (Task K)) = ts at h
  cases h with
  | done out => exact .inl ⟨out, rfl⟩
  | direct mem => exact .inr ⟨mem, rfl⟩
  | _ => simp at hts

theorem mem_cases (h : Stage direct x ts os) {t : Task K} (mem : t ∈ ts) :
    t = .provide x ∨ t = .run (.accumulate x) ∨ t = .run (.initialise x) := by
  cases h <;> simp_all

theorem of_provide (h : Stage direct x ts os) (mem : .provide x ∈ ts) : x ∉ direct ∧ ts = {.provide x} ∧ os = [] := by
  cases h with
  | waiting out => exact ⟨out, rfl, rfl⟩
  | _ => simp at mem

theorem of_accumulate (h : Stage direct x ts os) (mem : .run (.accumulate x) ∈ ts) :
    x ∉ direct ∧ x.isSum ∧ ts = {.run (.accumulate x)} ∧ os = [.hold x] := by
  cases h with
  | held out sum => exact ⟨out, sum, rfl, rfl⟩
  | _ => simp at mem

theorem of_initialise (h : Stage direct x ts os) (mem : .run (.initialise x) ∈ ts) :
    x ∉ direct ∧ x.isSum ∧ ts = {.run (.initialise x)} ∧ os = [.accumulate x, .hold x] := by
  cases h with
  | added out sum => exact ⟨out, sum, rfl, rfl⟩
  | _ => simp at mem

end Stage

/-! ## Accounts -/

variable [Scalar K] [LawfulBEq (Expr K)]

/-- The operation is not about anything that the other refers to. -/
def Precedes (o p : Operation K) : Prop := ∀ x ∈ o.refs, p.subject? ≠ some x.source

/-- What holds between the tasks left, the operations found and the references counted. Those in debt are about to be
taken away. -/
structure Accounts (N direct : List (Expr K)) (staged : Multiset (Operation K)) (debt : List (Expr K))
    (tasks : Multiset (Task K)) (ops : List (Operation K)) (refs : Expr K → Nat) : Prop where
  balance (e : Expr K) : refs e = debt.count e + (tasks.map fun t => t.refs.count e).sum
  unready {e : Expr K} : 0 < refs e → e ∈ N ∧ .provide e ∈ tasks
  stage {x : Expr K} : x ∈ N →
    Stage direct x (tasks.filter fun t => t.subject? = some x) (ops.filter fun op => op.subject? = some x)
  task {t : Task K} {x : Expr K} : t ∈ tasks → t.subject? = some x → x ∈ N
  op {o : Operation K} {x : Expr K} : o ∈ ops → o.subject? = some x → x ∈ N
  gives : tasks.filterMap Task.give? + (ops.filter fun op => op.subject? = none : List (Operation K)) = staged
  ordered : ops.Pairwise Precedes

namespace Accounts

variable {N direct debt : List (Expr K)} {staged : Multiset (Operation K)} {tasks : Multiset (Task K)}
  {ops : List (Operation K)} {refs : Expr K → Nat}

/-- Nothing has been found for a node to which references are left, nor for what it takes entries of. -/
theorem subject_ne_source (h : Accounts N direct staged debt tasks ops refs) {x : Expr K} (hx : 0 < refs x)
    {p : Operation K} (hp : p ∈ ops) : p.subject? ≠ some x.source := by
  obtain ⟨mem, task⟩ := h.unready hx
  by_cases ix : ∃ t slots, x = .indexed t slots
  · obtain ⟨t, slots, rfl⟩ := ix
    have inner : 0 < refs t := by
      have one : 1 ≤ (tasks.map fun u => u.refs.count t).sum := by
        refine le_trans ?_ (Multiset.le_sum_of_mem (Multiset.mem_map_of_mem _ task))
        simp [Task.refs, children]
      have := h.balance t
      omega
    rw [source]
    exact subject_ne_source h inner hp
  · have plain : x.source = x := by
      cases x <;> simp_all [source]
    rw [plain]
    intro about
    obtain ⟨-, -, none⟩ := (h.stage mem).of_provide (Multiset.mem_filter.2 ⟨task, rfl⟩)
    have found : p ∈ ops.filter fun op => op.subject? = some x := mem_filter.2 ⟨hp, by simpa using about⟩
    rw [none] at found
    exact not_mem_nil found
termination_by sizeOf x

variable {t : Task K} {rest : Multiset (Task K)} {x : Expr K}

/-- No two tasks are for the same node. -/
theorem rest_eq_zero (h : Accounts N direct staged debt (t ::ₘ rest) ops refs) (hx : x ∈ N) (about : t.subject? = some x) :
    (rest.filter fun u => u.subject? = some x) = 0 := by
  have one := (h.stage hx).card_le_one
  rw [Multiset.filter_cons_of_pos (p := fun u : Task K => u.subject? = some x) rest about, Multiset.card_cons] at one
  exact Multiset.card_eq_zero.1 (by omega)

/-- One task is done: others take its place, an operation may be found, and references come due. -/
theorem advance (h : Accounts N direct staged [] (t ::ₘ rest) ops refs)
    (next : Multiset (Task K)) (new : List (Operation K)) (debt : List (Expr K))
    (due : ∀ e, t.refs.count e = debt.count e + (next.map fun u => u.refs.count e).sum)
    (ready : ∀ e, t = .provide e → refs e = 0)
    (single : new.length ≤ 1) (reads : ∀ o ∈ new, o.refs ⊆ t.refs)
    (gives : next.filterMap Task.give? + (new.filter fun op => op.subject? = none : List (Operation K)) =
      Multiset.filterMap Task.give? {t})
    (aboutTasks : ∀ u ∈ next, u.subject? = t.subject?) (aboutOps : ∀ o ∈ new, o.subject? = t.subject?)
    (stage : ∀ x, x ∈ N → t.subject? = some x → (rest.filter fun u => u.subject? = some x) = 0 ∧
      Stage direct x next (new ++ ops.filter fun op => op.subject? = some x)) :
    Accounts N direct staged debt (next + rest) (new ++ ops) refs where
  balance e := by
    have old := h.balance e
    rw [Multiset.map_cons, Multiset.sum_cons, due e] at old
    rw [Multiset.map_add, Multiset.sum_add]
    simp only [count_nil] at old
    omega
  unready {e} he := by
    obtain ⟨mem, task⟩ := h.unready he
    refine ⟨mem, ?_⟩
    rcases Multiset.mem_cons.1 task with same | task
    · have := ready e same.symm
      omega
    · exact Multiset.mem_add.2 (.inr task)
  stage {x} hx := by
    rw [Multiset.filter_add, filter_append]
    by_cases about : t.subject? = some x
    · obtain ⟨rest0, stage'⟩ := stage x hx about
      rw [rest0, add_zero, Multiset.filter_eq_self.2 fun u hu => by rw [aboutTasks u hu, about],
        filter_eq_self.2 fun o ho => by rw [aboutOps o ho, about]; simp]
      exact stage'
    · rw [Multiset.filter_eq_nil.2 fun u hu => by rwa [aboutTasks u hu], zero_add,
        filter_eq_nil_iff.2 fun o ho => by simpa [aboutOps o ho] using about, nil_append]
      have old := h.stage hx
      rwa [Multiset.filter_cons_of_neg (p := fun u : Task K => u.subject? = some x) rest about] at old
  task {u x} hu about := by
    rcases Multiset.mem_add.1 hu with hu | hu
    · exact h.task (Multiset.mem_cons_self t rest) ((aboutTasks u hu).symm.trans about)
    · exact h.task (Multiset.mem_cons_of_mem hu) about
  op {o x} ho about := by
    rcases mem_append.1 ho with ho | ho
    · exact h.task (Multiset.mem_cons_self t rest) ((aboutOps o ho).symm.trans about)
    · exact h.op ho about
  gives := by
    rw [← h.gives, ← Multiset.singleton_add, Multiset.filterMap_add, Multiset.filterMap_add, ← gives,
      filter_append, ← Multiset.coe_add]
    ac_rfl
  ordered := by
    refine pairwise_append.2 ⟨?_, h.ordered, fun o ho p hp x hx => ?_⟩
    · match new, single with
      | [], _ => exact Pairwise.nil
      | [o], _ => exact pairwise_singleton _ o
    · refine h.subject_ne_source ?_ hp
      have counted : 0 < t.refs.count x := count_pos_iff.2 (reads o ho hx)
      have := h.balance x
      rw [Multiset.map_cons, Multiset.sum_cons] at this
      omega

/-- A reference that is due is taken away. -/
theorem pay {refs' : Expr K → Nat} (h : Accounts N direct staged (x :: debt) tasks ops refs)
    (here : refs' x + 1 = refs x) (others : ∀ e, e ≠ x → refs' e = refs e) :
    Accounts N direct staged debt tasks ops refs' where
  balance e := by
    have old := h.balance e
    by_cases same : e = x
    · subst same
      rw [count_cons_self] at old
      omega
    · rw [count_cons_of_ne (Ne.symm same)] at old
      rw [others e same]
      exact old
  unready {e} he := by
    refine h.unready ?_
    by_cases same : e = x
    · subst same
      omega
    · rwa [others e same] at he
  stage := h.stage
  task := h.task
  op := h.op
  gives := h.gives
  ordered := h.ordered

end Accounts

/-! ## States of scheduling -/

/-- A computation that ends in given states and leaves the session alone. -/
def Runs (x : Scheduling K Unit) (q : Queue Index (Task K)) (st : State K) (q' : Queue Index (Task K)) (st' : State K) :
    Prop := (x.run q).run st = pure (((), q'), st')

variable {q q' : Queue Index (Task K)} {st st' : State K} {order : IndexOrder} {op : Operation K} {x : Expr K}

section

omit [LawfulBEq (Expr K)]

theorem Runs.bind {x : Scheduling K Unit} {y : Unit → Scheduling K Unit} {q'' : Queue Index (Task K)}
    {st'' : State K} (hx : Runs x q st q' st') (hy : Runs (y ()) q' st' q'' st'') :
    Runs (x >>= y) q st q'' st'' := by
  unfold Runs at *
  rw [StateT.run_bind, StateT.run_bind, hx, pure_bind]
  exact hy

theorem Runs.run' {x : Scheduling K Unit} (h : Runs x q st q' st') : (StateT.run' x q).run st = pure ((), st') := by
  have first : StateT.run' x q = Prod.fst <$> x.run q := rfl
  rw [first, StateT.run_map, h]
  rfl

theorem runs_pure (q : Queue Index (Task K)) (st : State K) : Runs (pure ()) q st q st := rfl

theorem runs_emit (op : Operation K) (q : Queue Index (Task K)) (st : State K) :
    Runs (emit op) q st q { st with operations := op :: st.operations } := rfl

theorem runs_push (h : ∀ i ∈ op.loopExpr.freeIndices, i ∈ order) (q : Queue Index (Task K)) (st : State K) :
    Runs (push order op) q st (q.insert (op.loops order) (.run op)) st := by
  unfold Runs push IndexOrder.loops
  rw [IndexOrder.sort_eq h]
  rfl

theorem runs_release (loops : ∀ i ∈ x.freeIndices, i ∈ order) {n : Nat} (hn : st.waiting[x]? = some (n + 1)) :
    Runs (release order x) q st (if n = 0 then q.insert (order.arranged x.freeIndices) (.provide x) else q)
      { st with waiting := st.waiting.insert x n } := by
  have read : ((getThe (State K) : Scheduling K (State K)).run q).run st = pure ((st, q), st) := rfl
  unfold Runs release IndexOrder.loops
  rw [StateT.run_bind, StateT.run_bind, read, pure_bind, IndexOrder.sort_eq loops]
  simp only [hn]
  split <;> rfl

end

/-- The tasks left: those in the queue, and the nodes that wait for references. -/
def pending (N : List (Expr K)) (q : Queue Index (Task K)) (st : State K) : Multiset (Task K) :=
  q.pool + ((N.filter fun e => 0 < st.waiting.getD e 0).map Task.provide : List (Task K))

/-- The queue is tidy and the accounts are in balance. -/
structure Invariant (N direct : List (Expr K)) (staged : Multiset (Operation K)) (debt : List (Expr K))
    (q : Queue Index (Task K)) (st : State K) : Prop where
  tidy : q.Tidy
  accounts : Accounts N direct staged debt (pending N q st) st.operations fun e => st.waiting.getD e 0

/-- The nodes to be provided: each once, with their children, and with loops in the order. -/
structure Closed (N : List (Expr K)) (order : IndexOrder) : Prop where
  nodup : N.Nodup
  child {p c : Expr K} : p ∈ N → c ∈ p.children → c ∈ N
  ordered {e : Expr K} {i : Index} : e ∈ N → i ∈ e.freeIndices → i ∈ order

variable {N direct debt : List (Expr K)} {staged : Multiset (Operation K)} {order : IndexOrder}
  {q : Queue Index (Task K)} {st : State K}

/-- Taking away a reference that is due leaves all tasks as they are. -/
theorem Invariant.release (closed : Closed N order) (h : Invariant N direct staged (x :: debt) q st) :
    ∃ q' st', Runs (release order x) q st q' st' ∧ Invariant N direct staged debt q' st' ∧
      pending N q' st' = pending N q st ∧ st'.operations = st.operations := by
  have counted : 0 < st.waiting.getD x 0 := by
    have := h.accounts.balance x
    rw [count_cons_self] at this
    omega
  have mem := (h.accounts.unready counted).1
  obtain ⟨n, hn⟩ : ∃ n, st.waiting[x]? = some (n + 1) := by
    rw [Std.HashMap.getD_eq_getD_getElem?] at counted
    cases hx : st.waiting[x]? with
    | none => simp [hx] at counted
    | some m =>
      rw [hx, Option.getD_some] at counted
      exact ⟨m - 1, by congr 1; omega⟩
  have before : st.waiting.getD x 0 = n + 1 := by rw [Std.HashMap.getD_eq_getD_getElem?, hn, Option.getD_some]
  have after : ∀ e, (st.waiting.insert x n).getD e 0 = if x = e then n else st.waiting.getD e 0 := by
    intro e
    rw [Std.HashMap.getD_insert]
    simp only [beq_iff_eq]
  have paid : ∀ tasks, Accounts N direct staged (x :: debt) tasks st.operations (fun e => st.waiting.getD e 0) →
      Accounts N direct staged debt tasks st.operations fun e => (st.waiting.insert x n).getD e 0 := by
    intro tasks accounts
    refine accounts.pay ?_ fun e ne => ?_
    · rw [after, if_pos rfl, before]
    · rw [after, if_neg (Ne.symm ne)]
  by_cases zero : n = 0
  · subst zero
    have split : (N.filter fun e => 0 < st.waiting.getD e 0).Perm
        (x :: N.filter fun e => 0 < (st.waiting.insert x 0).getD e 0) := by
      refine (perm_ext_iff_of_nodup (closed.nodup.filter _)
        (nodup_cons.2 ⟨?_, closed.nodup.filter _⟩)).2 fun e => ?_
      · simp [after]
      · simp only [mem_filter, mem_cons, after, decide_eq_true_eq]
        by_cases same : x = e
        · subst same
          simp [mem, before]
        · simp [same, Ne.symm same]
    have tasks : pending N (q.insert (order.arranged x.freeIndices) (.provide x))
        { st with waiting := st.waiting.insert x 0 } = pending N q st := by
      rw [pending, pending, Queue.pool_insert, Multiset.coe_eq_coe.2 (split.map Task.provide), map_cons,
        ← Multiset.cons_coe, Multiset.add_cons, Multiset.cons_add]
    refine ⟨_, _, ?_, ⟨h.tidy.insert _ _, ?_⟩, tasks, rfl⟩
    · exact runs_release (fun i hi => closed.ordered mem hi) hn
    · rw [tasks]
      exact paid _ h.accounts
  · have tasks : pending N q { st with waiting := st.waiting.insert x n } = pending N q st := by
      have same : (N.filter fun e => 0 < (st.waiting.insert x n).getD e 0) = N.filter fun e => 0 < st.waiting.getD e 0 := by
        refine filter_congr fun e _ => ?_
        rw [after]
        split
        · rename_i here
          subst here
          simp only [before, decide_eq_decide]
          omega
        · rfl
      rw [pending, pending, same]
    refine ⟨q, { st with waiting := st.waiting.insert x n }, ?_, ⟨h.tidy, ?_⟩, tasks, rfl⟩
    · have := runs_release (q := q) (fun i hi => closed.ordered mem hi) hn
      rwa [if_neg zero] at this
    · rw [tasks]
      exact paid _ h.accounts

/-- Take away a reference to each of several expressions. -/
def releaseAll (order : IndexOrder) : List (Expr K) → Scheduling K Unit
  | [] => pure ()
  | c :: cs => do
    release order c
    releaseAll order cs

theorem Invariant.releaseAll {cs : List (Expr K)} (closed : Closed N order)
    (h : Invariant N direct staged (cs ++ debt) q st) :
    ∃ q' st', Runs (releaseAll order cs) q st q' st' ∧
      Invariant N direct staged debt q' st' ∧ pending N q' st' = pending N q st := by
  induction cs generalizing q st with
  | nil => exact ⟨q, st, runs_pure q st, h, rfl⟩
  | cons c cs ih =>
    obtain ⟨q₁, st₁, run₁, inv₁, same₁, -⟩ := h.release closed
    obtain ⟨q₂, st₂, run₂, inv₂, same₂⟩ := ih inv₁
    exact ⟨q₂, st₂, run₁.bind run₂, inv₂, same₂.trans same₁⟩

omit [LawfulBEq (Expr K)] in
theorem foldlM_release (cs : List (Expr K)) :
    cs.foldlM (fun _ c => release order c) PUnit.unit = releaseAll order cs := by
  induction cs with
  | nil => rfl
  | cons c cs ih => simp [releaseAll, ← ih]

variable {e : Expr K} {counts : RefCount K} {a : Expr K × Expr K} {roots : List (Expr K)} {assignments : List (Expr K × Expr K)}
  {ops : List (Operation K)}

omit [LawfulBEq (Expr K)] in
/-- Providing what is no sum: an operation if it is computed, then the references to its children. -/
theorem provide_eq (h : e.isSum = false) :
    provide order e = (if e.isComputed then emit (.evaluate e) else pure ()) >>= fun _ => releaseAll order e.children := by
  cases e <;> simp_all [provide, isSum, isComputed, children, releaseAll, foldlM_release]

/-- The number of tasks that are to come. -/
def weight (N : List (Expr K)) (q : Queue Index (Task K)) (st : State K) : Nat :=
  ((pending N q st).map Task.weight).sum

omit [LawfulBEq (Expr K)] in
theorem pending_insert (loops : List Index) (t : Task K) :
    pending N (q.insert loops t) st = t ::ₘ pending N q st := by
  rw [pending, pending, Queue.pool_insert, Multiset.cons_add]

/-- A computation that does a task which was taken out of the queue. -/
def Does (N direct : List (Expr K)) (staged : Multiset (Operation K)) (x : Scheduling K Unit) (t : Task K) : Prop :=
  ∀ {q st}, q.Tidy →
    Accounts N direct staged [] (t ::ₘ pending N q st) st.operations (fun e => st.waiting.getD e 0) →
    ∃ q' st', Runs x q st q' st' ∧ Invariant N direct staged [] q' st' ∧
      weight N q' st' + 1 = t.weight + weight N q st

theorem Does.provide (closed : Closed N order) : Does N direct staged (provide order e) (.provide e) := by
  intro q st tidy h
  have mem : e ∈ N := h.task (Multiset.mem_cons_self _ _) rfl
  have rest := h.rest_eq_zero mem rfl
  obtain ⟨out, -, none⟩ := (h.stage mem).of_provide (Multiset.mem_filter.2 ⟨Multiset.mem_cons_self _ _, rfl⟩)
  have ready : ∀ x, Task.provide e = .provide x → st.waiting.getD x 0 = 0 := by
    intro x same
    cases same
    by_contra counted
    have again : .provide e ∈ pending N q st :=
      Multiset.mem_add.2 (.inr (mem_map_of_mem (mem_filter.2 ⟨mem, by simpa using Nat.pos_of_ne_zero counted⟩)))
    have : .provide e ∈ (pending N q st).filter fun u => u.subject? = some e := Multiset.mem_filter.2 ⟨again, rfl⟩
    rw [rest] at this
    exact Multiset.notMem_zero _ this
  cases sum : e.isSum with
  | true =>
    obtain ⟨body, bs, rfl⟩ : ∃ body bs, e = .indexSum body bs := by cases e <;> simp_all [isSum]
    have child : body ∈ N := closed.child mem (by simp [children])
    have next := h.advance {.run (.accumulate (.indexSum body bs))} [.hold (.indexSum body bs)] []
      (fun x => by simp [Task.refs, Operation.refs, children, Operation.summand]) ready (by simp)
      (by simp [Operation.refs]) rfl
      (by simp [Task.subject?, Operation.subject?]) (by simp [Task.subject?, Operation.subject?])
      (fun x _ about => by
        cases about
        exact ⟨rest, by rw [none]; exact .held out sum⟩)
    refine ⟨_, _, (runs_emit _ q st).bind (runs_push (fun i hi => closed.ordered child hi) q _), ⟨tidy.insert _ _, ?_⟩, ?_⟩
    · rw [pending_insert]
      exact next
    · rw [weight, pending_insert, Multiset.map_cons, Multiset.sum_cons]
      simp only [Task.weight, sum, if_true]
      change 2 + weight N q st + 1 = _
      omega
  | false =>
    have providers : e.providers = if e.isComputed then [.evaluate e] else [] := by simp [providers, sum]
    have next := h.advance 0 e.providers e.children (fun x => by simp [Task.refs]) ready
      (by rw [providers]; split <;> simp)
      (by rw [providers]; split <;> simp [Operation.refs, Task.refs])
      (by rw [providers]; split <;> rfl)
      (by simp) (by rw [providers]; split <;> simp [Task.subject?, Operation.subject?])
      (fun x _ about => by
        cases about
        exact ⟨rest, by rw [none, append_nil]; exact .done out⟩)
    rw [zero_add] at next
    have emitted : Invariant N direct staged (e.children ++ []) q { st with operations := e.providers ++ st.operations } := by
      rw [append_nil]
      exact ⟨tidy, next⟩
    obtain ⟨q', st', run, inv, same⟩ := emitted.releaseAll closed
    refine ⟨q', st', ?_, inv, ?_⟩
    · have first : Runs (if e.isComputed then emit (.evaluate e) else pure ()) q st q
          { st with operations := e.providers ++ st.operations } := by
        rw [providers]
        split
        · exact runs_emit _ q st
        · exact runs_pure q st
      rw [provide_eq sum]
      exact first.bind run
    · rw [weight, same]
      simp only [Task.weight, sum, Bool.false_eq_true, if_false]
      change weight N q st + 1 = _
      omega

/-- What is given to a variable is run once, and takes a reference away. -/
theorem Does.give (closed : Closed N order) (refs : op.refs = [x]) (none : op.subject? = none)
    (gives : Task.give? (.run op) = some op) (weight : Task.weight (.run op) = 1) :
    Does N direct staged (do emit op; Schedule.release order x) (.run op) := by
  intro q st tidy h
  have next := h.advance 0 [op] [x] (by simp [Task.refs, refs]) (fun x same => by cases same) (by simp) (by simp [Task.refs])
    (by simp [none, ← Multiset.cons_zero, gives]) (by simp) (by simp [Task.subject?]) (fun x hx about => by simp [Task.subject?, none] at about)
  rw [zero_add] at next
  have emitted : Invariant N direct staged [x] q { st with operations := op :: st.operations } := ⟨tidy, next⟩
  obtain ⟨q', st', run, inv, same, -⟩ := emitted.release closed
  refine ⟨q', st', (runs_emit op q st).bind run, inv, ?_⟩
  rw [Schedule.weight, same, weight, add_comm]
  rfl

theorem Does.runOperation (closed : Closed N order) : Does N direct staged (treat order (.run op)) (.run op) := by
  intro q st tidy h
  have here : Task.run op ∈ Task.run op ::ₘ pending N q st := Multiset.mem_cons_self _ _
  have ready : ∀ x, Task.run op = .provide x → st.waiting.getD x 0 = 0 := fun x same => by cases same
  have none : ∀ e, op.subject? = some e → e ∈ N ∧
      (Task.run op = .run (.accumulate e) ∨ Task.run op = .run (.initialise e)) := by
    intro e about
    have mem : e ∈ N := h.task here about
    refine ⟨mem, ?_⟩
    simpa using (h.stage mem).mem_cases (Multiset.mem_filter.2 ⟨here, about⟩)
  cases op with
  | evaluate e => simpa using (none e rfl).2
  | hold e => simpa using (none e rfl).2
  | initialise s =>
    obtain ⟨mem, -⟩ := none s rfl
    obtain ⟨out, sum, -, ops⟩ := (h.stage mem).of_initialise (Multiset.mem_filter.2 ⟨here, rfl⟩)
    have next := h.advance 0 [.initialise s] [] (by simp [Task.refs, Operation.refs]) ready (by simp)
      (by simp [Operation.refs]) rfl (by simp) (by simp [Task.subject?])
      (fun x hx about => by
        cases about
        refine ⟨h.rest_eq_zero mem rfl, ?_⟩
        rw [ops]
        have : s.providers = [.initialise s] ++ [.accumulate s, .hold s] := by simp [providers, sum]
        exact this ▸ .done out)
    rw [zero_add] at next
    exact ⟨q, _, runs_emit _ q st, ⟨tidy, next⟩, by change weight N q st + 1 = 1 + weight N q st; omega⟩
  | accumulate s =>
    obtain ⟨mem, -⟩ := none s rfl
    obtain ⟨out, sum, -, ops⟩ := (h.stage mem).of_accumulate (Multiset.mem_filter.2 ⟨here, rfl⟩)
    have next := h.advance {.run (.initialise s)} [.accumulate s] [Operation.summand s]
      (by simp [Task.refs, Operation.refs]) ready (by simp) (by simp [Task.refs]) rfl
      (by simp [Task.subject?, Operation.subject?]) (by simp [Task.subject?])
      (fun x hx about => by
        cases about
        exact ⟨h.rest_eq_zero mem rfl, by rw [ops]; exact .added out sum⟩)
    rw [Multiset.singleton_add, ← pending_insert ((Operation.initialise s).loops order)] at next
    have emitted : Invariant N direct staged [Operation.summand s]
        (q.insert ((Operation.initialise s).loops order) (.run (.initialise s)))
        { st with operations := .accumulate s :: st.operations } := ⟨tidy.insert _ _, next⟩
    obtain ⟨q', st', run, inv, same, -⟩ := emitted.release closed
    refine ⟨q', st', (runs_emit _ q st).bind ((runs_push (fun i hi => closed.ordered mem hi) q _).bind run), inv, ?_⟩
    rw [weight, same, pending_insert, Multiset.map_cons, Multiset.sum_cons]
    change 1 + weight N q st + 1 = 2 + weight N q st
    omega
  | give v e => exact Does.give closed rfl rfl rfl rfl tidy h
  | giveSum v s => exact Does.give closed rfl rfl rfl rfl tidy h

/-! ## The run of the queue -/

theorem Does.treat {t : Task K} (closed : Closed N order) : Does N direct staged (treat order t) t := by
  cases t with
  | provide e => exact Does.provide closed
  | run op => exact Does.runOperation closed

open Classical in
/-- The steps that are to come: loops are entered at most once for each task. -/
noncomputable def remaining (N : List (Expr K)) (q : Queue Index (Task K)) (st : State K) : Nat :=
  2 * weight N q st + if q.Ready then 0 else 1

omit [LawfulBEq (Expr K)] in
theorem pool_eq_zero_of_weight (h : weight N q st = 0) : q.pool = 0 := by
  have pos : ∀ t : Task K, t.weight ≠ 0 := by
    intro t
    unfold Task.weight
    split
    · split <;> simp
    · simp
    · simp
  refine Multiset.eq_zero_of_forall_notMem fun t ht => pos t ?_
  have here : t ∈ pending N q st := Multiset.mem_add.2 (.inl ht)
  exact Nat.le_zero.1 (h ▸ Multiset.le_sum_of_mem (Multiset.mem_map_of_mem Task.weight here))

omit [LawfulBEq (Expr K)] in
/-- One step of the queue, then the rest. -/
theorem runs_process {fuel : Nat} {a? : Option (Task K)} {q₁ q₂ q₃ : Queue Index (Task K)} {st₂ st₃ : State K}
    (step : q.step = some (a?, q₁))
    (treated : Runs (match a? with | some a => treat order a | none => pure ()) q₁ st q₂ st₂)
    (rest : Runs (Queue.process (treat order) fuel) q₂ st₂ q₃ st₃) :
    Runs (Queue.process (treat order) (fuel + 1)) q st q₃ st₃ := by
  have read : ((get : Scheduling K (Queue Index (Task K))).run q).run st = pure ((q, q), st) := rfl
  have write : ((set q₁ : Scheduling K PUnit).run q).run st = pure (((), q₁), st) := rfl
  unfold Runs Queue.process
  rw [StateT.run_bind, StateT.run_bind, read, pure_bind]
  simp only [step]
  rw [StateT.run_bind, StateT.run_bind, write, pure_bind]
  cases a? with
  | none =>
    have := treated.bind (y := fun _ => Queue.process (treat order) fuel) rest
    rwa [pure_bind] at this
  | some a => exact treated.bind rest

/-- With enough steps the queue is emptied. -/
theorem Invariant.process (fuel : Nat) (closed : Closed N order) (h : Invariant N direct staged [] q st)
    (enough : remaining N q st ≤ fuel) :
    ∃ q' st', Runs (Queue.process (Schedule.treat order) fuel) q st q' st' ∧ Invariant N direct staged [] q' st' ∧
      q'.pool = 0 := by
  induction fuel generalizing q st with
  | zero =>
    have none : weight N q st = 0 := by
      unfold remaining at enough
      omega
    exact ⟨q, st, rfl, h, pool_eq_zero_of_weight none⟩
  | succ fuel ih =>
    cases h.tidy.step with
    | finished step empty =>
      refine ⟨q, st, ?_, h, empty⟩
      have read : ((get : Scheduling K (Queue Index (Task K))).run q).run st = pure ((q, q), st) := rfl
      unfold Runs Queue.process
      rw [StateT.run_bind, StateT.run_bind, read, pure_bind]
      simp only [step]
      rfl
    | taken a q₁ step tidy pool =>
      have tasks : pending N q st = a ::ₘ pending N q₁ st := by rw [pending, pending, pool, Multiset.cons_add]
      have total : weight N q st = a.weight + weight N q₁ st := by
        rw [weight, tasks, Multiset.map_cons, Multiset.sum_cons, weight]
      obtain ⟨q₂, st₂, run, inv, less⟩ := Does.treat closed tidy (tasks ▸ h.accounts)
      obtain ⟨q₃, st₃, rest, final⟩ := ih inv (by unfold remaining at enough ⊢; split <;> omega)
      exact ⟨q₃, st₃, runs_process step run rest, final⟩
    | entered q₁ step tidy unready ready pool =>
      have tasks : pending N q₁ st = pending N q st := by rw [pending, pending, pool]
      obtain ⟨q₃, st₃, rest, final⟩ := ih (q := q₁) ⟨tidy, tasks ▸ h.accounts⟩ (by
        have total : weight N q₁ st = weight N q st := by rw [weight, weight, tasks]
        unfold remaining at enough ⊢
        rw [if_neg unready] at enough
        rw [if_pos ready]
        omega)
      exact ⟨q₃, st₃, runs_process step (runs_pure _ _) rest, final⟩

/-! ## Staging -/

/-- Is an assignment added up in the variable itself? -/
def isDirect (counts : RefCount K) (a : Expr K × Expr K) : Bool :=
  a.2.isSum && (counts.getD a.2 0 == 1 && a.1.freeIndices == a.2.freeIndices)

/-- The operation of an assignment. -/
def stagedOp (counts : RefCount K) (a : Expr K × Expr K) : Operation K :=
  if isDirect counts a then .giveSum a.1 a.2 else .give a.1 a.2

/-- The sums that are added up in variables. -/
def directSums (counts : RefCount K) (assignments : List (Expr K × Expr K)) : List (Expr K) :=
  (assignments.filter (isDirect counts)).map Prod.snd

/-- The sums that are added up in variables when what is assigned is counted. -/
def directs (assignments : List (Expr K × Expr K)) : List (Expr K) :=
  directSums (refCount (assignments.map Prod.snd)) assignments

/-- The operations of all assignments. -/
def stagedOps (assignments : List (Expr K × Expr K)) : List (Operation K) :=
  assignments.map (stagedOp (refCount (assignments.map Prod.snd)))

/-- The counts that are left when the assignments are staged. -/
def Left (assignments : List (Expr K × Expr K)) (counts : RefCount K) : Prop :=
  ∀ e, counts.getD e 0 = if e ∈ directs assignments then 0 else (refCount (assignments.map Prod.snd)).getD e 0

omit [LawfulBEq (Expr K)] in
theorem stage_eq (free : a.2.freeIndices ⊆ a.1.freeIndices) : stage counts a.1 a.2 =
      pure (stagedOp counts a, if isDirect counts a then counts.insert a.2 0 else counts) := by
  obtain ⟨v, e⟩ := a
  have make : Operation.makeGive v e = pure (.give v e) := by
    rw [Operation.makeGive, Indices.subset_iff.2 free]
    rfl
  cases e with
  | indexSum body bs =>
    simp only [stage, stagedOp, isDirect, isSum, Bool.true_and]
    split
    · rfl
    · rw [make]
      rfl
  | _ => simp only [stage, stagedOp, isDirect, isSum, Bool.false_and, make]; rfl

/-- A sum that is added up in a variable is assigned once. -/
theorem count_of_isDirect (h : isDirect (refCount roots) a = true) (mem : a.2 ∈ roots) :
    roots.count a.2 = 1 ∧ ((traversal roots).map fun p => p.children.count a.2).sum = 0 := by
  simp only [isDirect, Bool.and_eq_true, beq_iff_eq] at h
  have counted := getD_refCount roots a.2
  have := count_pos_iff.2 mem
  omega

/-- Staging turns each assignment into its operation and takes the sums that are added up directly off the counts. -/
theorem stageAll_eq (free : ∀ a ∈ assignments, a.2.freeIndices ⊆ a.1.freeIndices) :
    ∃ counts, stageAll (refCount (assignments.map Prod.snd)) assignments = pure (stagedOps assignments, counts) ∧
      Left assignments counts := by
  unfold stagedOps Left directs
  generalize hcounts : refCount (assignments.map Prod.snd) = counts₀
  -- the counts of what is still to come have not changed yet
  have go : ∀ before after ops counts,
      assignments = before ++ after →
      (∀ e, counts.getD e 0 = if e ∈ directSums counts₀ before then 0 else counts₀.getD e 0) →
      ∃ counts', after.foldlM (fun done a => do
          let staged ← stage done.2 a.1 a.2
          return (done.1 ++ [staged.1], staged.2)) (ops, counts) = (pure (ops ++ after.map (stagedOp counts₀), counts') : Build _) ∧
        ∀ e, counts'.getD e 0 = if e ∈ directSums counts₀ assignments then 0 else counts₀.getD e 0 := by
    intro before after
    induction after generalizing before with
    | nil =>
      intro ops counts split now
      exact ⟨counts, by simp, by rwa [split, append_nil]⟩
    | cons a after ih =>
      intro ops counts split now
      have mem : a ∈ assignments := by simp [split]
      have new : a.2 ∉ directSums counts₀ before := by
        intro again
        obtain ⟨b, hb, same⟩ := mem_map.1 again
        obtain ⟨hb, direct⟩ := mem_filter.1 hb
        have once := (count_of_isDirect (hcounts ▸ direct) (by rw [same]; exact mem_map_of_mem mem)).1
        have first : 0 < (before.map Prod.snd).count a.2 := count_pos_iff.2 (same ▸ mem_map_of_mem hb)
        rw [split, same, map_append, List.count_append, map_cons, count_cons_self] at once
        omega
      have same : isDirect counts a = isDirect counts₀ a := by
        rw [isDirect, isDirect, now, if_neg new]
      have op : stagedOp counts a = stagedOp counts₀ a := by rw [stagedOp, stagedOp, same]
      obtain ⟨counts', run, final⟩ := ih (before ++ [a]) (ops ++ [stagedOp counts₀ a])
        (if isDirect counts₀ a then counts.insert a.2 0 else counts) (by simp [split]) (by
          intro e
          have sums : directSums counts₀ (before ++ [a]) =
              directSums counts₀ before ++ if isDirect counts₀ a then [a.2] else [] := by
            simp only [directSums, filter_append, map_append, filter_cons, filter_nil]
            split <;> rfl
          rw [sums]
          split
          · rw [Std.HashMap.getD_insert, now]
            by_cases here : a.2 = e
            · simp [here]
            · simp [here, Ne.symm here]
          · rw [now, append_nil])
      refine ⟨counts', ?_, final⟩
      rw [foldlM_cons]
      simp only [stage_eq (free a mem), pure_bind, op, same]
      rw [run]
      simp
  obtain ⟨counts, run, final⟩ := go [] assignments [] counts₀ rfl (by simp [directSums])
  exact ⟨counts, run.trans (by rw [nil_append]), final⟩

/-! ## The beginning -/

omit [LawfulBEq (Expr K)] in
/-- Operations are put into the queue. -/
theorem runs_pushAll (h : ∀ op ∈ ops, ∀ i ∈ op.loopExpr.freeIndices, i ∈ order) (st : State K) (tidy : q.Tidy) :
    ∃ q', Runs (forIn ops PUnit.unit fun op _ => do push order op; pure (.yield PUnit.unit)) q st q' st ∧ q'.Tidy ∧
      q'.pool = ((ops.map Task.run : List (Task K)) : Multiset (Task K)) + q.pool := by
  induction ops generalizing q with
  | nil => exact ⟨q, rfl, tidy, by simp⟩
  | cons op ops ih =>
    obtain ⟨q', run, tidy', pool⟩ := ih (fun o ho => h o (mem_cons_of_mem _ ho))
      (tidy.insert (op.loops order) (.run op))
    refine ⟨q', ?_, tidy', ?_⟩
    · rw [forIn_cons, bind_assoc]
      refine (runs_push (h op mem_cons_self) q st).bind ?_
      rw [pure_bind]
      exact run
    · rw [pool, Queue.pool_insert, map_cons, ← Multiset.cons_coe, Multiset.add_cons, Multiset.cons_add]

theorem refCount_pos : 0 < (refCount roots).getD e 0 ↔ Reachable roots e := by
  rw [getD_refCount]
  constructor
  · intro pos
    by_cases root : e ∈ roots
    · exact .root root
    · rw [count_eq_zero_of_not_mem root, zero_add] at pos
      obtain ⟨n, hn, ne⟩ := exists_mem_ne_zero_of_sum_ne_zero (Nat.pos_iff_ne_zero.1 pos)
      obtain ⟨p, hp, rfl⟩ := mem_map.1 hn
      exact .child (mem_traversal.1 hp) (count_pos_iff.1 (Nat.pos_of_ne_zero ne))
  · intro reach
    cases reach with
    | root root =>
      have := count_pos_iff.2 root
      omega
    | child hp hc =>
      have := le_sum_of_mem (mem_map_of_mem (f := fun p => p.children.count e) (mem_traversal.2 hp))
      have := count_pos_iff.2 hc
      omega

/-- A sum that is added up in a variable is one of the expressions, and is assigned once. -/
theorem mem_directSums (h : e ∈ directs assignments) :
    e.isSum ∧ (assignments.map Prod.snd).count e = 1 ∧
      ((traversal (assignments.map Prod.snd)).map fun p => p.children.count e).sum = 0 := by
  obtain ⟨a, ha, rfl⟩ := mem_map.1 h
  obtain ⟨mem, direct⟩ := mem_filter.1 ha
  refine ⟨?_, count_of_isDirect direct (mem_map_of_mem mem)⟩
  simp only [isDirect, Bool.and_eq_true] at direct
  exact direct.1

theorem nodup_directs (assignments : List (Expr K × Expr K)) : (directs assignments).Nodup := by
  refine nodup_iff_count_le_one.2 fun e => ?_
  by_cases mem : e ∈ directs assignments
  · have part : (directs assignments).Sublist (assignments.map Prod.snd) :=
      filter_sublist.map Prod.snd
    exact (part.count_le e).trans (mem_directSums mem).2.1.le
  · rw [count_eq_zero_of_not_mem mem]
    exact Nat.zero_le 1

theorem Left.pos_iff (left : Left assignments counts) :
    0 < counts.getD e 0 ↔ Reachable (assignments.map Prod.snd) e ∧ e ∉ directs assignments := by
  rw [left]
  split
  · rename_i direct
    simp [direct]
  · rename_i out
    simp [out, refCount_pos]

/-- The references of operations that are staged, and of nodes that are not added up directly. -/
theorem staged_balance (left : Left assignments counts) (e : Expr K) :
    counts.getD e 0 =
      ((stagedOps assignments).map fun op => op.refs.count e).sum +
        (((traversal (assignments.map Prod.snd)).filter fun p => 0 < counts.getD p 0).map
          fun p => p.children.count e).sum := by
  have inD := fun (e : Expr K) (h : e ∈ directs assignments) => mem_directSums h
  have nodup := nodup_directs assignments
  have waiting := @left.pos_iff
  unfold Left stagedOps directs at *
  generalize hroots : assignments.map Prod.snd = roots at *
  generalize hD : directSums (refCount roots) assignments = D at *
  have nodes : ((traversal roots).filter fun p => 0 < counts.getD p 0) = (traversal roots).filter (· ∉ D) :=
    filter_congr fun p hp => by simp [waiting, mem_traversal.1 hp]
  have direct : ((traversal roots).filter (· ∈ D)).Perm D := by
    refine (perm_ext_iff_of_nodup ((nodup_traversal roots).filter _) nodup).2 fun x => ?_
    simp only [mem_filter, decide_eq_true_eq, and_iff_right_iff_imp]
    intro hx
    exact mem_traversal.2 (.root (count_pos_iff.1 (by have := (inD x hx).2.1; omega)))
  have split := sum_map_filter_add_sum_map_filter_not (· ∈ D) (fun p => p.children.count e) (traversal roots)
  rw [(direct.map _).sum_eq] at split
  have counted : ∀ l : List (Expr K × Expr K), (l.map Prod.snd).count e = (l.map fun a => [a.2].count e).sum := by
    intro l
    induction l with
    | nil => rfl
    | cons a l ih =>
      rw [map_cons, map_cons, sum_cons, ← ih, ← List.count_append]
      rfl
  have ops : ((assignments.map (stagedOp (refCount roots))).map fun op => op.refs.count e).sum =
      (D.map fun p => p.children.count e).sum +
        ((assignments.filter fun a => ¬ isDirect (refCount roots) a = true).map fun a => [a.2].count e).sum := by
    have each : ∀ a ∈ assignments, ((fun op : Operation K => op.refs.count e) ∘ stagedOp (refCount roots)) a =
        if isDirect (refCount roots) a = true then a.2.children.count e else [a.2].count e := by
      intro a _
      rw [Function.comp_apply, stagedOp]
      split
      · rename_i direct
        simp only [isDirect, Bool.and_eq_true] at direct
        have sum := direct.1
        cases h : a.2 <;> simp_all [isSum, Operation.refs, Operation.summand, children]
      · rfl
    rw [map_map, map_congr_left each, sum_map_ite, ← hD, directSums, map_map]
    simp [Function.comp_def]
  have roots_count : roots.count e = D.count e +
      ((assignments.filter fun a => ¬ isDirect (refCount roots) a = true).map fun a => [a.2].count e).sum := by
    rw [← hD, directSums, counted, ← hroots, counted,
      ← sum_map_filter_add_sum_map_filter_not (fun a => isDirect (refCount roots) a = true)]
    simp [hroots]
  have total := getD_refCount roots e
  rw [left, nodes, ops]
  split
  · rename_i mem
    obtain ⟨-, once, unread⟩ := inD e mem
    have := count_pos_iff.2 mem
    omega
  · rename_i out
    rw [count_eq_zero_of_not_mem out] at roots_count
    omega

theorem Invariant.start (left : Left assignments counts) (tidy : q.Tidy)
    (pool : q.pool = (((stagedOps assignments).map Task.run : List (Task K)) : Multiset (Task K))) :
    Invariant (traversal (assignments.map Prod.snd)) (directs assignments) (stagedOps assignments : List (Operation K)) [] q
      { waiting := counts } := by
  have gives : ∀ op ∈ stagedOps assignments, op.subject? = none := by
    intro op hop
    obtain ⟨a, -, rfl⟩ := mem_map.1 hop
    unfold stagedOp
    split <;> rfl
  have balance := staged_balance left
  have waiting := @left.pos_iff
  generalize stagedOps assignments = ops at *
  generalize assignments.map Prod.snd = roots at *
  generalize directs assignments = D at *
  refine ⟨tidy, ?_, ?_, ?_, ?_, ?_, ?_, ?_⟩
  · intro e
    rw [pending, pool, Multiset.map_add, Multiset.sum_add, Multiset.map_coe, Multiset.map_coe, Multiset.sum_coe,
      Multiset.sum_coe, map_map, map_map, count_nil, zero_add]
    exact balance e
  · intro e he
    have mem := mem_traversal.2 ((waiting e).1 he).1
    refine ⟨mem, Multiset.mem_add.2 (.inr (mem_map_of_mem (mem_filter.2 ⟨mem, ?_⟩)))⟩
    simpa using he
  · intro x hx
    have given : (q.pool.filter fun t => t.subject? = some x) = 0 := by
      rw [pool]
      refine Multiset.filter_eq_nil.2 fun t ht => ?_
      obtain ⟨op, hop, rfl⟩ := mem_map.1 (Multiset.mem_coe.1 ht)
      rw [Task.subject?, gives op hop]
      simp
    have node : ∀ l : List (Expr K), l.Nodup →
        (((l.map Task.provide : List (Task K)) : Multiset (Task K)).filter fun t => t.subject? = some x) =
          if x ∈ l then {.provide x} else 0 := by
      intro l nodup
      rw [← Multiset.map_coe, Multiset.filter_map]
      have same : ((fun t : Task K => t.subject? = some x) ∘ Task.provide) = fun p => p = x := by
        funext p
        simp [Task.subject?]
      simp only [same, Multiset.filter_eq']
      split
      · rename_i mem
        rw [Multiset.count_eq_one_of_mem (Multiset.coe_nodup.2 nodup) (Multiset.mem_coe.2 mem)]
        rfl
      · rename_i out
        rw [Multiset.count_eq_zero_of_notMem out]
        rfl
    rw [pending, Multiset.filter_add, given, zero_add, node _ ((nodup_traversal roots).filter _), filter_nil]
    by_cases direct : x ∈ D
    · rw [if_neg (by simp [waiting, direct])]
      exact .direct direct
    · rw [if_pos (by simp [waiting, direct, hx, mem_traversal.1 hx])]
      exact .waiting direct
  · intro t x ht about
    rw [pending, pool] at ht
    rcases Multiset.mem_add.1 ht with ht | ht
    · obtain ⟨op, hop, rfl⟩ := mem_map.1 (Multiset.mem_coe.1 ht)
      rw [Task.subject?, gives op hop] at about
      cases about
    · obtain ⟨p, hp, rfl⟩ := mem_map.1 (Multiset.mem_coe.1 ht)
      cases about
      exact (mem_filter.1 hp).1
  · intro o x ho
    cases ho
  · have given : ∀ l : List (Operation K), (∀ op ∈ l, op.subject? = none) →
        (l.map Task.run).filterMap Task.give? = l := by
      intro l none
      induction l with
      | nil => rfl
      | cons op l ih =>
        have here := none op mem_cons_self
        have tail := ih fun o ho => none o (mem_cons_of_mem _ ho)
        cases op <;> simp [Operation.subject?] at here <;> simp [Task.give?, tail]
    have nodes : ∀ l : List (Expr K), (l.map Task.provide).filterMap (Task.give? : Task K → _) = [] := by
      intro l
      induction l with
      | nil => rfl
      | cons p l ih => simp [Task.give?]
    rw [pending, pool, Multiset.filterMap_add, Multiset.filterMap_coe, Multiset.filterMap_coe, given ops gives, nodes]
    simp
  · exact Pairwise.nil

/-- A complete schedule: what is found for each node, what is given, and the order of it all. -/
structure Scheduled (roots direct : List (Expr K)) (staged ops : List (Operation K)) : Prop where
  provided {x : Expr K} : Reachable roots x → x ∉ direct → (ops.filter fun op => op.subject? = some x) = x.providers
  unprovided {x : Expr K} : Reachable roots x → x ∈ direct → (ops.filter fun op => op.subject? = some x) = []
  reachable {o : Operation K} {x : Expr K} : o ∈ ops → o.subject? = some x → Reachable roots x
  gives : (ops.filter fun op => op.subject? = none).Perm staged
  ordered : ops.Pairwise Precedes

/-- A complete schedule of assignments. -/
abbrev Schedules (assignments : List (Expr K × Expr K)) : List (Operation K) → Prop :=
  Scheduled (assignments.map Prod.snd) (directs assignments) (stagedOps assignments)

/-- When the queue is empty no reference is left. -/
theorem Invariant.settled (h : Invariant N direct staged [] q st) (empty : q.pool = 0) (e : Expr K) :
    st.waiting.getD e 0 = 0 := by
  by_contra counted
  -- the largest node that is referred to is referred to by a larger one
  have some : (N.toFinset.filter fun x => 0 < st.waiting.getD x 0).Nonempty :=
    ⟨e, by simp [(h.accounts.unready (Nat.pos_of_ne_zero counted)).1, Nat.pos_of_ne_zero counted]⟩
  obtain ⟨x, hx, largest⟩ := Finset.exists_max_image _ (fun x => sizeOf x) some
  simp only [Finset.mem_filter, mem_toFinset] at hx largest
  have balance := h.accounts.balance x
  rw [pending, empty, zero_add, Multiset.map_coe, Multiset.sum_coe, count_nil, zero_add] at balance
  obtain ⟨n, hn, ne⟩ := exists_mem_ne_zero_of_sum_ne_zero (balance ▸ Nat.pos_iff_ne_zero.1 hx.2)
  obtain ⟨t, ht, rfl⟩ := mem_map.1 hn
  obtain ⟨p, hp, rfl⟩ := mem_map.1 ht
  obtain ⟨mem, waits⟩ := mem_filter.1 hp
  have child : x ∈ p.children := count_pos_iff.1 (Nat.pos_of_ne_zero ne)
  have := largest p ⟨mem, by simpa using waits⟩
  have := sizeOf_lt_of_mem_children child
  omega

omit [LawfulBEq (Expr K)] in
/-- Each operation and each node passes through the queue, a sum three times, and loops are entered in between. -/
theorem stepBound_enough
    (pool : q.pool = ((ops.map Task.run : List (Task K)) : Multiset (Task K))) (length : ops.length = assignments.length) :
    remaining (traversal (assignments.map Prod.snd)) q { waiting := counts } ≤ stepBound assignments := by
  have given : ∀ l : List (Operation K), (l.map fun op => (Task.run op).weight).sum ≤ 2 * l.length := by
    intro l
    induction l with
    | nil => simp
    | cons op l ih =>
      have : (Task.run op).weight ≤ 2 := by cases op <;> simp [Task.weight]
      simp only [map_cons, sum_cons, length_cons]
      omega
  have nodes : ∀ l : List (Expr K), (l.map fun e => (Task.provide e).weight).sum ≤ 3 * l.length := by
    intro l
    induction l with
    | nil => simp
    | cons e l ih =>
      simp only [map_cons, sum_cons, length_cons, Task.weight] at ih ⊢
      split <;> omega
  have kept := length_filter_le (fun e => decide (0 < counts.getD e 0)) (traversal (assignments.map Prod.snd))
  have some := nodes ((traversal (assignments.map Prod.snd)).filter fun e => 0 < counts.getD e 0)
  unfold remaining stepBound weight pending
  rw [pool, Multiset.map_add, Multiset.sum_add, Multiset.map_coe, Multiset.map_coe, Multiset.sum_coe, Multiset.sum_coe,
    map_map, map_map]
  have := given ops
  simp only [Function.comp_def]
  split <;> omega

/-- Scheduling succeeds and gives a complete schedule, if each operand has the indices of its variable and the order
has all indices. -/
theorem operations_eq (free : ∀ a ∈ assignments, a.2.freeIndices ⊆ a.1.freeIndices)
    (targets : ∀ a ∈ assignments, ∀ i ∈ a.1.freeIndices, i ∈ order)
    (nodes : ∀ e, Reachable (assignments.map Prod.snd) e → ∀ i ∈ e.freeIndices, i ∈ order) :
    ∃ ops, operations assignments order = pure ops ∧ Schedules assignments ops := by
  obtain ⟨counts, staged, left⟩ := stageAll_eq free
  have closed : Closed (traversal (assignments.map Prod.snd)) order :=
    ⟨nodup_traversal _, fun hp hc => mem_traversal.2 (.child (mem_traversal.1 hp) hc),
      fun he hi => nodes _ (mem_traversal.1 he) _ hi⟩
  have loops : ∀ op ∈ stagedOps assignments, ∀ i ∈ op.loopExpr.freeIndices, i ∈ order := by
    intro op hop i hi
    obtain ⟨a, ha, rfl⟩ := mem_map.1 hop
    unfold stagedOp at hi
    split at hi
    · rename_i direct
      simp only [isDirect, Bool.and_eq_true] at direct
      obtain ⟨body, bs, sum⟩ : ∃ body bs, a.2 = .indexSum body bs := by
        cases h : a.2 <;> simp_all [isSum]
      have root : Reachable (assignments.map Prod.snd) a.2 := .root (mem_map_of_mem ha)
      rw [sum] at hi root
      exact nodes body (.child root (by simp [children])) i hi
    · exact targets a ha i hi
  obtain ⟨q₁, pushed, tidy, pool⟩ := runs_pushAll loops { waiting := counts } Queue.tidy_empty
  rw [Queue.pool_empty, add_zero] at pool
  have start := Invariant.start left tidy pool
  obtain ⟨q₂, st, run, inv, empty⟩ := start.process (stepBound assignments) closed
    (stepBound_enough pool (by simp [stagedOps]))
  have settled := inv.settled empty
  have none : pending (traversal (assignments.map Prod.snd)) q₂ st = 0 := by
    rw [pending, empty, zero_add, filter_eq_nil_iff.2 fun e _ => by simp [settled]]
    rfl
  have accounts := inv.accounts
  rw [none] at accounts
  refine ⟨st.operations, ?_, ?_⟩
  · have all : (st.waiting.toList.all fun p => p.2 == 0) = true := by
      rw [all_eq_true]
      rintro ⟨e, n⟩ mem
      have found := Std.HashMap.mem_toList_iff_getElem?_eq_some.1 mem
      have := settled e
      rw [Std.HashMap.getD_eq_getD_getElem?, found, Option.getD_some] at this
      simp [this]
    have whole : Runs (do
        for op in stagedOps assignments do push order op
        Queue.process (treat order) (stepBound assignments)) {} { waiting := counts } q₂ st := by
      refine Runs.bind ?_ run
      exact pushed
    rw [operations, staged, pure_bind]
    dsimp only
    rw [whole.run', pure_bind]
    dsimp only
    rw [all]
    rfl
  · refine ⟨fun hx out => ?_, fun hx direct => ?_, fun ho about => mem_traversal.1 (accounts.op ho about), ?_,
      accounts.ordered⟩
    · exact ((accounts.stage (mem_traversal.2 hx)).of_zero.resolve_right fun h => out h.1).2
    · exact ((accounts.stage (mem_traversal.2 hx)).of_zero.resolve_left fun h => h.1 direct).2
    · have gives := accounts.gives
      rw [Multiset.filterMap_zero, zero_add] at gives
      exact Multiset.coe_eq_coe.1 gives

end Schedule

end FormCompiler
