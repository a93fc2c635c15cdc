import FormCompiler.Proofs.Placement
import FormCompiler.Proofs.Progress

/-!
# Compiled programs compute their assignments

Assignments are scheduled, computations that are used once are carried out where they are used, and the operations are
gathered into loops. The program adds to each entry of each variable what the assignments give to it, and no temporary
is read before it holds its value.
-/

namespace FormCompiler

open FormCompiler.Expr List

variable {K : Type} [Scalar K] [Field K] [Exact K]

namespace Program

/-! ## Computations that are dropped, and temporaries -/

omit [Field K] [Exact K] in
/-- Only computations of scalars that are used once are dropped. -/
theorem inlineTemporaries_eq [LawfulBEq (Expr K)] (roots : List (Expr K)) (ops : List (Operation K)) :
    ∃ keep : Operation K → Bool, inlineTemporaries roots ops = ops.filter keep ∧
      ∀ o, keep o = false → ∃ e, o = .evaluate e ∧ e.shape = [] ∧ (refCount roots).getD e 0 = 1 := by
  refine ⟨_, rfl, fun o dropped => ?_⟩
  cases o with
  | evaluate e =>
    refine ⟨e, rfl, ?_⟩
    have mem := Std.HashSet.contains_iff_mem.1 (by simpa only [Bool.not_eq_false'] using dropped)
    clear dropped
    revert e
    -- scalars that are used once are gathered, and from then on only taken out
    refine foldlRecOn _ _ (motive := fun acc : Std.HashSet (Expr K) =>
      ∀ e ∈ acc, e.shape = [] ∧ (refCount roots).getD e 0 = 1) ?_ ?_
    · refine foldlRecOn _ _ (motive := fun acc : Std.HashSet (Expr K) =>
        ∀ e ∈ acc, e.shape = [] ∧ (refCount roots).getD e 0 = 1) (by simp) ?_
      intro acc once op _
      split
      · split
        · rename_i single
          intro x hx
          rcases Std.HashSet.mem_insert.1 hx with same | hx
          · rw [← eq_of_beq same]
            simpa using single
          · exact once x hx
        · exact once
      · exact once
    · intro acc once e _
      refine foldlRecOn _ _ (motive := fun acc : Std.HashSet (Expr K) =>
        ∀ e ∈ acc, e.shape = [] ∧ (refCount roots).getD e 0 = 1) once ?_
      intro acc once c _
      split
      · exact fun x hx => once x (Std.HashSet.mem_of_mem_erase hx)
      · exact once
  | _ => cases dropped

omit [Scalar K] [Field K] [Exact K] in
theorem mem_temporariesOf {ops : List (Operation K)} {t : Expr K} :
    t ∈ temporariesOf ops ↔ .evaluate t ∈ ops ∨ .accumulate t ∈ ops := by
  rw [temporariesOf, mem_filterMap]
  constructor
  · rintro ⟨o, ho, found⟩
    cases o with
    | evaluate e =>
      cases found
      exact .inl ho
    | accumulate s =>
      cases found
      exact .inr ho
    | _ => cases found
  · rintro (h | h)
    · exact ⟨_, h, rfl⟩
    · exact ⟨_, h, rfl⟩

/-! ## Assignments that can be compiled -/

/-- The variable of which a target is an entry. -/
def targetVar? : Expr K → Option (String × Shape)
  | .var name shape | .indexed (.var name shape) _ | .access name shape _ => some (name, shape)
  | _ => none

/-- The variables to which assignments give. -/
def Given (assignments : List (Expr K × Expr K)) (name : String) (shape : Shape) : Prop :=
  ∃ a ∈ assignments, targetVar? a.1 = some (name, shape)

/-- Is an entry taken at an index, somewhere in the expressions? -/
def Addressed (roots : List (Expr K)) (i : Index) : Prop :=
  ∃ e, Reachable roots e ∧ i ∈ e.indexOrder?.getD []

/-- Assignments that can be compiled, where indices have known sizes: they differ from each other, each gives a scalar
to an entry of a variable that has the indices of the scalar, what they read is none of the variables that they give
to, and each index is in the outer order or addresses an entry. -/
structure Compilable (env : Environment K) (size : Index → Nat) (assignments : List (Expr K × Expr K))
    (outer : List Index) : Prop where
  nodup : assignments.Nodup
  target {a : Expr K × Expr K} : a ∈ assignments → a.1.Target (Given assignments)
  scalar {a : Expr K × Expr K} : a ∈ assignments → a.2.shape = []
  free {a : Expr K × Expr K} : a ∈ assignments → a.2.freeIndices ⊆ a.1.freeIndices
  readable {e : Expr K} : Reachable (assignments.map Prod.snd) e → e.Readable env size (Given assignments)
  ordered {i : Index} : (∃ a ∈ assignments, i ∈ a.1.freeIndices) ∨
    (∃ e, Reachable (assignments.map Prod.snd) e ∧ i ∈ e.freeIndices) →
      i ∈ outer ∨ Addressed (assignments.map Prod.snd) i

/-- What assignments give to an entry of a variable: a sum over all positions of the targets that address it. -/
def total (env : Environment K) (size : Index → Nat) (ρ : Valuation) (assignments : List (Expr K × Expr K)) (p : VarEntry) :
    K :=
  (assignments.map fun a => ((ρ.ranging (bindersOf size a.1.freeIndices)).map fun σ =>
    if placeOf env σ a.1 = some p then a.2.value env σ [] else 0).sum).sum

section Compile

variable {env : Environment K} {size : Index → Nat} {assignments : List (Expr K × Expr K)} {outer : List Index}

open Schedule (Schedules directs stagedOp isDirect stagedOp_cases nodup_staged apart mem_of_give mem_of_giveSum)

variable {ops : List (Operation K)} {keep : Operation K → Bool} {T : List (Expr K)} {i : Index} {e : Expr K}

/-- The operations that are kept of a schedule can be carried out. -/
theorem workload (h : Compilable env size assignments outer) (scheduled : Schedules assignments ops)
    (dropped : ∀ o, keep o = false → ∃ e, o = .evaluate e ∧ e.shape = [])
    (temporary : ∀ t, t ∈ T ↔ .evaluate t ∈ ops.filter keep ∨ .accumulate t ∈ ops.filter keep) :
    Workload env size (Given assignments) (assignments.map Prod.snd) T (ops.filter keep) := by
  have kept : Schedule.Kept (assignments.map Prod.snd) (directs assignments) ops keep T := by
    refine ⟨fun drop => dropped _ drop, fun {body bs} reach => ?_, fun {t} => temporary t⟩
    have fits : BindersFit _ body bs := (h.readable reach).fits
    exact fits.ne_nil
  refine { toArranged := scheduled.arranged (nodup_staged _ h.nodup) (apart assignments) kept, readable := fun e => h.readable,
           subject := fun ho about => scheduled.reachable (mem_filter.1 ho).1 about,
           ref := fun ho hx => (scheduled.refs_reachable (apart assignments) (mem_filter.1 ho).1 hx).1,
           give := fun {v e} ho => ?_, giveSum := fun {v s} ho => ?_ }
  · have ha := mem_of_give scheduled.gives (mem_filter.1 ho).1
    exact ⟨h.target ha, h.scalar ha, h.free ha⟩
  · obtain ⟨ha, direct⟩ := mem_of_giveSum scheduled.gives (mem_filter.1 ho).1
    simp only [isDirect, Bool.and_eq_true, beq_iff_eq] at direct
    refine ⟨h.target ha, .root (mem_map_of_mem ha), direct.1, fun i => ?_⟩
    rw [direct.2.2]

section

omit [Exact K]

/-- What the operations that are kept give is what the assignments give. -/
theorem sum_contribution {counts : RefCount K}
    (gives : (ops.filter fun op => op.subject? = none).Perm (assignments.map (stagedOp counts)))
    (dropped : ∀ o, keep o = false → ∃ e, o = .evaluate e ∧ e.shape = []) (ρ : Valuation)
    (p : VarEntry) :
    ((ops.filter keep).map fun o => o.contribution env size ρ p).sum = total env size ρ assignments p := by
  have only : ∀ l : List (Operation K), ((l.filter keep).map fun o => o.contribution env size ρ p).sum =
      ((l.filter fun op => op.subject? = none).map fun o => o.contribution env size ρ p).sum := by
    intro l
    induction l with
    | nil => rfl
    | cons o l ih =>
      have : keep o = false → o.contribution env size ρ p = 0 := fun drop => by
        obtain ⟨e, rfl, -⟩ := dropped o drop
        rfl
      cases hk : keep o <;> cases o <;> simp_all [Operation.subject?, Operation.contribution]
  rw [only, (gives.map _).sum_eq, map_map, total]
  congr 1
  refine map_congr_left fun a _ => ?_
  rcases stagedOp_cases counts a with ⟨-, op⟩ | ⟨-, op⟩ <;> simp [op, Operation.contribution]

omit [Scalar K] [Field K] in
theorem nodup_temporariesOf (nodup : ops.Nodup)
    (apart : ∀ t, .evaluate t ∈ ops → .accumulate t ∉ ops) : (temporariesOf ops).Nodup := by
  refine pairwise_filterMap.2 (nodup.imp_of_mem fun {o o'} mem mem' ne t ht t' ht' => ?_)
  rintro rfl
  cases o with
  | evaluate e =>
    cases o' with
    | evaluate e' => exact ne (by cases ht; cases ht'; rfl)
    | accumulate s => exact apart t (by cases ht; exact mem) (by cases ht'; exact mem')
    | _ => cases ht'
  | accumulate s =>
    cases o' with
    | evaluate e => exact apart t (by cases ht'; exact mem') (by cases ht; exact mem)
    | accumulate s' => exact ne (by cases ht; cases ht'; rfl)
    | _ => cases ht'
  | _ => cases ht

omit [Field K] in
theorem mem_order [LawfulBEq (Expr K)] (h : i ∈ outer ∨ Addressed (assignments.map Prod.snd) i) :
    i ∈ IndexOrder.startingWith outer (usedIndices (assignments.map Prod.snd)) := by
  by_cases first : i ∈ outer
  · exact mem_append_left _ first
  · obtain ⟨e, reach, taken⟩ := h.resolve_left first
    refine mem_append_right _ (mem_filter.2 ⟨mem_distinct.2 ?_, by simpa using first⟩)
    exact mem_flatMap.2 ⟨e, mem_traversal.2 reach, taken⟩

end

/-- The loops around the operations of a workload are loops over indices of targets and expressions. -/
theorem mem_order_of_mem_loopExpr (h : Compilable env size assignments outer)
    (work : Workload env size (Given assignments) (assignments.map Prod.snd) T ops)
    (targets : ∀ {v e : Expr K}, .give v e ∈ ops → (v, e) ∈ assignments) {op : Operation K} (hop : op ∈ ops)
    (hi : i ∈ op.loopExpr.freeIndices) :
    i ∈ IndexOrder.startingWith outer (usedIndices (assignments.map Prod.snd)) := by
  refine mem_order (h.ordered ?_)
  cases op with
  | evaluate e => exact .inr ⟨e, work.subject hop rfl, hi⟩
  | initialise s => exact .inr ⟨s, work.subject hop rfl, hi⟩
  | accumulate s => exact .inr ⟨_, work.ref hop mem_cons_self, hi⟩
  | hold e => exact .inr ⟨e, work.subject hop rfl, hi⟩
  | give v e => exact .inl ⟨_, targets hop, hi⟩
  | giveSum v s => exact .inr ⟨_, work.ref hop mem_cons_self, hi⟩

/-- Operations that can be carried out make a loop tree whose temporaries find their places, and running the tree
carries them out. -/
theorem tree_of_workload {given : String → Shape → Prop} {roots : List (Expr K)}
    (work : Workload env size given roots (temporariesOf (ops.filter fun op => !op.isHold)) ops) {order : IndexOrder}
    (loops : ∀ op ∈ ops, ∀ i ∈ op.loopExpr.freeIndices, i ∈ order) :
    ∃ tree placement, Statement.ofOperations order ops = pure tree ∧
      temporariesOf (distinct (Statement.operationsOf tree)) = temporariesOf (ops.filter fun op => !op.isHold) ∧
      place tree (temporariesOf (ops.filter fun op => !op.isHold)) order = pure placement ∧
      ∀ ρ, ∃ st, Statement.execAll (temporariesOf (ops.filter fun op => !op.isHold)) env size tree ρ
        ⟨env.tensor, fun _ _ => none⟩ = some st ∧ Progress env size given ρ ops st := by
  obtain ⟨depth, deep, tree⟩ := Statement.ofOperations_eq loops
  have own : ∀ p ∈ ops.map fun op => (op.loops order, op), p.1 = p.2.loops order ∧ p.1.length ≤ depth := by
    intro p hp
    obtain ⟨op, hop, rfl⟩ := mem_map.1 hp
    exact ⟨rfl, deep op hop⟩
  have operations : Statement.operationsOf (Statement.gather depth (ops.map fun op => (op.loops order, op))) =
      ops.filter fun op => !op.isHold := by
    rw [Statement.operationsOf_gather fun p hp => (own p hp).2, map_map]
    exact congrArg _ (map_id ops)
  have distinctOps := work.nodup.filter fun op => !op.isHold
  have mem : ∀ {o : Operation K}, o.isHold = false → o ∈ ops → o ∈ ops.filter fun op => !op.isHold := fun other ho =>
    mem_filter.2 ⟨ho, by simp [other]⟩
  have placed : ∃ placement, place (Statement.gather depth (ops.map fun op => (op.loops order, op)))
      (temporariesOf (ops.filter fun op => !op.isHold)) order = pure placement := by
    refine place_eq (nodup_temporariesOf distinctOps fun t he ha => ?_) (fun op again => ?_)
      (Statement.nestedAll_gather (fun p hp => (own p hp).2) fun p hp => (own p hp).1.symm)
      (fun t ht i hi => ?_) (fun s hs => ?_) fun t ht => ?_
    · simpa [(work.evaluated (mem_filter.1 he).1).1] using (work.sum (mem_filter.1 ha).1 (.inr (.inl rfl))).1
    · have := nodup_iff_count_le_one.1 distinctOps op
      rw [operations] at again
      omega
    · rcases work.temporary.1 ht with found | found
      · exact loops _ found i hi
      · exact loops _ (work.sum found (.inr (.inl rfl))).2.1.left i hi
    · rw [operations] at hs
      exact work.temporary.2 (.inr (work.sum (mem_filter.1 hs).1 (.inl rfl)).2.1.right)
    · rw [operations]
      rcases work.temporary.1 ht with found | found
      · exact .inl (mem rfl found)
      · exact .inr (mem rfl (work.sum found (.inr (.inl rfl))).2.1.left)
  obtain ⟨placement, placed⟩ := placed
  refine ⟨_, placement, tree, by rw [operations, distinct_eq_self distinctOps], placed, fun ρ => ?_⟩
  rw [Statement.execAll_gather (fun p hp => (own p hp).2) (fun p hp => by rw [(own p hp).1]; exact Operation.nodup_loops _ _)
    (work.fusible order)]
  exact Progress.run work order ρ

/-- Compiling returns a program, and running it gives what the assignments give. -/
theorem compile_eq (h : Compilable env size assignments outer) (nonempty : assignments ≠ []) :
    ∃ p, compile assignments outer = pure p ∧ ∀ ρ, ∃ st, p.exec env size ρ = some st ∧
      ∀ name shape idx, st.contents name shape idx =
        env.tensor name shape idx + total env size ρ assignments ⟨name, shape, idx⟩ := by
  obtain ⟨ops, schedule, scheduled⟩ := Schedule.operations_eq (fun a ha => h.free ha)
    (fun a ha i hi => mem_order (h.ordered (.inl ⟨a, ha, hi⟩))) (fun e he i hi => mem_order (h.ordered (.inr ⟨e, he, hi⟩)))
  obtain ⟨keep, inline, once⟩ := inlineTemporaries_eq (assignments.map Prod.snd) ops
  have dropped : ∀ o, keep o = false → ∃ e, o = .evaluate e ∧ e.shape = [] := fun o drop =>
    (once o drop).imp fun e single => ⟨single.1, single.2.1⟩
  have work := workload h scheduled dropped (T := temporariesOf ((ops.filter keep).filter fun op => !op.isHold))
    fun t => by simp [mem_temporariesOf, Operation.isHold]
  obtain ⟨tree, placement, gathered, temporaries, placed, run⟩ := tree_of_workload work fun op hop i hi =>
    mem_order_of_mem_loopExpr h work (fun hop => mem_of_give scheduled.gives (mem_filter.1 hop).1) hop hi
  have some : ops.isEmpty = false := by
    cases ops with
    | nil => exact absurd (map_eq_nil_iff.1 (nil_perm.1 scheduled.gives)) nonempty
    | cons op ops => rfl
  refine ⟨⟨tree, temporariesOf ((ops.filter keep).filter fun op => !op.isHold), placement.declared, placement.kept⟩, ?_,
    fun ρ => ?_⟩
  · simp only [compile, Bool.false_eq_true, if_false, schedule, pure_bind, some, inline, gathered, temporaries, placed]
  · obtain ⟨st, exec, progress⟩ := run ρ
    refine ⟨st, exec, fun name shape idx => ?_⟩
    rw [progress.contents, sum_contribution scheduled.gives dropped]

/-! ## Assignments of zero -/

section

omit [Exact K]

omit [Scalar K] [Field K] in
/-- What is reachable from assignments is a zero that is assigned, or reachable from the others. -/
theorem reachable_removeZeros (h : Reachable (assignments.map Prod.snd) e) :
    e.isZero = true ∨ Reachable ((assignments.filter fun a => !a.2.isZero).map Prod.snd) e := by
  induction h with
  | root mem =>
    obtain ⟨a, ha, rfl⟩ := mem_map.1 mem
    cases zero : a.2.isZero with
    | true => exact .inl rfl
    | false => exact .inr (.root (mem_map_of_mem (mem_filter.2 ⟨ha, by simp [zero]⟩)))
  | child _ mem ih =>
    rcases ih with zero | reach
    · obtain ⟨shape, rfl⟩ := isZero_iff.1 zero
      cases mem
    · exact .inr (.child reach mem)

omit [Scalar K] [Field K] in
theorem reachable_of_removeZeros (h : Reachable ((assignments.filter fun a => !a.2.isZero).map Prod.snd) e) :
    Reachable (assignments.map Prod.snd) e :=
  h.trans fun _ mem => .root ((filter_sublist.map _).subset mem)

omit [Scalar K] [Field K] in
theorem given_of_removeZeros {name : String} {shape : Shape}
    (h : Given (assignments.filter fun a => !a.2.isZero) name shape) : Given assignments name shape := by
  obtain ⟨a, ha, var⟩ := h
  exact ⟨a, mem_of_mem_filter ha, var⟩

/-- Without the assignments of zero, assignments can still be compiled. -/
theorem Compilable.removeZeros (h : Compilable env size assignments outer) :
    Compilable env size (assignments.filter fun a => !a.2.isZero) outer := by
  have lookup : ∀ {r : Expr K}, r.Lookup (Given assignments) →
      r.Lookup (Given (assignments.filter fun a => !a.2.isZero)) := by
    rintro r ⟨name, shape, out, form⟩
    exact ⟨name, shape, fun given => out (given_of_removeZeros given), form⟩
  refine ⟨h.nodup.filter _, fun {a} ha => ?_, fun ha => h.scalar (mem_of_mem_filter ha),
    fun ha => h.free (mem_of_mem_filter ha), fun reach => ?_, fun {i} hi => ?_⟩
  · obtain ⟨name, shape, -, form⟩ := h.target (mem_of_mem_filter ha)
    refine ⟨name, shape, ⟨a, ha, ?_⟩, form.imp id (Or.imp (fun ⟨slots, eq, slot⟩ => ⟨slots, eq, fun r hr => lookup (slot r hr)⟩) id)⟩
    rcases form with eq | ⟨slots, eq, -⟩ | ⟨dims, eq⟩ <;> rw [eq] <;> rfl
  · have readable := h.readable (reachable_of_removeZeros reach)
    exact ⟨readable.fits, readable.entries, fun eq given => readable.unread eq (given_of_removeZeros given),
      fun hr => lookup (readable.lookups hr)⟩
  · refine (h.ordered (hi.imp (fun ⟨a, ha, mem⟩ => ⟨a, mem_of_mem_filter ha, mem⟩)
      fun ⟨e, reach, mem⟩ => ⟨e, reachable_of_removeZeros reach, mem⟩)).imp id fun ⟨e, reach, taken⟩ => ?_
    rcases reachable_removeZeros reach with zero | reach
    · obtain ⟨shape, rfl⟩ := isZero_iff.1 zero
      cases taken
    · exact ⟨e, reach, taken⟩

/-- Assignments of zero give nothing. -/
theorem total_removeZeros (ρ : Valuation) (p : VarEntry) :
    total env size ρ (assignments.filter fun a => !a.2.isZero) p = total env size ρ assignments p := by
  unfold total
  induction assignments with
  | nil => rfl
  | cons a rest ih =>
    cases zero : a.2.isZero with
    | false => rw [filter_cons_of_pos (by simp [zero]), map_cons, map_cons, sum_cons, sum_cons, ih]
    | true =>
      obtain ⟨shape, eq⟩ := isZero_iff.1 zero
      rw [filter_cons_of_neg (by simp [zero]), ih, map_cons, sum_cons]
      simp [eq, value_zero]

omit [Field K] in
/-- Where nothing is assigned there is nothing to do. -/
theorem compile_nil [LawfulBEq (Expr K)] (outer : List Index) : compile ([] : List (Expr K × Expr K)) outer = throw .nothingToDo := by
  have none : ∀ e : Expr K, ¬ Reachable [] e := fun e reach => by
    induction reach with
    | root mem => cases mem
    | child _ _ ih => exact ih
  obtain ⟨ops, schedule, scheduled⟩ : ∃ ops,
      Schedule.operations ([] : List (Expr K × Expr K)) (IndexOrder.startingWith outer (usedIndices ([] : List (Expr K)))) = pure ops ∧
        Schedules [] ops :=
    Schedule.operations_eq (by simp) (by simp) fun e reach => absurd reach (none e)
  have empty : ops = [] := by
    refine eq_nil_iff_forall_not_mem.2 fun o ho => ?_
    cases about : o.subject? with
    | some x => exact none x (scheduled.reachable ho about)
    | none => exact absurd (scheduled.gives.mem_iff.1 (mem_filter.2 ⟨ho, by simp [about]⟩)) not_mem_nil
  simp only [compile, Bool.false_eq_true, if_false, map_nil, schedule, pure_bind, empty, isEmpty_nil, if_true]
  rfl

end

/-- **Compilation is correct.** Assignments that can be compiled make a program, unless none is left when those of zero
are removed. Every read of a run finds its value, and the run adds to each entry of each variable what the assignments
give to it. -/
theorem compile_correct (h : Compilable env size assignments outer) (removeZeros : Bool) (ρ : Valuation) :
    ((if removeZeros then ∀ a ∈ assignments, a.2.isZero = true else assignments = []) ∧
        compile assignments outer removeZeros = throw .nothingToDo) ∨
      ∃ p st, compile assignments outer removeZeros = pure p ∧ p.exec env size ρ = some st ∧
        ∀ name shape idx, st.contents name shape idx =
          env.tensor name shape idx + total env size ρ assignments ⟨name, shape, idx⟩ := by
  cases removeZeros with
  | false =>
    by_cases empty : assignments = []
    · exact .inl ⟨empty, empty ▸ compile_nil outer⟩
    · obtain ⟨p, made, run⟩ := compile_eq h empty
      obtain ⟨st, exec, contents⟩ := run ρ
      exact .inr ⟨p, st, made, exec, contents⟩
  | true =>
    have same : compile assignments outer true = compile (assignments.filter fun a => !a.2.isZero) outer := rfl
    by_cases empty : (assignments.filter fun a => !a.2.isZero) = []
    · exact .inl ⟨by simpa using empty, by rw [same, empty, compile_nil]⟩
    · obtain ⟨p, made, run⟩ := compile_eq h.removeZeros empty
      obtain ⟨st, exec, contents⟩ := run ρ
      exact .inr ⟨p, st, same.trans made, exec, fun name shape idx => by rw [contents, total_removeZeros]⟩

end Compile

/-- Two entries, each given its product with the sum of both. The index of the sum is the index of the entries. -/
def scaledBySum : List (Expr ℚ × Expr ℚ) :=
  [(.indexed (.var "A" [some 2]) [.free ⟨0⟩],
    .binary .product (.indexSum (.indexed (.var "B" [some 2]) [.free ⟨0⟩]) [(⟨0⟩, 2)])
      (.indexed (.var "B" [some 2]) [.free ⟨0⟩]))]

/-- The entries of each variable are 1 and 2. -/
def countingEntries : Environment ℚ :=
  ⟨fun _ _ idx => idx.sum + 1, fun _ _ => 0, fun _ _ => 0, fun _ => 0⟩

theorem compilable_scaledBySum : Compilable countingEntries (fun _ => 2) scaledBySum [] := by
  have free : ∀ name i,
      i ∈ (indexed (.var name [some 2]) [.free ⟨0⟩] : Expr ℚ).freeIndices ↔ i = ⟨0⟩ := by
    intro name i
    rw [mem_freeIndices_indexed]
    simp [freeIndices]
  have parts : ∀ r ∈ scaledBySum.map Prod.snd, Everywhere
      (fun e => e.Readable countingEntries (fun _ => 2) (Given scaledBySum) ∧ ∀ i ∈ e.freeIndices, i = ⟨0⟩) r := by
    have node {e : Expr ℚ} := Everywhere.node (e := e) (P := fun e =>
      e.Readable countingEntries (fun _ => 2) (Given scaledBySum) ∧ ∀ i ∈ e.freeIndices, i = ⟨0⟩)
    have outside : ¬ Given scaledBySum "B" [some 2] := by simp [Given, scaledBySum, targetVar?]
    have var := node (e := .var "B" [some 2])
      ⟨⟨trivial, fun eq => (by cases eq), fun eq => (by cases eq; exact outside), fun mem => (by cases mem)⟩,
        by simp [freeIndices]⟩ fun _ mem => (by cases mem)
    have entry := node (e := .indexed (.var "B" [some 2]) [.free ⟨0⟩])
      ⟨⟨⟨by simp, .cons (.inr rfl) .nil⟩, fun eq other => (by cases eq; cases other), fun eq => (by cases eq),
          by simp [runtimeSlots, Slot.expr?]⟩,
        fun i => (free "B" i).1⟩
      (by simpa [parts, children, runtimeSlots, Slot.expr?] using var)
    have sum := node (e := .indexSum (.indexed (.var "B" [some 2]) [.free ⟨0⟩]) [(⟨0⟩, 2)])
      ⟨⟨⟨rfl, by simp, by simp [mem_freeIndices_indexed], by simp, by simp⟩, fun eq => (by cases eq), fun eq => (by cases eq), fun mem => (by cases mem)⟩,
        fun i hi => entry.here.2 i (mem_freeIndices_indexSum.1 hi).1⟩
      (by simpa [parts, children, runtimeSlots] using entry)
    intro r hr
    obtain rfl := mem_singleton.1 hr
    refine node ⟨⟨⟨rfl, rfl⟩, fun eq => (by cases eq), fun eq => (by cases eq), fun mem => (by cases mem)⟩, fun i hi => ?_⟩ ?_
    · exact (mem_freeIndices_binary.1 hi).elim (sum.here.2 i) (entry.here.2 i)
    · simpa [parts, children, runtimeSlots] using ⟨sum, entry⟩
  refine ⟨by simp [scaledBySum], ?_, ?_, ?_, fun reach => (reach.everywhere parts).here.1, ?_⟩
  · intro a ha
    obtain rfl := mem_singleton.1 ha
    exact ⟨"A", [some 2], ⟨_, ha, rfl⟩, .inr (.inl ⟨_, rfl, by simp⟩)⟩
  · intro a ha
    obtain rfl := mem_singleton.1 ha
    rfl
  · intro a ha i hi
    obtain rfl := (parts _ (mem_map_of_mem ha)).here.2 i hi
    obtain rfl := mem_singleton.1 ha
    simp [mem_freeIndices_indexed]
  · rintro i hi
    have zero : i = ⟨0⟩ := by
      rcases hi with ⟨a, ha, hi⟩ | ⟨e, reach, hi⟩
      · obtain rfl := mem_singleton.1 ha
        exact (free "A" i).1 hi
      · exact (reach.everywhere parts).here.2 i hi
    refine .inr ⟨.indexed (.var "B" [some 2]) [.free ⟨0⟩], .child (.root (mem_singleton.2 rfl)) ?_, ?_⟩
    · simp [children]
    · simp [indexOrder?, zero, Slot.index?]

/-- The program for the scaled entries adds 6 to the second one. -/
theorem compile_scaledBySum : ∃ p st, compile scaledBySum [] true = pure p ∧
    p.exec countingEntries (fun _ => 2) (fun _ => 0) = some st ∧ st.contents "A" [some 2] [1] = 2 + 6 := by
  rcases compile_correct compilable_scaledBySum true (fun _ => 0) with ⟨zeros, -⟩ | ⟨p, st, made, exec, contents⟩
  · simp [scaledBySum, Expr.isZero] at zeros
  · refine ⟨p, st, made, exec, (contents _ _ _).trans ?_⟩
    have targets : (Expr.indexed (.var "A" [some 2]) [.free ⟨0⟩] : Expr ℚ).freeIndices = [⟨0⟩] := by
      simp [Expr.freeIndices, Indices.union, Indices.insert, Slot.index?]
    norm_num [total, scaledBySum, targets, bindersOf, Valuation.ranging, placeOf, BinaryOp.apply, countingEntries, Expr.position,
      List.range_succ, Valuation.set, show Int.toNat 2 = 2 from rfl]

end Program

end FormCompiler
