import FormCompiler.Proofs.Compilation
import FormCompiler.Proofs.Completeness
import FormCompiler.Proofs.RelabelledPrograms
import FormCompiler.Proofs.Sessions

/-!
# Assignments that are repeated

References to temporaries are counted once for each operation of a program, and once more for each place where it
occurs. The counts agree as long as only numbers, variables and entries of variables are assigned more than once to the
same target, because such assignments refer to no temporary. Then compilation fails only where nothing is assigned.
What is computed and assigned twice is refused: references are taken by multiples of the count, which cannot take all.
-/

namespace FormCompiler

open FormCompiler.Expr List Build

namespace Expr

variable {K : Type}

/-- Is the expression a number, a variable or an entry of a variable? -/
def isBare : Expr K → Bool
  | .var _ _ | .access _ _ _ | .indexed (.var _ _) _ => true
  | .zero shape => shape.isEmpty
  | .literal t _ => t.shape.isEmpty
  | _ => false

variable {e : Expr K}

theorem not_isSum_of_isBare (h : e.isBare = true) : e.isSum = false := by
  cases e <;> simp_all [isBare, isSum]

theorem not_isComputed_of_isBare (h : e.isBare = true) : e.isComputed = false := by
  cases e <;> simp_all [isBare, isComputed, shape, Shape.ofNats]

/-- What is bare refers to variables at most. -/
theorem eq_var_of_mem_children_of_isBare {c : Expr K} (h : e.isBare = true) (hc : c ∈ e.children) :
    ∃ name shape, c = .var name shape := by
  cases e with
  | indexed t slots => cases t <;> simp_all [isBare, children]
  | access name shape dims => exact ⟨name, shape, by simpa [children] using hc⟩
  | _ => simp_all [isBare, children]

end Expr

namespace Program

section Lawful

variable {K : Type} [Scalar K] [LawfulBEq (Expr K)]

variable {e : Expr K}

omit [LawfulBEq (Expr K)] in
/-- What is given without any computation refers to no temporary. -/
theorem detached_give {T : List (Expr K)} (made : ∀ t ∈ T, t.isSum = true ∨ t.isComputed = true) (v : Expr K)
    (bare : e.isBare = true) : Detached T (.give v e) := by
  intro numbering known
  have out : ∀ {x : Expr K}, x.isBare = true → numbering.contains x = false := by
    intro x hx
    refine Bool.eq_false_iff.2 fun mem => ?_
    have := made x (known x (Std.HashMap.contains_iff_mem.1 mem))
    rw [not_isSum_of_isBare hx, not_isComputed_of_isBare hx] at this
    simp at this
  rw [references, countRefs_eq, out bare, if_neg Bool.false_ne_true]
  refine foldlRecOn _ _ (motive := (· = ∅)) rfl ?_
  rintro _ rfl c hc
  obtain ⟨name, shape, rfl⟩ := eq_var_of_mem_children_of_isBare bare hc
  rw [countRefs_eq, out rfl, if_neg Bool.false_ne_true]
  rfl

/-- Assignments that can be scheduled: each target has the indices of what it is given, and each index is in the outer
order or addresses an entry. -/
structure Schedulable (assignments : List (Expr K × Expr K)) (outer : List Index) : Prop where
  free {a : Expr K × Expr K} : a ∈ assignments → a.2.freeIndices ⊆ a.1.freeIndices
  target {a : Expr K × Expr K} {i : Index} : a ∈ assignments → i ∈ a.1.freeIndices →
    i ∈ outer ∨ Addressed (assignments.map Prod.snd) i
  node {e : Expr K} {i : Index} : Reachable (assignments.map Prod.snd) e → i ∈ e.freeIndices →
    i ∈ outer ∨ Addressed (assignments.map Prod.snd) i

variable {assignments : List (Expr K × Expr K)} {outer : List Index}

omit [Scalar K] [LawfulBEq (Expr K)] in
/-- Assignments of zero address no entry. -/
theorem addressed_removeZeros {i : Index} (h : Addressed (assignments.map Prod.snd) i) :
    Addressed ((assignments.filter fun a => !a.2.isZero).map Prod.snd) i := by
  obtain ⟨e, reach, taken⟩ := h
  rcases reachable_removeZeros reach with zero | reach
  · obtain ⟨shape, rfl⟩ := isZero_iff.1 zero
    cases taken
  · exact ⟨e, reach, taken⟩

omit [Scalar K] [LawfulBEq (Expr K)] in
theorem Schedulable.removeZeros (h : Schedulable assignments outer) :
    Schedulable (assignments.filter fun a => !a.2.isZero) outer where
  free ha := h.free (mem_of_mem_filter ha)
  target ha hi := (h.target (mem_of_mem_filter ha) hi).imp id addressed_removeZeros
  node reach hi := (h.node (reachable_of_removeZeros reach) hi).imp id addressed_removeZeros

variable {a : Expr K × Expr K}

omit [Scalar K] [LawfulBEq (Expr K)] in
/-- A further assignment of what is below others needs no further index. -/
theorem Schedulable.cons (h : Schedulable assignments outer)
    (reach : Reachable (assignments.map Prod.snd) a.2) (free : a.2.freeIndices ⊆ a.1.freeIndices)
    (target : ∀ i ∈ a.1.freeIndices, i ∈ outer ∨ Addressed (assignments.map Prod.snd) i) :
    Schedulable (a :: assignments) outer := by
  have below : ∀ {e}, Reachable ((a :: assignments).map Prod.snd) e → Reachable (assignments.map Prod.snd) e :=
    fun he => he.trans (forall_mem_cons.2 ⟨reach, fun r hr => .root hr⟩)
  have more : ∀ {i}, i ∈ outer ∨ Addressed (assignments.map Prod.snd) i →
      i ∈ outer ∨ Addressed ((a :: assignments).map Prod.snd) i := fun hi => hi.imp id fun ⟨e, he, taken⟩ =>
    ⟨e, he.trans fun r hr => .root (mem_cons_of_mem _ hr), taken⟩
  refine ⟨fun hb => ?_, fun hb hi => ?_, fun he hi => more (h.node (below he) hi)⟩
  · rcases mem_cons.1 hb with rfl | hb
    · exact free
    · exact h.free hb
  · rcases mem_cons.1 hb with rfl | hb
    · exact more (target _ hi)
    · exact more (h.target hb hi)

open Schedule (Schedules directs stagedOp isDirect stagedOp_cases stagedOp_injective apart mem_of_give)

section Scheduled

variable {ops : List (Operation K)} (scheduled : Schedules assignments ops)
include scheduled

/-- An operation that occurs more than once gives what is assigned more than once. -/
theorem eq_give_of_repeated (bare : ∀ a, 2 ≤ assignments.count a → a.2.isBare = true) {o : Operation K}
    (again : 2 ≤ ops.count o) : ∃ v e, o = .give v e ∧ e.isBare = true := by
  cases about : o.subject? with
  | some x =>
    have := scheduled.count_le_one about
    omega
  | none =>
    rw [scheduled.count_give about] at again
    obtain ⟨a, -, rfl⟩ := mem_map.1 (count_pos_iff.1 (Nat.lt_of_lt_of_le Nat.zero_lt_two again))
    rw [Schedule.stagedOps, count_map_of_injective _ _ (stagedOp_injective _)] at again
    rcases stagedOp_cases _ a with ⟨direct, -⟩ | ⟨-, give⟩
    · simp [isDirect, not_isSum_of_isBare (bare a again)] at direct
    · exact ⟨a.1, a.2, give, bare a again⟩

theorem mem_order_of_scheduled (h : Schedulable assignments outer) {op : Operation K} (hop : op ∈ ops) {i : Index}
    (hi : i ∈ op.loopExpr.freeIndices) :
    i ∈ IndexOrder.startingWith outer (usedIndices (assignments.map Prod.snd)) := by
  refine mem_order ?_
  cases op with
  | evaluate e => exact h.node (scheduled.reachable hop rfl) hi
  | initialise s => exact h.node (scheduled.reachable hop rfl) hi
  | hold e => exact h.node (scheduled.reachable hop rfl) hi
  | accumulate s => exact h.node (scheduled.refs_reachable (apart assignments) hop mem_cons_self).1 hi
  | give v e => exact h.target (mem_of_give scheduled.gives hop) hi
  | giveSum v s => exact h.node (scheduled.refs_reachable (apart assignments) hop mem_cons_self).1 hi

/-- What is computed on its own is no sum. -/
theorem computed_of_scheduled {e : Expr K} (h : .evaluate e ∈ ops) : e.isSum = false ∧ e.isComputed = true := by
  obtain ⟨-, -, provided⟩ := scheduled.mem_providers h rfl
  rcases Schedule.eq_of_mem_providers provided with ⟨-, other | other | other⟩ | ⟨single, computed, -⟩
  · cases other
  · cases other
  · cases other
  · exact ⟨single, computed⟩

/-- What is started or added up is a sum, and is both. -/
theorem summed_of_scheduled {s : Expr K} (h : .initialise s ∈ ops ∨ .accumulate s ∈ ops) :
    s.isSum = true ∧ .initialise s ∈ ops ∧ .accumulate s ∈ ops := by
  obtain ⟨o, ho, about, other⟩ : ∃ o ∈ ops, o.subject? = some s ∧ o ≠ .evaluate s := by
    rcases h with h | h
    · exact ⟨_, h, rfl, by simp⟩
    · exact ⟨_, h, rfl, by simp⟩
  obtain ⟨reach, out, provided⟩ := scheduled.mem_providers ho about
  rcases Schedule.eq_of_mem_providers provided with ⟨sum, -⟩ | ⟨-, -, eq⟩
  · exact ⟨sum, scheduled.mem_of_mem_providers reach out (by simp [providers, sum]),
      scheduled.mem_of_mem_providers reach out (by simp [providers, sum])⟩
  · exact absurd eq other

end Scheduled

/-- A loop tree for assignments: it holds the operations of a schedule, except for computations of scalars that are used
once, each in the loops that it needs. -/
structure Laid (assignments : List (Expr K × Expr K)) (outer : List Index) (ops : List (Operation K))
    (tree : List (Statement K)) : Prop where
  scheduled : Schedules assignments ops
  sublist : (Statement.operationsOf tree).Sublist ops
  count {o : Operation K} : o.isHold = false →
    (∀ e, o = .evaluate e → 2 ≤ (refCount (assignments.map Prod.snd)).getD e 0) →
    (Statement.operationsOf tree).count o = ops.count o
  nested : Statement.NestedAll (IndexOrder.startingWith outer (usedIndices (assignments.map Prod.snd))) [] tree

/-- Compilation lays out a tree and places its temporaries. -/
theorem exists_laid (h : Schedulable assignments outer) (nonempty : assignments ≠ []) :
    ∃ ops tree, Laid assignments outer ops tree ∧ compile assignments outer = (do
      let placement ← place tree (temporariesOf (distinct (Statement.operationsOf tree)))
        (IndexOrder.startingWith outer (usedIndices (assignments.map Prod.snd)))
      return ⟨tree, temporariesOf (distinct (Statement.operationsOf tree)), placement.declared, placement.kept⟩) := by
  obtain ⟨ops, schedule, scheduled⟩ := Schedule.operations_eq (fun a ha => h.free ha)
    (fun a ha i hi => mem_order (h.target ha hi)) (fun e he i hi => mem_order (h.node he hi))
  obtain ⟨keep, inline, dropped⟩ := inlineTemporaries_eq (assignments.map Prod.snd) ops
  have loops : ∀ op ∈ ops.filter keep, ∀ i ∈ op.loopExpr.freeIndices,
      i ∈ IndexOrder.startingWith outer (usedIndices (assignments.map Prod.snd)) := fun op hop i hi =>
    mem_order_of_scheduled scheduled h (mem_filter.1 hop).1 hi
  obtain ⟨tree, gathered, operations, nested⟩ := Statement.exists_ofOperations loops
  have some : ops.isEmpty = false := by
    cases ops with
    | nil => exact absurd (map_eq_nil_iff.1 (nil_perm.1 scheduled.gives)) nonempty
    | cons op ops => rfl
  refine ⟨ops, tree, ⟨scheduled, operations ▸ filter_sublist.trans filter_sublist, fun {o} placed shared => ?_,
    nested⟩, ?_⟩
  · have kept : keep o = true := by
      by_contra drop
      obtain ⟨e, eq, -, once⟩ := dropped o (by simpa using drop)
      have := shared e eq
      omega
    rw [operations, count_filter (by simp [placed]), count_filter kept]
  · simp only [compile, Bool.false_eq_true, if_false, schedule, pure_bind, some, inline, gathered]

section Laid

variable {ops : List (Operation K)} {tree : List (Statement K)}

/-- What starts or adds up a sum is in the tree. -/
theorem Laid.mem_of_sum (laid : Laid assignments outer ops tree) {s : Expr K} {o : Operation K} (ho : o ∈ ops)
    (about : o = .initialise s ∨ o = .accumulate s) : o ∈ Statement.operationsOf tree := by
  refine count_pos_iff.1 ((laid.count ?_ ?_).symm ▸ count_pos_iff.2 ho)
  · rcases about with rfl | rfl <;> rfl
  · rcases about with rfl | rfl <;> simp

theorem mem_temporaries : e ∈ temporariesOf (distinct ops) ↔ .evaluate e ∈ ops ∨ .accumulate e ∈ ops := by
  rw [mem_temporariesOf, mem_distinct, mem_distinct]

theorem Laid.nodup_temporaries (laid : Laid assignments outer ops tree) :
    (temporariesOf (distinct (Statement.operationsOf tree))).Nodup := by
  refine nodup_temporariesOf (nodup_distinct _) fun t he ha => ?_
  have sum := (summed_of_scheduled laid.scheduled (.inr (laid.sublist.subset (mem_distinct.1 ha)))).1
  simp [(computed_of_scheduled laid.scheduled (laid.sublist.subset (mem_distinct.1 he))).1] at sum

/-- The temporaries find their places, if only what is bare is assigned more than once to the same target. -/
theorem Laid.place (laid : Laid assignments outer ops tree) (h : Schedulable assignments outer)
    (bare : ∀ a, 2 ≤ assignments.count a → a.2.isBare = true) :
    ∃ placement, place tree (temporariesOf (distinct (Statement.operationsOf tree)))
      (IndexOrder.startingWith outer (usedIndices (assignments.map Prod.snd))) = pure placement := by
  have mem : ∀ {o : Operation K}, o ∈ Statement.operationsOf tree → o ∈ ops := fun ho => laid.sublist.subset ho
  refine place_eq laid.nodup_temporaries (fun op again => ?_) laid.nested (fun t ht i hi => ?_) (fun s hs => ?_) fun t ht => ?_
  · obtain ⟨v, e, rfl, simple⟩ := eq_give_of_repeated laid.scheduled bare (again.trans (laid.sublist.count_le op))
    refine detached_give (fun t ht => ?_) v simple
    exact (mem_temporaries.1 ht).symm.imp (fun found => (summed_of_scheduled laid.scheduled (.inr (mem found))).1)
      fun found => (computed_of_scheduled laid.scheduled (mem found)).2
  · rcases mem_temporaries.1 ht with found | found
    · exact mem_order_of_scheduled laid.scheduled h (mem found) hi
    · exact mem_order_of_scheduled laid.scheduled h (summed_of_scheduled laid.scheduled (.inr (mem found))).2.1 hi
  · exact mem_temporaries.2 (.inr (laid.mem_of_sum (summed_of_scheduled laid.scheduled (.inl (mem hs))).2.2 (.inr rfl)))
  · exact (mem_temporaries.1 ht).imp id fun found =>
      laid.mem_of_sum (summed_of_scheduled laid.scheduled (.inr (mem found))).2.1 (.inl rfl)

end Laid

/-- Assignments compile to a program, if only what is bare is assigned more than once to the same target. -/
theorem compile_of_bare (h : Schedulable assignments outer) (bare : ∀ a, 2 ≤ assignments.count a → a.2.isBare = true)
    (nonempty : assignments ≠ []) : ∃ p, compile assignments outer = pure p := by
  obtain ⟨ops, tree, laid, eq⟩ := exists_laid h nonempty
  obtain ⟨placement, placed⟩ := laid.place h bare
  exact ⟨_, by rw [eq, placed, pure_bind]⟩

/-- Where nothing is assigned there is nothing to do, and otherwise there is a program. -/
theorem compile_cases_of_bare (h : Schedulable assignments outer)
    (bare : ∀ a, 2 ≤ assignments.count a → a.2.isBare = true) :
    assignments = [] ∧ compile assignments outer = throw .nothingToDo ∨
      assignments ≠ [] ∧ ∃ p, compile assignments outer = pure p := by
  by_cases empty : assignments = []
  · exact .inl ⟨empty, empty ▸ compile_nil outer⟩
  · exact .inr ⟨empty, compile_of_bare h bare empty⟩

/-! ## Computations that are repeated -/

/-- Whatever a computation returns from any state has a property. -/
def Gives {σ α : Type} (x : StateT σ Build α) (Q : α → Prop) : Prop := ∀ st, (x.run st).Yields fun p => Q p.1

section Gives

variable {σ α β : Type} {Q : α → Prop} {R : β → Prop}

theorem gives_pure {a : α} (h : Q a) : Gives (pure a : StateT σ Build α) Q := fun _ => yields_pure h

theorem gives_any (x : StateT σ Build α) : Gives x fun _ => True := fun st => yields_any (x.run st)

variable {x : StateT σ Build α}

theorem Gives.mono {Q' : α → Prop} (h : Gives x Q) (imp : ∀ a, Q a → Q' a) : Gives x Q' :=
  fun st => (h st).mono fun p => imp p.1

theorem Gives.bind {f : α → StateT σ Build β} (hx : Gives x Q) (hf : ∀ a, Q a → Gives (f a) R) : Gives (x >>= f) R := by
  intro st
  rw [StateT.run_bind]
  exact (hx st).bind fun p hp => hf p.1 hp p.2

end Gives

section Divides

variable {frame : PlacementFrame K} (t : Expr K)

/-- A block keeps the count of a temporary, or takes all of it. -/
theorem gives_declareIn (path : List Nat) (loops : List Index) (found : Tally K) :
    Gives (declareIn frame path loops found) fun left => ∃ k, found.getD t 0 = left.getD t 0 + k * frame.total.getD t 0 := by
  have entry : ∀ {e : Expr K} {n : Nat}, (e, n) ∈ ((found.toList.mergeSort fun a b =>
      frame.numbering.getD a.1 0 ≤ frame.numbering.getD b.1 0).filter fun p => p.2 == frame.total.getD p.1 0) →
      found.getD e 0 = frame.total.getD e 0 := by
    intro e n mem
    rw [mem_filter, mem_mergeSort, Std.HashMap.mem_toList_iff_getElem?_eq_some, beq_iff_eq] at mem
    rw [Std.HashMap.getD_eq_getD_getElem?, mem.1, Option.getD_some]
    exact mem.2
  unfold declareIn
  refine (gives_any _).bind fun declared _ => (gives_any _).bind fun _ _ => gives_pure ?_
  dsimp only
  generalize ((found.toList.mergeSort _).filter _) = complete at entry ⊢
  by_cases mem : t ∈ complete.foldl (fun acc p => acc.erase p.1) found
  · exact ⟨0, by rw [getD_foldl_erase mem, Nat.zero_mul, Nat.add_zero]⟩
  · rw [Std.HashMap.getD_eq_fallback mem]
    by_cases here : t ∈ found
    · have : ∃ p ∈ complete, p.1 = t := by
        by_contra none
        exact mem (mem_foldl_erase.2 ⟨here, fun p hp same => none ⟨p, hp, same⟩⟩)
      obtain ⟨⟨_, n⟩, hp, rfl⟩ := this
      exact ⟨1, by rw [entry hp, Nat.one_mul, Nat.zero_add]⟩
    · exact ⟨0, by rw [Std.HashMap.getD_eq_fallback here, Nat.zero_mul]⟩

mutual

/-- Of the references below a statement, multiples of the total are taken. -/
theorem gives_placeStatement (path : List Nat) (loops : List Index) : (s : Statement K) →
    Gives (placeStatement frame path loops s) fun left =>
      ∃ k, referred frame.numbering s.operations t = left.getD t 0 + k * frame.total.getD t 0
  | .run op => by
    rw [placeStatement]
    exact gives_pure ⟨0, by simp [referred, Statement.operations]⟩
  | .loop i body => by
    rw [placeStatement, Statement.operations]
    refine (gives_placeAll path 0 (loops ++ [i]) body ∅).bind ?_
    rintro found ⟨k, below⟩
    refine (gives_declareIn t path (loops ++ [i]) found).mono ?_
    rintro left ⟨l, here⟩
    rw [Std.HashMap.getD_empty, Nat.zero_add] at below
    exact ⟨k + l, by rw [below, here]; ring⟩

/-- Of the references below the statements of a block, multiples of the total are taken. -/
theorem gives_placeAll (path : List Nat) (n : Nat) (loops : List Index) : (ss : List (Statement K)) → (found : Tally K) →
    Gives (placeAll frame path n loops ss found) fun left => ∃ k,
      found.getD t 0 + referred frame.numbering (Statement.operationsOf ss) t = left.getD t 0 + k * frame.total.getD t 0
  | [], found => by
    rw [placeAll, Statement.operationsOf]
    exact gives_pure ⟨0, by simp [referred]⟩
  | s :: ss, found => by
    rw [placeAll, Statement.operationsOf]
    refine (gives_placeStatement (path ++ [n]) loops s).bind ?_
    rintro here ⟨k, first⟩
    refine (gives_placeAll path (n + 1) loops ss (found.merge here)).mono ?_
    rintro left ⟨l, rest⟩
    rw [Tally.getD_merge] at rest
    rw [referred_append, first]
    refine ⟨k + l, ?_⟩
    rw [add_mul, add_left_comm (left.getD t 0), ← rest]
    ring

end

end Divides

/-- Where temporaries find their places, the references of distinct operations divide those of all operations. -/
theorem dvd_of_place (tree : List (Statement K)) (T : List (Expr K)) (order : IndexOrder) (t : Expr K) :
    (place tree T order).Yields fun _ =>
      referred (T.zipIdx.foldl (fun m (t, n) => m.insert t n) ∅) (distinct (Statement.operationsOf tree)) t ∣
        referred (T.zipIdx.foldl (fun m (t, n) => m.insert t n) ∅) (Statement.operationsOf tree) t := by
  unfold place
  dsimp only
  generalize T.zipIdx.foldl (fun m (t, n) => m.insert t n) (∅ : Std.HashMap (Expr K) Nat) = numbering
  have count := (total_spec numbering (distinct (Statement.operationsOf tree)) ∅ t).1
  rw [Std.HashMap.getD_empty, Nat.zero_add] at count
  generalize (distinct (Statement.operationsOf tree)).foldl (fun acc op => acc.merge (references numbering op))
    (∅ : Tally K) = total at count ⊢
  have visit : Gives (do
      let found ← placeAll ⟨numbering, total, order⟩ [] 0 [] tree ∅
      declareIn ⟨numbering, total, order⟩ [] [] found) fun rest =>
        ∃ k, referred numbering (Statement.operationsOf tree) t = rest.getD t 0 + k * total.getD t 0 := by
    refine (gives_placeAll t [] 0 [] tree ∅).bind ?_
    rintro found ⟨k, below⟩
    refine (gives_declareIn t [] [] found).mono ?_
    rintro rest ⟨l, here⟩
    rw [Std.HashMap.getD_empty, Nat.zero_add] at below
    exact ⟨k + l, by rw [below, here]; ring⟩
  refine yields_require.bind fun _ _ => yields_require.bind fun _ _ => (visit {}).bind ?_
  rintro ⟨rest, placement⟩ ⟨k, all⟩
  refine yields_require.bind fun _ empty => yields_pure ?_
  have none : rest.getD t 0 = 0 := Std.HashMap.getD_eq_fallback (Std.HashMap.isEmpty_iff_forall_not_mem.1 empty t)
  rw [all, none, Nat.zero_add, count]
  exact Dvd.intro_left k rfl

variable {ops : List (Operation K)}

/-- References that are made twice and counted once do not divide all references, as long as some are made once. -/
theorem not_dvd_of_repeated {numbering : Std.HashMap (Expr K) Nat} {t : Expr K}
    (twice : ∀ op, ops.count op ≤ 2) {single double : Operation K} (once : ops.count single = 1)
    (refers : 0 < (references numbering single).getD t 0) (again : ops.count double = 2)
    (refers' : 0 < (references numbering double).getD t 0) :
    ¬ referred numbering (distinct ops) t ∣ referred numbering ops t := by
  have mem : single ∈ ops.toFinset := mem_toFinset.2 (count_pos_iff.1 (by omega))
  have mem' : double ∈ ops.toFinset := mem_toFinset.2 (count_pos_iff.1 (by omega))
  have more : referred numbering (distinct ops) t < referred numbering ops t := by
    rw [referred_distinct_eq_sum, referred_eq_sum]
    refine Finset.sum_lt_sum (fun op hop => ?_) ⟨double, mem', by rw [again]; omega⟩
    exact Nat.le_mul_of_pos_left _ (count_pos_iff.2 (mem_toFinset.1 hop))
  have less : referred numbering ops t < 2 * referred numbering (distinct ops) t := by
    rw [referred_distinct_eq_sum, referred_eq_sum, Finset.mul_sum]
    exact Finset.sum_lt_sum (fun op _ => Nat.mul_le_mul_right _ (twice op)) ⟨single, mem, by rw [once]; omega⟩
  rintro ⟨k, multiple⟩
  rw [multiple] at more less
  have : 1 < k := Nat.lt_of_mul_lt_mul_left (by rwa [Nat.mul_one])
  have : k < 2 := Nat.lt_of_mul_lt_mul_left (by rwa [Nat.mul_comm _ 2])
  omega

/-- What is assigned twice is computed by an operation of the tree, once. -/
theorem Laid.provider {tree : List (Statement K)} (laid : Laid assignments outer ops tree)
    (again : 2 ≤ (assignments.map Prod.snd).count e) (made : e.isSum = true ∨ e.isComputed = true) :
    ∃ d, (d = .evaluate e ∨ d = .initialise e) ∧ (Statement.operationsOf tree).count d = 1 ∧
      e ∈ temporariesOf (distinct (Statement.operationsOf tree)) := by
  have reach : Reachable (assignments.map Prod.snd) e := .root (count_pos_iff.1 (by omega))
  have out : e ∉ directs assignments := fun direct => by
    have := (Schedule.mem_directSums direct).2.1
    omega
  have shared : 2 ≤ (refCount (assignments.map Prod.snd)).getD e 0 := by
    rw [getD_refCount]
    omega
  have single : ∀ {o : Operation K}, o ∈ e.providers → o.isHold = false → (Statement.operationsOf tree).count o = 1 := by
    intro o ho placed
    have about : o.subject? = some e := by
      rcases Schedule.eq_of_mem_providers ho with ⟨-, rfl | rfl | rfl⟩ | ⟨-, -, rfl⟩ <;> rfl
    have mem := count_pos_iff.2 (laid.scheduled.mem_of_mem_providers reach out ho)
    have := laid.scheduled.count_le_one about
    rw [laid.count placed fun x eq => by subst eq; cases about; exact shared]
    omega
  rw [mem_temporaries, ← count_pos_iff, ← count_pos_iff]
  cases sum : e.isSum with
  | true =>
    refine ⟨.initialise e, .inr rfl, single (by simp [providers, sum]) rfl, .inr ?_⟩
    rw [single (by simp [providers, sum]) rfl]
    exact Nat.one_pos
  | false =>
    have computed := made.resolve_left (by simp [sum])
    refine ⟨.evaluate e, .inl rfl, single (by simp [providers, sum, computed]) rfl, .inl ?_⟩
    rw [single (by simp [providers, sum, computed]) rfl]
    exact Nat.one_pos

/-- **Repeated computations are refused.** A computation that is assigned twice to the same target is read twice, but
these reads are counted once; so its temporary finds no place. -/
theorem not_compile_of_computed (h : Schedulable assignments outer) (twice : ∀ b, assignments.count b ≤ 2)
    (again : assignments.count a = 2) (made : a.2.isSum = true ∨ a.2.isComputed = true)
    (p : Program K) : compile assignments outer ≠ pure p := by
  have nonempty : assignments ≠ [] := fun empty => by simp [empty] at again
  have roots : 2 ≤ (assignments.map Prod.snd).count a.2 := by
    rw [← again, List.count, List.count, countP_map]
    refine countP_mono_left fun b _ same => ?_
    rw [beq_iff_eq] at same
    simp [same]
  obtain ⟨ops, tree, laid, eq⟩ := exists_laid h nonempty
  obtain ⟨d, own, once, mem⟩ := laid.provider roots made
  have staged : ∀ b, ops.count (stagedOp (refCount (assignments.map Prod.snd)) b) = assignments.count b := fun b => by
    rw [laid.scheduled.count_give (by rcases stagedOp_cases _ b with ⟨-, op⟩ | ⟨-, op⟩ <;> rw [op] <;> rfl),
      Schedule.stagedOps, count_map_of_injective _ _ (stagedOp_injective _)]
  have atMost : ∀ op, (Statement.operationsOf tree).count op ≤ 2 := fun op => by
    refine (laid.sublist.count_le op).trans ?_
    cases about : op.subject? with
    | some x => exact (laid.scheduled.count_le_one about).trans one_le_two
    | none =>
      by_cases given : op ∈ ops
      · obtain ⟨b, -, rfl⟩ := mem_map.1 (laid.scheduled.gives.mem_iff.1 (mem_filter.2 ⟨given, by simp [about]⟩))
        exact (staged b).trans_le (twice b)
      · rw [count_eq_zero_of_not_mem given]
        exact Nat.zero_le 2
  have give : (Statement.operationsOf tree).count (.give a.1 a.2) = 2 := by
    rw [laid.count rfl (by simp), ← again, ← staged a]
    rcases stagedOp_cases (refCount (assignments.map Prod.snd)) a with ⟨direct, -⟩ | ⟨-, op⟩
    · have := (Schedule.count_of_isDirect direct (count_pos_iff.1 (by omega))).1
      omega
    · rw [op]
  have refused : (compile assignments outer).Yields fun _ => False := by
    rw [eq]
    refine (dvd_of_place tree _ _ a.2).bind fun _ dvd => absurd dvd ?_
    obtain ⟨-, numbered⟩ := numbering_spec laid.nodup_temporaries
    have known := (numbered a.2).2 mem
    refine not_dvd_of_repeated atMost once ?_ give ?_
    · exact (references_spec fun s starts => by
        rcases own with rfl | rfl <;> cases starts
        exact known).1 _ (mem_references known own)
    · rw [references, countRefs_eq, if_pos (Std.HashMap.contains_iff_mem.2 known), Tally.getD_add]
      simp
  exact fun compiled => refused {} p {} (by rw [compiled]; rfl)

end Lawful

/-! ## Expressions up to sameness -/

section Relabelled

variable {K L : Type} [Scalar K] [Scalar L] (r : Relabelling K L)

theorem isBare_relabel (e : Expr K) : (e.relabel r).isBare = e.isBare := by
  cases e with
  | indexed t slots => cases t <;> simp [Expr.relabel, Expr.isBare]
  | literal t stamp => simp [Expr.relabel, Expr.isBare, Tensor.relabel]
  | _ => simp [Expr.relabel, Expr.isBare]

theorem addressed_relabel {roots : List (Expr K)} {i : Index} (h : Addressed roots i) :
    Addressed (roots.map (Expr.relabel r)) (r.index i) := by
  obtain ⟨e, reach, taken⟩ := h
  refine ⟨e.relabel r, (Schedule.reachable_relabel r).2 ⟨e, reach, rfl⟩, ?_⟩
  rw [Expr.indexOrder?_relabel]
  cases order : e.indexOrder? with
  | none => simp [order] at taken
  | some is => exact mem_map_of_mem (by simpa [order] using taken)

theorem Schedulable.relabel {assignments : List (Expr K × Expr K)} {outer : List Index}
    (h : Schedulable assignments outer) :
    Schedulable (assignments.map (Schedule.relabelPair r)) (outer.map r.index) := by
  have ordered : ∀ {i : Index}, i ∈ outer ∨ Addressed (assignments.map Prod.snd) i → r.index i ∈ outer.map r.index ∨
      Addressed ((assignments.map (Schedule.relabelPair r)).map Prod.snd) (r.index i) := fun h => by
    rw [Schedule.map_snd_relabelPair]
    exact h.imp mem_map_of_mem (addressed_relabel r)
  refine ⟨fun ha => ?_, fun ha hi => ?_, fun reach hi => ?_⟩
  · obtain ⟨b, hb, rfl⟩ := mem_map.1 ha
    exact (Expr.subset_freeIndices_relabel _).2 (h.free hb)
  · obtain ⟨b, hb, rfl⟩ := mem_map.1 ha
    obtain ⟨j, hj, rfl⟩ := mem_map.1 ((Expr.mem_freeIndices_relabel _).1 hi)
    exact ordered (h.target hb hj)
  · rw [Schedule.map_snd_relabelPair] at reach
    obtain ⟨x, hx, rfl⟩ := (Schedule.reachable_relabel _).1 reach
    obtain ⟨j, hj, rfl⟩ := mem_map.1 ((Expr.mem_freeIndices_relabel _).1 hi)
    exact ordered (h.node hx hj)

end Relabelled

variable {K : Type} [Scalar K] [LawfulSame K] {assignments : List (Expr K × Expr K)} {outer : List Index}

/-- How often a pair that is the same as the given one is assigned. -/
def occurrences (assignments : List (Expr K × Expr K)) (a : Expr K × Expr K) : Nat :=
  assignments.countP fun b => b.1 == a.1 && b.2 == a.2

omit [LawfulSame K] in
theorem count_relabelPair {L : Type} [Scalar L] (r : Relabelling K L) (a : Expr K × Expr K) :
    (assignments.map (Schedule.relabelPair r)).count (Schedule.relabelPair r a) = occurrences assignments a := by
  rw [List.count, countP_map, occurrences]
  refine countP_congr fun b _ => ?_
  change ((b.1.relabel r == a.1.relabel r) && (b.2.relabel r == a.2.relabel r)) = true ↔ _
  rw [relabel_beq, relabel_beq]

/-- Compilation gives a program, or reports that nothing is assigned, and never fails in another way. -/
theorem compile_cases (h : Schedulable assignments outer)
    (bare : ∀ a ∈ assignments, 2 ≤ occurrences assignments a → a.2.isBare = true) :
    assignments = [] ∧ compile assignments outer = throw .nothingToDo ∨
      assignments ≠ [] ∧ ∃ p, compile assignments outer = pure p := by
  obtain ⟨r⟩ : Nonempty (Relabelling K (SameClass K)) := ⟨.toClasses⟩
  have alike := alike_compile r assignments outer false
  have bare' : ∀ b, 2 ≤ (assignments.map (Schedule.relabelPair r)).count b → b.2.isBare = true := fun b again => by
    obtain ⟨a, ha, rfl⟩ := mem_map.1 (count_pos_iff.1 (Nat.lt_of_lt_of_le Nat.zero_lt_two again))
    rw [count_relabelPair] at again
    exact (isBare_relabel r a.2).trans (bare a ha again)
  rcases compile_cases_of_bare (h.relabel r) bare' with ⟨empty, fails⟩ | ⟨nonempty, p, returns⟩
  · exact .inl ⟨map_eq_nil_iff.1 empty, alike.failed fails⟩
  · obtain ⟨p, made, -⟩ := alike.returned returns
    exact .inr ⟨fun empty => nonempty (by rw [empty, map_nil]), p, made⟩

omit [LawfulSame K] in
theorem occurrences_le_of_sublist {assignments' : List (Expr K × Expr K)} (sub : assignments'.Sublist assignments)
    (a : Expr K × Expr K) : occurrences assignments' a ≤ occurrences assignments a :=
  sub.countP_le

/-- **Compilation fails only where nothing is assigned.** Where targets have the indices of what they are given and all
indices are ordered, and only numbers, variables and entries of variables are given more than once to the same target,
compilation reports that there is nothing to do exactly if no assignment is left, and returns a program otherwise. -/
theorem compile_total (h : Schedulable assignments outer)
    (bare : ∀ a ∈ assignments, 2 ≤ occurrences assignments a → a.2.isBare = true) (removeZeros : Bool) :
    (compile assignments outer removeZeros = throw .nothingToDo ↔
      (if removeZeros then assignments.filter fun a => !a.2.isZero else assignments) = []) ∧
    ((if removeZeros then assignments.filter fun a => !a.2.isZero else assignments) ≠ [] →
      ∃ p, compile assignments outer removeZeros = pure p) := by
  generalize hrest : (if removeZeros then assignments.filter fun a => !a.2.isZero else assignments) = rest
  obtain ⟨kept, schedulable, part⟩ : compile assignments outer removeZeros = compile rest outer ∧
      Schedulable rest outer ∧ rest.Sublist assignments := by
    subst hrest
    cases removeZeros with
    | false => exact ⟨rfl, h, .refl _⟩
    | true => exact ⟨rfl, h.removeZeros, List.filter_sublist⟩
  rw [kept]
  rcases compile_cases schedulable fun a ha again => bare a (part.subset ha) (again.trans (occurrences_le_of_sublist part a))
    with ⟨empty, fails⟩ | ⟨nonempty, p, returns⟩
  · exact ⟨iff_of_true fails empty, fun some => absurd empty some⟩
  · exact ⟨iff_of_false (fun fails => Build.pure_ne_throw (returns.symm.trans fails)) nonempty, fun _ => ⟨p, returns⟩⟩

theorem schedulable_scaledBySum : Schedulable scaledBySum [] where
  free := compilable_scaledBySum.free
  target ha hi := compilable_scaledBySum.ordered (.inl ⟨_, ha, hi⟩)
  node he hi := compilable_scaledBySum.ordered (.inr ⟨_, he, hi⟩)

/-- The entries of one variable for those of another one. -/
def copiedEntry : Expr ℚ × Expr ℚ :=
  (.indexed (.var "A" [some 2]) [.free ⟨0⟩], .indexed (.var "B" [some 2]) [.free ⟨0⟩])

theorem schedulable_copiedEntry : Schedulable (copiedEntry :: copiedEntry :: scaledBySum) [] := by
  have free : ∀ {name : String} {i : Index},
      i ∈ (indexed (.var name [some 2]) [.free ⟨0⟩] : Expr ℚ).freeIndices ↔ i = ⟨0⟩ := by
    intro name i
    rw [mem_freeIndices_indexed]
    simp [freeIndices]
  have reach : Reachable (scaledBySum.map Prod.snd) copiedEntry.2 :=
    .child (.root mem_cons_self) (mem_cons_of_mem _ mem_cons_self)
  have same : copiedEntry.2.freeIndices ⊆ copiedEntry.1.freeIndices := fun i hi => free.2 (free.1 hi)
  have target : ∀ i ∈ copiedEntry.1.freeIndices, i ∈ [] ∨ Addressed (scaledBySum.map Prod.snd) i := fun i hi =>
    schedulable_scaledBySum.target mem_cons_self hi
  refine (schedulable_scaledBySum.cons reach same target).cons (.root mem_cons_self) same fun i hi => ?_
  exact (schedulable_scaledBySum.cons reach same target).target mem_cons_self hi

/-- Entries may be copied twice beside computations. -/
theorem compile_copiedEntry : ∃ p, compile (copiedEntry :: copiedEntry :: scaledBySum) [] true = pure p := by
  refine (compile_total schedulable_copiedEntry ?_ true).2 (by simp [copiedEntry, Expr.isZero])
  intro a ha again
  simp only [List.mem_cons, scaledBySum, List.not_mem_nil, or_false] at ha
  rcases ha with rfl | rfl | rfl
  · rfl
  · rfl
  · simp [occurrences, copiedEntry, scaledBySum] at again

/-- The scaled entries cannot be computed twice. -/
theorem not_compile_repeated : ¬ ∃ p, compile (scaledBySum ++ scaledBySum) [] = pure p := by
  rintro ⟨p, returns⟩
  have schedulable : Schedulable (scaledBySum ++ scaledBySum) [] :=
    schedulable_scaledBySum.cons (.root List.mem_cons_self) (schedulable_scaledBySum.free List.mem_cons_self)
      fun i hi => schedulable_scaledBySum.target List.mem_cons_self hi
  refine not_compile_of_computed schedulable (fun _ => List.count_le_length) (List.count_cons_self.trans ?_) (.inr rfl) p returns
  exact congrArg (· + 1) List.count_singleton_self

end Program

end FormCompiler
