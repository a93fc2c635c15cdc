import FormCompiler.Proofs.Equivariance
import FormCompiler.Proofs.Temporaries

/-!
# Schedules are complete

In a complete schedule each assignment is given to its variable once, each node that is computed has one computation,
each sum is started, added up and finished once and in this order, and everything comes after what it reads. Assignments
whose loops exist have such a schedule. Where nodes that are the same are equal this has been shown by accounting for
references; over other numbers it follows by taking numbers up to sameness, of which scheduling sees nothing.
-/

namespace FormCompiler

open FormCompiler.Expr List

/-! ## Numbers up to sameness -/

section Classes

variable (K : Type) [Scalar K] [LawfulSame K]

/-- Sameness of numbers. -/
def sameSetoid : Setoid K where
  r a b := Scalar.same a b = true
  iseqv := ⟨Scalar.same_self, LawfulSame.same_symm, LawfulSame.same_trans⟩

/-- Numbers up to sameness. -/
def SameClass : Type := Quotient (sameSetoid K)

variable {K}

/-- The class of a number. -/
def SameClass.of (a : K) : SameClass K := Quotient.mk (sameSetoid K) a

theorem SameClass.of_eq_of {a b : K} : of a = of b ↔ Scalar.same a b = true := Quotient.eq

/-- Some number of a class. -/
noncomputable def SameClass.some (a : SameClass K) : K := Quotient.out a

open Classical in
/-- Numbers are computed on by means of representatives; they are the same only if they are equal. -/
noncomputable instance : Scalar (SameClass K) where
  zero := .of Scalar.zero
  one := .of Scalar.one
  ofInt n := .of (Scalar.ofInt n)
  add a b := .of (Scalar.add a.some b.some)
  sub a b := .of (Scalar.sub a.some b.some)
  mul a b := .of (Scalar.mul a.some b.some)
  div a b := .of (Scalar.div a.some b.some)
  abs a := .of (Scalar.abs a.some)
  foldPower a b := match Scalar.foldPower a.some b.some with
    | .value x => .value (.of x)
    | .overflow => .overflow
    | .notReal => .notReal
  power a b := .of (Scalar.power a.some b.some)
  log? a := (Scalar.log? a.some).map .of
  roundTenth a := .of (Scalar.roundTenth a.some)
  less a b := Scalar.less a.some b.some
  equal a b := Scalar.equal a.some b.some
  isNaN a := Scalar.isNaN a.some
  same a b := decide (a = b)
  same_self _ := decide_eq_true rfl
  digest a := Scalar.digest a.some

theorem SameClass.same_iff {a b : SameClass K} : Scalar.same a b = true ↔ a = b :=
  @decide_eq_true_iff _ (Classical.propDecidable _)

instance : StrictSame (SameClass K) := ⟨SameClass.same_iff.1⟩

/-- The same indices, and numbers up to sameness. -/
def Relabelling.toClasses : Relabelling K (SameClass K) where
  index := id
  number := .of
  index_injective := Function.injective_id
  same_number x y := by
    rw [Bool.eq_iff_iff, SameClass.same_iff, SameClass.of_eq_of]

end Classes

variable {K L : Type} [Scalar K] [Scalar L]

/-! ## What operations read -/

/-- Does the operation work for a node? -/
def Operation.worksFor (x : Expr K) (op : Operation K) : Bool := op.subject?.any (· == x)

/-- The nodes whose values an operation reads, through all indexings. -/
def Operation.reads (op : Operation K) : List (Expr K) := op.refs.map source

/-- The operation after which the value of a node is there. -/
def Expr.finisher (x : Expr K) : Operation K := if x.isSum then .hold x else .evaluate x

namespace Schedule

/-- A complete schedule of assignments. Nodes that are the same are taken for one. -/
structure Complete (assignments : List (Expr K × Expr K)) (ops : List (Operation K)) : Prop where
  /-- Each assignment is given to its variable once; a sum may be added up there. -/
  given : ∃ gives, (ops.filter fun op => op.subject?.isNone).Perm gives ∧
    Forall₂ (fun op a => (op == .give a.1 a.2) = true ∨ a.2.isSum = true ∧ (op == .giveSum a.1 a.2) = true)
      gives assignments
  /-- A node that is computed has one computation. -/
  evaluated {x : Expr K} : Reachable (assignments.map Prod.snd) x → x.isComputed = true →
    Forall₂ (fun op op' => (op == op') = true) (ops.filter (Operation.worksFor x)) [.evaluate x]
  /-- A sum that is not added up in a variable is started, added up and finished once, in this order. -/
  summed {x : Expr K} : Reachable (assignments.map Prod.snd) x → x.isSum = true →
    (∀ v s, .giveSum v s ∈ ops → (s == x) = false) →
    Forall₂ (fun op op' => (op == op') = true) (ops.filter (Operation.worksFor x))
      [.initialise x, .accumulate x, .hold x]
  /-- Nothing else is done for a sum that is added up in a variable. -/
  direct {v s : Expr K} : .giveSum v s ∈ ops → ops.filter (Operation.worksFor s) = []
  /-- Operations work for nodes of the assignments alone. -/
  needed {o : Operation K} {x : Expr K} : o ∈ ops → o.subject? = some x →
    ∃ y, Reachable (assignments.map Prod.snd) y ∧ (x == y) = true
  /-- An operation comes after what makes the values that it reads. -/
  ordered {i : Nat} {o : Operation K} {x : Expr K} : ops[i]? = some o → x ∈ o.reads →
    x.isComputed = true ∨ x.isSum = true → ∃ j < i, ∃ p, ops[j]? = some p ∧ (p == x.finisher) = true

/-! ## Labels do not matter -/

section Relabel

variable (r : Relabelling K L)

theorem reachable_relabel {roots : List (Expr K)} {x : Expr L} :
    Reachable (roots.map (relabel r)) x ↔ ∃ e, Reachable roots e ∧ x = e.relabel r := by
  constructor
  · intro h
    induction h with
    | root mem =>
      obtain ⟨e, he, rfl⟩ := mem_map.1 mem
      exact ⟨e, .root he, rfl⟩
    | child _ mem ih =>
      obtain ⟨p, hp, rfl⟩ := ih
      rw [children_relabel] at mem
      obtain ⟨c, hc, rfl⟩ := mem_map.1 mem
      exact ⟨c, .child hp hc, rfl⟩
  · rintro ⟨e, he, rfl⟩
    induction he with
    | root mem => exact .root (mem_map_of_mem mem)
    | child _ hc ih => exact .child ih (by rw [children_relabel]; exact mem_map_of_mem hc)

theorem isSum_relabel (e : Expr K) : (e.relabel r).isSum = e.isSum := by cases e <;> rfl

theorem isComputed_relabel (e : Expr K) : (e.relabel r).isComputed = e.isComputed := by
  cases e <;> simp [relabel, isComputed, Expr.shape, Tensor.relabel]

theorem source_relabel (e : Expr K) : (e.relabel r).source = e.source.relabel r := by
  cases e with
  | indexed t slots => rw [relabel, source, source, source_relabel t]
  | _ => simp [relabel, source]
termination_by sizeOf e

theorem subject?_relabel (op : Operation K) : (op.relabel r).subject? = op.subject?.map (relabel r) := by
  cases op <;> rfl

theorem reads_relabel (op : Operation K) : (op.relabel r).reads = op.reads.map (relabel r) := by
  have refs : (op.relabel r).refs = op.refs.map (relabel r) := by
    cases op <;> simp [Operation.relabel, Operation.refs, Operation.summand_relabel]
  rw [Operation.reads, Operation.reads, refs, map_map, map_map]
  exact map_congr_left fun e _ => source_relabel r e

theorem filter_worksFor_relabel (ops : List (Operation K)) (x : Expr K) :
    (ops.map (Operation.relabel r)).filter (Operation.worksFor (x.relabel r)) =
      (ops.filter (Operation.worksFor x)).map (Operation.relabel r) := by
  rw [filter_map]
  congr 2
  funext op
  rw [Function.comp_apply, Operation.worksFor, Operation.worksFor, subject?_relabel]
  cases op.subject? <;> simp

theorem finisher_relabel (x : Expr K) : (x.relabel r).finisher = x.finisher.relabel r := by
  unfold finisher
  rw [isSum_relabel]
  split <;> rfl

/-- Operations under other labels are the same as others exactly if they are so before. -/
theorem forall₂_beq_relabel {as : List (Operation K)} (bs : List (Operation K))
    (h : Forall₂ (fun a b => (a == b) = true) (as.map (Operation.relabel r)) (bs.map (Operation.relabel r))) :
    Forall₂ (fun a b => (a == b) = true) as bs := by
  rw [forall₂_map_left_iff, forall₂_map_right_iff] at h
  exact h.imp fun a b same => by rwa [Operation.relabel_beq] at same

/-- A schedule is complete if it is so under other labels. -/
theorem Complete.of_relabel {assignments : List (Expr K × Expr K)} {ops : List (Operation K)}
    (h : Complete (assignments.map (relabelPair r)) (ops.map (Operation.relabel r))) : Complete assignments ops := by
  have reach : ∀ {x : Expr K}, Reachable (assignments.map Prod.snd) x →
      Reachable ((assignments.map (relabelPair r)).map Prod.snd) (x.relabel r) := fun hx => by
    rw [map_snd_relabelPair]
    exact (reachable_relabel r).2 ⟨_, hx, rfl⟩
  refine ⟨?_, fun {x} hx computed => ?_, fun {x} hx sum alone => ?_, fun {v s} mem => ?_, fun {o x} mem about => ?_,
    fun {i o x} here mem made => ?_⟩
  · obtain ⟨gives, perm, all⟩ := h.given
    have kept : (ops.map (Operation.relabel r)).filter (fun op => op.subject?.isNone) =
        (ops.filter fun op => op.subject?.isNone).map (Operation.relabel r) := by
      rw [filter_map]
      congr 2
      funext op
      rw [Function.comp_apply, subject?_relabel, Option.isNone_map]
    have both : Relation.Comp (Forall₂ fun op op' => op.relabel r = op') List.Perm
        (ops.filter fun op => op.subject?.isNone) gives :=
      ⟨_, forall₂_map_right_iff.2 (forall₂_same.2 fun _ _ => rfl), kept ▸ perm⟩
    rw [forall₂_comp_perm_eq_perm_comp_forall₂] at both
    obtain ⟨gives₀, perm₀, mapped⟩ := both
    refine ⟨gives₀, perm₀, ?_⟩
    obtain rfl : gives₀.map (Operation.relabel r) = gives := by
      rw [← forall₂_eq_eq_eq, forall₂_map_left_iff]
      exact mapped
    rw [forall₂_map_left_iff, forall₂_map_right_iff] at all
    refine all.imp fun op a same => ?_
    rw [relabelPair, isSum_relabel] at same
    have give := Operation.relabel_beq r op (.give a.1 a.2)
    have giveSum := Operation.relabel_beq r op (.giveSum a.1 a.2)
    rwa [← give, ← giveSum]
  · have := h.evaluated (reach hx) (by rwa [isComputed_relabel])
    rw [filter_worksFor_relabel] at this
    exact forall₂_beq_relabel r [.evaluate x] this
  · have := h.summed (reach hx) (by rwa [isSum_relabel]) fun v s mem => by
      obtain ⟨op, hop, eq⟩ := mem_map.1 mem
      cases op <;> simp only [Operation.relabel, reduceCtorEq, Operation.giveSum.injEq] at eq
      rw [← eq.2, relabel_beq]
      exact alone _ _ hop
    rw [filter_worksFor_relabel] at this
    exact forall₂_beq_relabel r [.initialise x, .accumulate x, .hold x] this
  · have := h.direct (mem_map_of_mem mem)
    rw [filter_worksFor_relabel] at this
    exact map_eq_nil_iff.1 this
  · obtain ⟨y, hy, same⟩ := h.needed (mem_map_of_mem mem) (by rw [subject?_relabel, about]; rfl)
    rw [map_snd_relabelPair] at hy
    obtain ⟨e, he, rfl⟩ := (reachable_relabel r).1 hy
    exact ⟨e, he, by rwa [relabel_beq] at same⟩
  · obtain ⟨j, lt, p, there, same⟩ := h.ordered (i := i) (o := o.relabel r) (x := x.relabel r)
      (by rw [List.getElem?_map, here]; rfl) (by rw [reads_relabel]; exact mem_map_of_mem mem)
      (by rwa [isComputed_relabel, isSum_relabel])
    rw [List.getElem?_map, Option.map_eq_some_iff] at there
    obtain ⟨q, hq, rfl⟩ := there
    rw [finisher_relabel, Operation.relabel_beq] at same
    exact ⟨j, lt, q, hq, same⟩

end Relabel

/-! ## Scheduling is complete -/

theorem forall₂_beq_self [ReflBEq (Operation K)] (ops : List (Operation K)) :
    Forall₂ (fun op op' => (op == op') = true) ops ops :=
  forall₂_same.2 fun _ _ => beq_self_eq_true _

section Lawful

variable [LawfulBEq (Expr K)] {assignments : List (Expr K × Expr K)} {ops : List (Operation K)}

omit [Scalar K] [LawfulBEq (Expr K)] in
/-- What an expression takes entries of is the expression itself or below some other one. -/
theorem source_eq_or_child {roots : List (Expr K)} {e : Expr K} (h : Reachable roots e) :
    e.source = e ∨ ∃ p, Reachable roots p ∧ e.source ∈ p.children := by
  fun_induction source e with
  | case1 t slots ih =>
    have child : t ∈ (Expr.indexed t slots).children := by simp [children]
    rcases ih (.child h child) with same | below
    · exact .inr ⟨_, h, same.symm ▸ child⟩
    · exact .inr below
  | case2 e => exact .inl rfl

theorem filter_worksFor (ops : List (Operation K)) (x : Expr K) :
    ops.filter (Operation.worksFor x) = ops.filter fun op => op.subject? = some x := by
  refine filter_congr fun op _ => ?_
  rw [Operation.worksFor]
  cases op.subject? with
  | none => rfl
  | some y => rw [Option.any_some, Bool.eq_iff_iff, beq_iff_eq, decide_eq_true_iff, Option.some.injEq]

omit [Scalar K] [LawfulBEq (Expr K)] in
theorem finisher_mem_providers {x : Expr K} (h : x.isComputed = true ∨ x.isSum = true) : x.finisher ∈ x.providers := by
  unfold finisher providers
  split
  · simp
  · rename_i sum
    simp [h.resolve_right sum]

omit [Scalar K] [LawfulBEq (Expr K)] in
theorem subject?_finisher (x : Expr K) : x.finisher.subject? = some x := by
  unfold finisher
  split <;> rfl

/-- Where nodes that are the same are equal, all references are accounted for. -/
theorem Scheduled.complete (h : Schedules assignments ops) : Complete assignments ops := by
  refine ⟨?_, fun {x} hx computed => ?_, fun {x} hx sum alone => ?_, fun {v s} mem => ?_, fun {o x} mem about => ?_,
    fun {i o x} here mem made => ?_⟩
  · refine ⟨_, (List.Perm.of_eq (filter_congr fun op _ => ?_)).trans h.gives, ?_⟩
    · cases op.subject? <;> simp
    · refine forall₂_map_left_iff.2 (forall₂_same.2 fun a _ => ?_)
      rcases stagedOp_cases _ a with ⟨direct, op⟩ | ⟨-, op⟩
      · simp only [isDirect, Bool.and_eq_true] at direct
        exact .inr ⟨direct.1, by simpa using op⟩
      · exact .inl (by simpa using op)
  · have out : x ∉ directs assignments := fun direct => by
      have sum := (mem_directSums direct).1
      cases x <;> simp_all [isSum, isComputed]
    have single : x.providers = [.evaluate x] := by
      cases x <;> simp_all [providers, isSum, isComputed]
    rw [filter_worksFor, h.provided hx out, single]
    exact forall₂_beq_self _
  · have out : x ∉ directs assignments := fun direct => by
      obtain ⟨a, ha, rfl⟩ := mem_map.1 direct
      obtain ⟨mem, direct⟩ := mem_filter.1 ha
      have staged : .giveSum a.1 a.2 ∈ stagedOps assignments :=
        mem_map.2 ⟨a, mem, if_pos direct⟩
      simpa using alone a.1 a.2 (mem_filter.1 (h.gives.mem_iff.2 staged)).1
    have triple : x.providers = [.initialise x, .accumulate x, .hold x] := by simp [providers, sum]
    rw [filter_worksFor, h.provided hx out, triple]
    exact forall₂_beq_self _
  · obtain ⟨root, direct⟩ := mem_of_giveSum h.gives mem
    rw [filter_worksFor, h.unprovided (.root (mem_map_of_mem root))]
    exact mem_map.2 ⟨(v, s), mem_filter.2 ⟨root, direct⟩, rfl⟩
  · exact ⟨x, h.reachable mem about, beq_self_eq_true x⟩
  · have ho := mem_of_getElem? here
    obtain ⟨y, hy, rfl⟩ := mem_map.1 mem
    obtain ⟨reach, out⟩ := h.refs_reachable (apart assignments) ho hy
    have source : Reachable (assignments.map Prod.snd) y.source ∧ y.source ∉ directs assignments := by
      rcases source_eq_or_child reach with same | ⟨p, hp, hc⟩
      · rw [same]
        exact ⟨reach, out⟩
      · exact ⟨.child hp hc, fun direct => (apart assignments).unread direct hp hc⟩
    have made := h.mem_of_mem_providers source.1 source.2 (finisher_mem_providers made)
    have about := subject?_finisher y.source
    obtain ⟨j, hj⟩ := List.getElem?_of_mem made
    refine ⟨j, ?_, _, hj, beq_self_eq_true _⟩
    -- what comes later, or is the operation itself, does not make what the operation reads
    rcases Nat.lt_trichotomy j i with lt | rfl | gt
    · exact lt
    · rw [hj, Option.some.injEq] at here
      exact absurd about (here ▸ h.source_ne ho hy)
    · obtain ⟨hi, rfl⟩ := List.getElem?_eq_some_iff.1 here
      obtain ⟨hj, eq⟩ := List.getElem?_eq_some_iff.1 hj
      have := pairwise_iff_getElem.1 h.ordered i j hi hj gt y hy
      rw [eq] at this
      exact absurd about this

end Lawful

/-- **Schedules are complete.** Assignments whose operands have the indices of their variables, and whose loops exist, are
scheduled: no reference is taken away that is not there, and none is left. -/
theorem operations_complete [LawfulSame K] {assignments : List (Expr K × Expr K)} {order : IndexOrder}
    (free : ∀ a ∈ assignments, a.2.freeIndices ⊆ a.1.freeIndices)
    (targets : ∀ a ∈ assignments, ∀ i ∈ a.1.freeIndices, i ∈ order)
    (nodes : ∀ e, Expr.Reachable (assignments.map Prod.snd) e → ∀ i ∈ e.freeIndices, i ∈ order) :
    ∃ ops, operations assignments order = pure ops ∧ Complete assignments ops := by
  obtain ⟨r⟩ : Nonempty (Relabelling K (SameClass K)) := ⟨.toClasses⟩
  have loops : ∀ {e : Expr K}, (∀ i ∈ e.freeIndices, i ∈ order) →
      ∀ i ∈ (e.relabel r).freeIndices, i ∈ order.map r.index := by
    intro e h i hi
    obtain ⟨j, hj, rfl⟩ := List.mem_map.1 ((Expr.mem_freeIndices_relabel _).1 hi)
    exact List.mem_map_of_mem (h j hj)
  have free' : ∀ a ∈ assignments.map (relabelPair r), a.2.freeIndices ⊆ a.1.freeIndices := fun a ha => by
    obtain ⟨b, hb, rfl⟩ := List.mem_map.1 ha
    exact (Expr.subset_freeIndices_relabel _).2 (free b hb)
  have targets' : ∀ a ∈ assignments.map (relabelPair r), ∀ i ∈ a.1.freeIndices, i ∈ order.map r.index := fun a ha => by
    obtain ⟨b, hb, rfl⟩ := List.mem_map.1 ha
    exact loops (targets b hb)
  have nodes' : ∀ e, Expr.Reachable ((assignments.map (relabelPair r)).map Prod.snd) e →
      ∀ i ∈ e.freeIndices, i ∈ order.map r.index := fun e reach => by
    rw [map_snd_relabelPair] at reach
    obtain ⟨x, hx, rfl⟩ := (reachable_relabel _).1 reach
    exact loops (nodes x hx)
  obtain ⟨ops', run', scheduled⟩ := operations_eq free' targets' nodes'
  obtain ⟨ops, run, rfl⟩ := (alike_operations (r := r) assignments order).returned run'
  exact ⟨ops, run, scheduled.complete.of_relabel⟩

/-- The sum of two entries. -/
def entrySum : Expr ℚ := .indexSum (.indexed (.var "u" [some 2]) [.free ⟨0⟩]) [(⟨0⟩, 2)]

/-- The sum is given to one variable twice, and its square to another one. -/
def sharedSum : List (Expr ℚ × Expr ℚ) :=
  [(.var "A" [], entrySum), (.var "A" [], entrySum), (.var "B" [], .binary .product entrySum entrySum)]

theorem operations_sharedSum : ∃ ops, operations sharedSum [⟨0⟩] = pure ops ∧ Complete sharedSum ops := by
  have nodes : ∀ e, Expr.Reachable (sharedSum.map Prod.snd) e → e ∈ ([.binary .product entrySum entrySum, entrySum,
      .indexed (.var "u" [some 2]) [.free ⟨0⟩], .var "u" [some 2]] : List (Expr ℚ)) := by
    intro e reach
    induction reach with
    | root mem =>
      simp only [sharedSum, List.map_cons, List.map_nil, List.mem_cons, List.not_mem_nil, or_false] at mem ⊢
      tauto
    | child _ mem ih =>
      simp only [List.mem_cons, List.not_mem_nil, or_false] at ih ⊢
      rcases ih with rfl | rfl | rfl | rfl <;> simp_all [Expr.children, entrySum]
  have loops : ∀ e ∈ ([.binary .product entrySum entrySum, entrySum, .indexed (.var "u" [some 2]) [.free ⟨0⟩],
      .var "u" [some 2]] : List (Expr ℚ)), ∀ i ∈ e.freeIndices, i ∈ [(⟨0⟩ : Index)] := by
    simp [entrySum, Expr.freeIndices, Indices.union, Indices.insert, Indices.diff, Slot.index?]
  refine operations_complete ?_ ?_ fun e reach => loops e (nodes e reach)
  · simp [sharedSum, entrySum, Expr.freeIndices, Indices.union, Indices.insert, Indices.diff, Slot.index?]
  · simp [sharedSum, Expr.freeIndices]

end Schedule

end FormCompiler
