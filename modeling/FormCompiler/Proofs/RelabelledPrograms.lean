import FormCompiler.Proofs.Equivariance
import FormCompiler.Proofs.Placement

/-!
# Compilation does not see labels

Relabelled assignments compile to the relabelled program. The order of loops, the computations that are dropped, the loop
tree and the places of temporaries are all found by looking at sameness and at sets of indices; where members of a table
are listed, they are first brought into the order of their numbers.
-/

namespace FormCompiler

open FormCompiler.Expr List Build

/-! ## Lists without repetition, and runs -/

variable {α β : Type} {f : α → β}

theorem distinct_map [BEq α] [BEq β] (members : ∀ a b, (f a == f b) = (a == b)) (as : List α) :
    distinct (as.map f) = (distinct as).map f := by
  have contains : ∀ (seen : List α) (a : α), (seen.map f).contains (f a) = seen.contains a := by
    intro seen a
    induction seen with
    | nil => rfl
    | cons b seen ih => rw [map_cons, contains_cons, contains_cons, members, ih]
  have fold : ∀ seen : List α,
      (as.map f).foldl (fun seen a => if seen.contains a then seen else seen ++ [a]) (seen.map f) =
        (as.foldl (fun seen a => if seen.contains a then seen else seen ++ [a]) seen).map f := by
    induction as with
    | nil => intro seen; rfl
    | cons a as ih =>
      intro seen
      rw [map_cons, foldl_cons, foldl_cons, contains, ← ih]
      congr 1
      split <;> simp
  exact fold []

/-- A member of a list stands among its distinct members, up to sameness. -/
theorem exists_mem_distinct [BEq α] [EquivBEq α] {as : List α} {a : α} (ha : a ∈ as) : ∃ b ∈ distinct as, (b == a) = true := by
  have fold : ∀ (as seen : List α), (a ∈ as ∨ ∃ b ∈ seen, (b == a) = true) →
      ∃ b ∈ as.foldl (fun seen a => if seen.contains a then seen else seen ++ [a]) seen, (b == a) = true := by
    intro as
    induction as with
    | nil =>
      rintro seen (h | h)
      · simp at h
      · exact h
    | cons c as ih =>
      rintro seen (h | ⟨b, hb, same⟩) <;> rw [foldl_cons]
      · rcases mem_cons.1 h with rfl | h
        · refine ih _ (.inr ?_)
          split
          · rename_i known
            obtain ⟨b, hb, same⟩ := contains_iff_exists_mem_beq.1 known
            exact ⟨b, hb, BEq.symm same⟩
          · exact ⟨a, by simp, BEq.rfl⟩
        · exact ih _ (.inl h)
      · refine ih _ (.inr ⟨b, ?_, same⟩)
        split
        · exact hb
        · exact mem_append_left _ hb
  exact fold as [] (.inl ha)

theorem splitBy_map {p : α → α → Bool} {q : β → β → Bool} (h : ∀ a b, q (f a) (f b) = p a b)
    (as : List α) : (as.map f).splitBy q = (as.splitBy p).map (map f) := by
  obtain ⟨flat, -, chains, breaks⟩ := splitBy_eq_iff.1 (rfl : as.splitBy p = as.splitBy p)
  refine splitBy_eq_iff.2 ⟨?_, ?_, ?_, ?_⟩
  · rw [← map_flatten, ← flat]
  · simp
  · intro _ mem
    obtain ⟨run, hrun, rfl⟩ := mem_map.1 mem
    rw [isChain_map]
    exact (chains run hrun).imp fun a b hab => by rwa [h]
  · rw [isChain_map]
    refine breaks.imp fun a b ⟨ha, hb, apart⟩ => ⟨by simpa using ha, by simpa using hb, ?_⟩
    rw [getLast_map, head_map, h]
    exact apart

variable {K L : Type} [Scalar K] [Scalar L] (r : Relabelling K L)

instance [EquivBEq (Expr K)] : EquivBEq (Operation K) where
  rfl {a} := by
    change Operation.same a a = true
    cases a <;> simp [Operation.same]
  symm {a b} h := by
    change Operation.same b a = true
    change Operation.same a b = true at h
    cases a <;> cases b <;> simp_all [Operation.same, BEq.comm]
  trans {a b c} h h' := by
    change Operation.same a c = true
    change Operation.same a b = true at h
    change Operation.same b c = true at h'
    cases a <;> cases b <;> cases c <;> simp_all [Operation.same] <;> grind [BEq.trans]

/-! ## The order of loops -/

namespace IndexOrder

theorem startingWith_relabel (start rest : List Index) :
    startingWith (start.map r.index) (rest.map r.index) = (startingWith start rest).map r.index := by
  rw [startingWith, startingWith, map_append, filter_map]
  congr 3
  funext i
  rw [Function.comp_apply, Bool.eq_iff_iff]
  simp [r.index_injective.eq_iff]

end IndexOrder

/-! ## Loop trees -/

namespace Statement

mutual

/-- A statement on relabelled expressions. -/
def relabel : Statement K → Statement L
  | .run op => .run (op.relabel r)
  | .loop i body => .loop (r.index i) (relabelAll body)

/-- Statements on relabelled expressions. -/
def relabelAll : List (Statement K) → List (Statement L)
  | [] => []
  | s :: ss => relabel s :: relabelAll ss

end

theorem relabelAll_eq_map (ss : List (Statement K)) : relabelAll r ss = ss.map (relabel r) := by
  induction ss with
  | nil => rfl
  | cons s ss ih => rw [relabelAll, ih, map_cons]

mutual

theorem operations_relabel : (s : Statement K) → (s.relabel r).operations = s.operations.map (Operation.relabel r)
  | .run op => by simp [relabel, operations]
  | .loop i body => by rw [relabel, operations, operations, operationsOf_relabel body]

theorem operationsOf_relabel : (ss : List (Statement K)) →
    operationsOf (relabelAll r ss) = (operationsOf ss).map (Operation.relabel r)
  | [] => by simp [relabelAll, operationsOf]
  | s :: ss => by
    rw [relabelAll, operationsOf, operationsOf, operations_relabel s, operationsOf_relabel ss, map_append]

end

/-- A pending operation under other labels. -/
def relabelPending : Pending K → Pending L := Prod.map (map r.index) (Operation.relabel r)

theorem plain_relabel (ps : List (Pending K)) :
    (ps.map (relabelPending r)).filterMap (fun p => if p.2.isHold then none else some (run p.2)) =
      relabelAll r (ps.filterMap fun p => if p.2.isHold then none else some (run p.2)) := by
  have isHold : ∀ op : Operation K, (op.relabel r).isHold = op.isHold := fun op => by cases op <;> rfl
  rw [relabelAll_eq_map, filterMap_map, map_filterMap]
  congr 1
  funext p
  simp only [Function.comp_apply, relabelPending, Prod.map_snd, isHold]
  split <;> rfl

theorem ofRun_relabel {inner : List (Pending K) → List (Statement K)} {inner' : List (Pending L) → List (Statement L)}
    (h : ∀ ps, inner' (ps.map (relabelPending r)) = relabelAll r (inner ps)) (ps : List (Pending K)) :
    ofRun inner' (ps.map (relabelPending r)) = relabelAll r (ofRun inner ps) := by
  cases ps with
  | nil => rfl
  | cons p ps =>
    obtain ⟨loops, op⟩ := p
    cases loops with
    | nil => exact plain_relabel r (([], op) :: ps)
    | cons i loops =>
      have next : (((i :: loops, op) :: ps).map (relabelPending r)).map (fun p => (p.1.drop 1, p.2)) =
          (((i :: loops, op) :: ps).map fun p => (p.1.drop 1, p.2)).map (relabelPending r) := by
        simp [relabelPending, Function.comp_def]
      have first : ∀ {M : Type} (inner : List (Pending M) → List (Statement M)) (i : Index) (loops : List Index)
          (op : Operation M) (ps : List (Pending M)), ofRun inner ((i :: loops, op) :: ps) =
            if (inner (((i :: loops, op) :: ps).map fun p => (p.1.drop 1, p.2))).isEmpty then []
            else [.loop i (inner (((i :: loops, op) :: ps).map fun p => (p.1.drop 1, p.2)))] := by
        intro M inner i loops op ps
        rw [ofRun]
        cases inner (((i :: loops, op) :: ps).map fun p => (p.1.drop 1, p.2)) <;> rfl
      have head : ((i :: loops, op) :: ps).map (relabelPending r) =
          (r.index i :: loops.map r.index, op.relabel r) :: ps.map (relabelPending r) := rfl
      rw [head, first, first, ← head, next, h]
      cases inner (((i :: loops, op) :: ps).map fun p => (p.1.drop 1, p.2)) <;> rfl

theorem gather_relabel (depth : Nat) (ps : List (Pending K)) :
    gather depth (ps.map (relabelPending r)) = relabelAll r (gather depth ps) := by
  induction depth generalizing ps with
  | zero => exact plain_relabel r ps
  | succ depth ih =>
    have outer : ∀ a b : Pending K, ((relabelPending r a).1.head? == (relabelPending r b).1.head?) =
        (a.1.head? == b.1.head?) := by
      intro a b
      rw [Bool.eq_iff_iff, beq_iff_eq, beq_iff_eq, relabelPending, Prod.map_fst, Prod.map_fst, head?_map,
        head?_map, (Option.map_injective r.index_injective).eq_iff]
    rw [gather, gather, splitBy_map (f := relabelPending r) (p := fun a b : Pending K => a.1.head? == b.1.head?)
      (q := fun a b : Pending L => a.1.head? == b.1.head?) outer, flatMap_map, relabelAll_eq_map, map_flatMap]
    refine flatMap_congr fun run _ => ?_
    rw [ofRun_relabel r ih, relabelAll_eq_map]

/-- Relabelled operations are gathered into the relabelled loop tree. -/
theorem alike_ofOperations (order : IndexOrder) (ops : List (Operation K)) :
    Alike (fun tree tree' => tree' = relabelAll r tree) (ofOperations order ops)
      (ofOperations (order.map r.index) (ops.map (Operation.relabel r))) := by
  unfold ofOperations
  refine Alike.bind (R := Forall₂ fun p p' => p' = relabelPending r p)
    (alike_mapM fun op _ => ?_) fun pending pending' related => ?_
  · rw [Operation.loopExpr_relabel]
    refine (IndexOrder.alike_loops r order op.loopExpr).bind ?_
    rintro is _ rfl
    exact alike_pure rfl
  · obtain rfl : pending' = pending.map (relabelPending r) := by
      induction related with
      | nil => rfl
      | cons same _ ih => rw [map_cons, same, ih]
    have depth : ∀ (ps : List (Pending K)) (n : Nat),
        (ps.map (relabelPending r)).foldl (fun acc p => max acc p.1.length) n =
          ps.foldl (fun acc p => max acc p.1.length) n := by
      intro ps
      induction ps with
      | nil => intro n; rfl
      | cons p ps ih =>
        intro n
        rw [map_cons, foldl_cons, foldl_cons, ih]
        simp [relabelPending]
    refine alike_pure ?_
    rw [depth, gather_relabel]

end Statement

namespace Program

variable [EquivBEq (Expr K)] [EquivBEq (Expr L)]

/-! ## Computations that are dropped -/

theorem usedIndices_relabel (roots : List (Expr K)) :
    usedIndices (roots.map (relabel r)) = (usedIndices roots).map r.index := by
  have used : ∀ e : Expr K, ((e.relabel r).indexOrder?).getD [] = ((e.indexOrder?).getD []).map r.index := fun e => by
    rw [indexOrder?_relabel]
    cases e.indexOrder? <;> rfl
  rw [usedIndices, usedIndices, traversal_relabel, flatMap_map, ← distinct_map r.index_beq, map_flatMap]
  simp only [used]

omit [EquivBEq (Expr K)] [EquivBEq (Expr L)] in
/-- Doing the same to two sets of nodes, step by step. -/
theorem contains_foldl_relabel {ι κ : Type} {h : ι → κ} {f : Std.HashSet (Expr K) → ι → Std.HashSet (Expr K)}
    {g : Std.HashSet (Expr L) → κ → Std.HashSet (Expr L)}
    (each : ∀ m m' i, (∀ e : Expr K, m'.contains (e.relabel r) = m.contains e) →
      ∀ e : Expr K, (g m' (h i)).contains (e.relabel r) = (f m i).contains e)
    {m : Std.HashSet (Expr K)} {m' : Std.HashSet (Expr L)} (start : ∀ e : Expr K, m'.contains (e.relabel r) = m.contains e)
    (is : List ι) (e : Expr K) : ((is.map h).foldl g m').contains (e.relabel r) = (is.foldl f m).contains e := by
  induction is generalizing m m' with
  | nil => exact start e
  | cons i is ih => exact ih (each m m' i start)

/-- The same computations are dropped. -/
theorem inlineTemporaries_relabel (roots : List (Expr K)) (ops : List (Operation K)) :
    inlineTemporaries (roots.map (relabel r)) (ops.map (Operation.relabel r)) =
      (inlineTemporaries roots ops).map (Operation.relabel r) := by
  have count : ∀ e : Expr K, (refCount (roots.map (relabel r))).getD (e.relabel r) 0 =
      (refCount roots).getD e 0 := fun e => (corresponds_refCount r roots).getD_eq (relabel_beq r) e 0
  unfold inlineTemporaries
  rw [filter_map, traversal_relabel]
  congr 1
  refine filter_congr fun op _ => ?_
  cases op with
  | evaluate e =>
    refine congrArg (! ·) (contains_foldl_relabel r (fun m m' x same => ?_) (contains_foldl_relabel r ?_ (by simp) ops)
      (traversal roots) e)
    · rw [children_relabel]
      refine contains_foldl_relabel r (fun m m' c same e => ?_) same x.children
      simp only [subset_relabel, bne, freeIndices_beq_relabel]
      split
      · rw [Std.HashSet.contains_erase, Std.HashSet.contains_erase, relabel_beq, same]
      · exact same e
    · intro m m' op same e
      cases op with
      | evaluate x =>
        simp only [Operation.relabel, shape_relabel, count]
        split
        · rw [Std.HashSet.contains_insert, Std.HashSet.contains_insert, relabel_beq, same]
        · exact same e
      | _ => exact same e
  | _ => rfl

omit [EquivBEq (Expr K)] [EquivBEq (Expr L)] in
theorem temporariesOf_relabel (ops : List (Operation K)) :
    temporariesOf (ops.map (Operation.relabel r)) = (temporariesOf ops).map (relabel r) := by
  rw [temporariesOf, temporariesOf, filterMap_map, map_filterMap]
  congr 1
  funext op
  cases op <;> rfl

/-! ## Tallies -/

variable {r}

variable {t u : Tally K} {t' : Tally L} {β : Type}

theorem corresponds_add (h : Corresponds (relabel r) id t t') (e : Expr K) (n : Nat) :
    Corresponds (relabel r) id (t.add e n) (Tally.add t' (e.relabel r) n) := by
  have old : t'.getD (e.relabel r) 0 = t.getD e 0 := h.getD_eq (relabel_beq r) e 0
  rw [Tally.add, Tally.add, old]
  exact h.insert (relabel_beq r) e _

omit [Scalar L] [EquivBEq (Expr L)] in
theorem foldl_add_equiv (h : t.Equiv u) (l : List (Expr K × Nat)) :
    (l.foldl (fun acc p => Tally.add acc p.1 p.2) t).Equiv (l.foldl (fun acc p => Tally.add acc p.1 p.2) u) := by
  induction l generalizing t u with
  | nil => exact h
  | cons p l ih =>
    refine ih ?_
    simp only [Tally.add, h.getD_eq]
    exact h.insert _ _

omit [Scalar L] [EquivBEq (Expr L)] in
/-- Counts of different nodes can be added in any order. -/
theorem foldl_add_perm {l l' : List (Expr K × Nat)} (perm : l.Perm l') (distinct : l.Pairwise fun a b => (a.1 == b.1) = false)
    (t : Tally K) :
    (l.foldl (fun acc p => Tally.add acc p.1 p.2) t).Equiv (l'.foldl (fun acc p => Tally.add acc p.1 p.2) t) := by
  induction perm generalizing t with
  | nil => exact .rfl
  | cons p _ ih => exact ih (pairwise_cons.1 distinct).2 _
  | swap p q l =>
    have apart : (q.1 == p.1) = false := (pairwise_cons.1 distinct).1 p mem_cons_self
    have apart' : (p.1 == q.1) = false := by rw [BEq.comm, apart]
    refine foldl_add_equiv ?_ l
    simp only [Tally.add, Std.HashMap.getD_insert, apart, apart', Bool.false_eq_true, if_false]
    exact insert_insert_perm t apart _ _
  | trans perm _ ih ih' =>
    refine (ih distinct t).trans (ih' ?_ t)
    exact (perm.pairwise_iff fun h => by rw [BEq.comm, h]).1 distinct

theorem corresponds_merge {u' : Tally L} (ht : Corresponds (relabel r) id t t')
    (hu : Corresponds (relabel r) id u u') : Corresponds (relabel r) id (t.merge u) (Tally.merge t' u') := by
  rw [Tally.merge, Tally.merge, Std.HashMap.fold_eq_foldl_toList, Std.HashMap.fold_eq_foldl_toList]
  refine (foldl_add_perm hu Std.HashMap.distinct_keys_toList t').toList_perm.trans ?_
  exact Corresponds.foldl (fun p h => corresponds_add h p.1 p.2) ht u.toList

section References

variable {numbering : Std.HashMap (Expr K) Nat} {numbering' : Std.HashMap (Expr L) Nat}
  (same : Corresponds (relabel r) id numbering numbering')

include same

theorem corresponds_countRefs (e : Expr K) {t : Tally K} {t' : Tally L} (h : Corresponds (relabel r) id t t') :
    Corresponds (relabel r) id (countRefs numbering e t) (countRefs numbering' (e.relabel r) t') := by
  rw [countRefs_eq, countRefs_eq, same.contains_eq (relabel_beq r)]
  split
  · exact corresponds_add h e 1
  · rw [children_relabel]
    have all : ∀ (cs : List (Expr K)) {t : Tally K} {t' : Tally L}, (∀ c ∈ cs, c ∈ e.children) →
        Corresponds (relabel r) id t t' → Corresponds (relabel r) id
          (cs.foldl (fun t c => countRefs numbering c t) t)
          ((cs.map (relabel r)).foldl (fun t c => countRefs numbering' c t) t') := by
      intro cs
      induction cs with
      | nil => intro t t' _ h; exact h
      | cons c cs ih =>
        intro t t' mem h
        have := sizeOf_lt_of_mem_children (mem c mem_cons_self)
        exact ih (fun x hx => mem x (mem_cons_of_mem _ hx)) (corresponds_countRefs c h)
    exact all e.children (fun _ => id) h
termination_by sizeOf e

theorem corresponds_countTop (e : Expr K) {t : Tally K} {t' : Tally L} (h : Corresponds (relabel r) id t t') :
    Corresponds (relabel r) id (countTop numbering e t) (countTop numbering' (e.relabel r) t') := by
  unfold countTop
  rw [same.contains_eq (relabel_beq r), children_relabel]
  refine Corresponds.foldl ?_ ?_ e.children
  · intro t t' c h
    exact corresponds_countRefs same c h
  · split
    · exact corresponds_add h e 1
    · exact h

theorem corresponds_references (op : Operation K) :
    Corresponds (relabel r) id (references numbering op) (references numbering' (op.relabel r)) := by
  cases op with
  | initialise s => exact corresponds_add .empty s 1
  | accumulate s => exact corresponds_countTop same s .empty
  | evaluate e => exact corresponds_countTop same e .empty
  | give v e => exact corresponds_countRefs same e .empty
  | giveSum v s =>
    simp only [references, Operation.relabel, Operation.summand_relabel]
    exact corresponds_countRefs same _ .empty
  | hold e => exact .empty

end References

/-! ## What tallies hold -/

variable {m : Std.HashMap (Expr K) β} {a : Expr K × β}

omit [Scalar L] [EquivBEq (Expr L)] in
/-- Equal entries of a table are those under the same key. -/
theorem entry_eq_of_beq {b : Expr K × β} (ha : a ∈ m.toList) (hb : b ∈ m.toList) (same : (a.1 == b.1) = true) : a = b := by
  obtain ⟨key, value⟩ := Std.HashMap.mem_toList_iff_getKey?_eq_some_and_getElem?_eq_some.1 ha
  obtain ⟨key', value'⟩ := Std.HashMap.mem_toList_iff_getKey?_eq_some_and_getElem?_eq_some.1 hb
  rw [Std.HashMap.getKey?_congr same, key', Option.some.injEq] at key
  rw [Std.HashMap.getElem?_congr same, value', Option.some.injEq] at value
  exact Prod.ext key.symm value.symm

omit [Scalar L] [EquivBEq (Expr L)] in
theorem mem_of_mem_toList (h : a ∈ m.toList) : a.1 ∈ m := by
  rw [Std.HashMap.mem_iff_isSome_getElem?,
    Std.HashMap.getElem?_eq_some_iff_exists_beq_and_mem_toList.2 ⟨a.1, BEq.rfl, h⟩]
  rfl

/-! ## Declarations -/

/-- What is placed, under other labels. -/
def Placement.relabel (r : Relabelling K L) (p : Placement K) : Placement L where
  declared := p.declared.map (Prod.map id (map (Expr.relabel r)))
  kept := p.kept.map (Prod.map (Expr.relabel r) (map r.index))

variable (r) in
/-- Placing that goes the same way whatever the labels are. -/
def PlacesAlike {α β : Type} (R : α → β → Prop) (x : StateT (Placement K) Build α) (y : StateT (Placement L) Build β) :
    Prop :=
  ∀ st, Alike (fun a b => R a.1 b.1 ∧ b.2 = a.2.relabel r) (x.run st) (y.run (st.relabel r))

section PlacesAlike

variable {α β α' β' : Type} {R : α → β → Prop} {S : α' → β' → Prop}

omit [EquivBEq (Expr K)] [EquivBEq (Expr L)]

variable {a : α} {b : β}

theorem placesAlike_pure (h : R a b) : PlacesAlike r R (pure a) (pure b) :=
  fun _ => alike_pure ⟨h, rfl⟩

theorem PlacesAlike.bind {x : StateT (Placement K) Build α} {y : StateT (Placement L) Build β}
    {f : α → StateT (Placement K) Build α'} {g : β → StateT (Placement L) Build β'} (h : PlacesAlike r R x y)
    (next : ∀ a b, R a b → PlacesAlike r S (f a) (g b)) : PlacesAlike r S (x >>= f) (y >>= g) := by
  intro st
  rw [StateT.run_bind, StateT.run_bind]
  refine (h st).bind ?_
  rintro ⟨a, st₁⟩ ⟨b, _⟩ ⟨related, rfl⟩
  exact next a b related st₁

theorem placesAlike_lift {x : Build α} {y : Build β} (h : Alike R x y) :
    PlacesAlike r R (liftM x) (liftM y) := by
  intro st
  cases h with
  | returns hx hy related => rw [hx, hy]; exact alike_pure ⟨related, rfl⟩
  | fails hx hy => rw [hx, hy]; exact alike_throw

theorem placesAlike_modify {f : Placement K → Placement K} {g : Placement L → Placement L}
    (h : ∀ st, g (st.relabel r) = (f st).relabel r) :
    PlacesAlike r (fun _ _ => True) (modify f : StateT _ Build PUnit) (modify g : StateT _ Build PUnit) :=
  fun st => alike_pure ⟨trivial, h st⟩

theorem placesAlike_forIn {ι κ : Type} {h : ι → κ} {f : ι → α → StateT (Placement K) Build (ForInStep α)}
    {g : κ → β → StateT (Placement L) Build (ForInStep β)} {is : List ι}
    (each : ∀ i ∈ is, ∀ a b, R a b →
      PlacesAlike r (fun s t => ∃ a b, s = .yield a ∧ t = .yield b ∧ R a b) (f i a) (g (h i) b))
    (start : R a b) : PlacesAlike r R (forIn is a f) (forIn (is.map h) b g) := by
  induction is generalizing a b with
  | nil => exact placesAlike_pure start
  | cons i is ih =>
    rw [map_cons, forIn_cons, forIn_cons]
    refine (each i mem_cons_self a b start).bind ?_
    rintro _ _ ⟨a', b', rfl, rfl, next⟩
    exact ih (fun j hj => each j (mem_cons_of_mem _ hj)) next

end PlacesAlike

variable (r) in
/-- Frames that differ in labels alone, in which temporaries are told apart by their numbers. -/
structure FramesAlike (frame : PlacementFrame K) (frame' : PlacementFrame L) : Prop where
  numbering : Corresponds (relabel r) id frame.numbering frame'.numbering
  total : Corresponds (relabel r) id frame.total frame'.total
  order : frame'.order = frame.order.map r.index
  distinct {a b : Expr K} : a ∈ frame.numbering → b ∈ frame.numbering →
    frame.numbering.getD a 0 = frame.numbering.getD b 0 → (a == b) = true

section Blocks

variable {frame : PlacementFrame K} {frame' : PlacementFrame L}

/-- Tallies that differ in labels alone, of temporaries. -/
def TalliesAlike (frame : PlacementFrame K) (r : Relabelling K L) (t : Tally K) (t' : Tally L) : Prop :=
  Corresponds (relabel r) id t t' ∧ ∀ e ∈ t, e ∈ frame.numbering

variable {found : Tally K} {found' : Tally L}

/-- Temporaries are listed by their numbers, and so in the same order. -/
theorem sorted_relabel (h : FramesAlike r frame frame') (related : TalliesAlike frame r found found') :
    found'.toList.mergeSort (fun a b => frame'.numbering.getD a.1 0 ≤ frame'.numbering.getD b.1 0) =
      (found.toList.mergeSort fun a b => frame.numbering.getD a.1 0 ≤ frame.numbering.getD b.1 0).map
        (Prod.map (relabel r) id) := by
  have number : ∀ e : Expr K, frame'.numbering.getD (e.relabel r) 0 = frame.numbering.getD e 0 := fun e =>
    h.numbering.getD_eq (relabel_beq r) e 0
  have distinct : ∀ a ∈ found.toList.map (Prod.map (relabel r) id), ∀ b ∈ found.toList.map (Prod.map (relabel r) id),
      frame'.numbering.getD a.1 0 = frame'.numbering.getD b.1 0 → a = b := by
    simp only [mem_map]
    rintro _ ⟨a, ha, rfl⟩ _ ⟨b, hb, rfl⟩ same
    simp only [Prod.map_fst, number] at same
    rw [entry_eq_of_beq ha hb (h.distinct (related.2 _ (mem_of_mem_toList ha)) (related.2 _ (mem_of_mem_toList hb)) same)]
  rw [mergeSort_eq_of_perm (fun a => frame'.numbering.getD a.1 0) related.1 distinct]
  refine (map_mergeSort fun a _ b _ => ?_).symm
  simp only [Prod.map_fst, number]

/-- The same temporaries are declared in a block. -/
theorem placesAlike_declareIn (h : FramesAlike r frame frame') (path : List Nat) (loops : List Index)
    (related : TalliesAlike frame r found found') :
    PlacesAlike r (TalliesAlike frame r) (declareIn frame path loops found)
      (declareIn frame' path (loops.map r.index) found') := by
  have complete : (found'.toList.mergeSort fun a b =>
      frame'.numbering.getD a.1 0 ≤ frame'.numbering.getD b.1 0).filter (fun p => p.2 == frame'.total.getD p.1 0) =
      ((found.toList.mergeSort fun a b => frame.numbering.getD a.1 0 ≤ frame.numbering.getD b.1 0).filter
        fun p => p.2 == frame.total.getD p.1 0).map (Prod.map (Expr.relabel r) id) := by
    rw [sorted_relabel h related, filter_map]
    congr 2
    funext p
    exact congrArg (p.2 == ·) (h.total.getD_eq (Expr.relabel_beq r) p.1 0)
  unfold declareIn
  dsimp only
  rw [complete]
  generalize (found.toList.mergeSort fun a b => frame.numbering.getD a.1 0 ≤ frame.numbering.getD b.1 0).filter
    (fun p => p.2 == frame.total.getD p.1 0) = listed
  refine PlacesAlike.bind (R := fun d d' => d' = d.map (Expr.relabel r))
    (placesAlike_forIn (fun p _ d d' same => ?_) rfl) fun d d' same => ?_
  · subst same
    refine PlacesAlike.bind (R := fun is js => js = is.map r.index) (placesAlike_lift ?_) ?_
    · rw [h.order]
      exact IndexOrder.alike_loops r frame.order p.1
    · rintro own _ rfl
      have first : (loops.map r.index == (own.map r.index).take (loops.map r.index).length) =
          (loops == own.take loops.length) := by
        rw [length_map, ← map_take, r.map_index_beq]
      have kept : (own.map r.index).drop (loops.map r.index).length = (own.drop loops.length).map r.index := by
        rw [length_map, map_drop]
      rw [first, kept, isEmpty_map]
      refine (placesAlike_lift (alike_require _)).bind fun _ _ _ => ?_
      refine (placesAlike_modify fun st => by simp [Placement.relabel]).bind fun _ _ _ => ?_
      split
      · exact placesAlike_pure ⟨_, _, rfl, rfl, by simp⟩
      · exact placesAlike_pure ⟨_, _, rfl, rfl, rfl⟩
  · subst same
    refine (placesAlike_modify fun st => by simp [Placement.relabel]).bind fun _ _ _ => placesAlike_pure ⟨?_, fun e he => ?_⟩
    · exact Corresponds.foldl (fun p h => h.erase (Expr.relabel_beq r) p.1) related.1 listed
    · have kept : ∀ (l : List (Expr K × Nat)) (t : Tally K), e ∈ l.foldl (fun acc p => acc.erase p.1) t → e ∈ t := by
        intro l
        induction l with
        | nil => intro t h; exact h
        | cons p l ih => intro t h; exact (Std.HashMap.mem_erase.1 (ih _ h)).2
      exact related.2 e (kept listed found he)

/-- What operations start are temporaries. -/
def Started (frame : PlacementFrame K) (ops : List (Operation K)) : Prop := ∀ s, .initialise s ∈ ops → s ∈ frame.numbering

mutual

theorem placesAlike_placeStatement (h : FramesAlike r frame frame') (path : List Nat) (loops : List Index) :
    (s : Statement K) → Started frame s.operations → PlacesAlike r (TalliesAlike frame r)
      (placeStatement frame path loops s) (placeStatement frame' path (loops.map r.index) (s.relabel r))
  | .run op, started => by
    rw [Statement.relabel, placeStatement, placeStatement]
    refine placesAlike_pure ⟨corresponds_references h.numbering op, (references_spec fun s same => ?_).2⟩
    exact started s (by simp [Statement.operations, same])
  | .loop i body, started => by
    rw [Statement.operations] at started
    have inner : loops.map r.index ++ [r.index i] = (loops ++ [i]).map r.index := by simp
    rw [Statement.relabel, placeStatement, placeStatement, inner]
    refine (placesAlike_placeAll h path 0 (loops ++ [i]) body started ⟨.empty, by simp⟩).bind fun t t' related => ?_
    exact placesAlike_declareIn h path (loops ++ [i]) related

theorem placesAlike_placeAll (h : FramesAlike r frame frame') (path : List Nat) (n : Nat) (loops : List Index) :
    (ss : List (Statement K)) → Started frame (Statement.operationsOf ss) → {found : Tally K} → {found' : Tally L} →
      TalliesAlike frame r found found' → PlacesAlike r (TalliesAlike frame r) (placeAll frame path n loops ss found)
        (placeAll frame' path n (loops.map r.index) (Statement.relabelAll r ss) found')
  | [], _, _, _, related => by
    rw [Statement.relabelAll, placeAll, placeAll]
    exact placesAlike_pure related
  | s :: ss, started, _, _, related => by
    rw [Statement.operationsOf] at started
    rw [Statement.relabelAll, placeAll, placeAll]
    refine (placesAlike_placeStatement h (path ++ [n]) loops s fun e he => started e (mem_append_left _ he)).bind
      fun t t' here => ?_
    refine placesAlike_placeAll h path (n + 1) loops ss (fun e he => started e (mem_append_right _ he)) ⟨?_, ?_⟩
    · exact corresponds_merge related.1 here.1
    · intro e he
      exact (Tally.mem_merge.1 he).elim (related.2 e) (here.2 e)

end

end Blocks

/-! ## The whole tree -/

section Whole

variable {β : Type} {e : Expr K} {numbering : Std.HashMap (Expr K) Nat} {m : Std.HashMap (Expr K) β}

section

omit [Scalar L] [EquivBEq (Expr L)]

/-- A table has at least as many entries as there are different keys in it. -/
theorem length_le_size {es : List (Expr K)} (distinct : es.Pairwise fun a b => (a == b) = false) (mem : ∀ e ∈ es, e ∈ m) :
    es.length ≤ m.size := by
  induction es generalizing m with
  | nil => exact Nat.zero_le _
  | cons e es ih =>
    obtain ⟨head, tail⟩ := pairwise_cons.1 distinct
    have rest := ih tail (m := m.erase e) fun x hx =>
      Std.HashMap.mem_erase.2 ⟨head x hx, mem x (mem_cons_of_mem _ hx)⟩
    have known := mem e mem_cons_self
    have := Std.HashMap.size_erase (m := m) (k := e)
    rw [if_pos known] at this
    have : 0 < m.size := by
      have := Std.HashMap.isEmpty_eq_false_iff_exists_mem.2 ⟨e, known⟩
      rw [Std.HashMap.isEmpty_eq_size_eq_zero] at this
      simpa [Nat.pos_iff_ne_zero] using this
    rw [length_cons]
    omega

/-- A table that has the keys of another one, and not more entries, has no other keys. -/
theorem mem_of_size_le {γ : Type} {n : Std.HashMap (Expr K) γ} (sub : ∀ e ∈ m, e ∈ n)
    (size : n.size ≤ m.size) (he : e ∈ n) : e ∈ m := by
  by_contra out
  have distinct : (m.toList.map Prod.fst).Pairwise fun a b => (a == b) = false :=
    pairwise_map.2 Std.HashMap.distinct_keys_toList
  have all : ∀ k ∈ e :: m.toList.map Prod.fst, k ∈ n := by
    intro k hk
    rcases mem_cons.1 hk with rfl | hk
    · exact he
    · obtain ⟨p, hp, rfl⟩ := mem_map.1 hk
      exact sub _ (mem_of_mem_toList hp)
  have := length_le_size (pairwise_cons.2 ⟨fun k hk => ?_, distinct⟩) all
  · rw [length_cons, length_map, Std.HashMap.length_toList] at this
    omega
  · obtain ⟨p, hp, rfl⟩ := mem_map.1 hk
    refine Bool.eq_false_iff.2 fun same => out ?_
    exact (Std.HashMap.mem_congr same).2 (mem_of_mem_toList hp)

/-- The number of a temporary is a place at which it stands. -/
theorem exists_of_numbered {T : List (Expr K)} {e : Expr K} {n : Nat}
    (h : (T.zipIdx.foldl (fun m (t, n) => m.insert t n) (∅ : Std.HashMap (Expr K) Nat))[e]? = some n) :
    ∃ t, T[n]? = some t ∧ (t == e) = true := by
  have fold : ∀ (l : List (Expr K × Nat)) (m : Std.HashMap (Expr K) Nat),
      (l.foldl (fun m p => m.insert p.1 p.2) m)[e]? = some n → m[e]? = some n ∨ ∃ t, (t, n) ∈ l ∧ (t == e) = true := by
    intro l
    induction l with
    | nil => intro m h; exact .inl h
    | cons p l ih =>
      intro m h
      rcases ih _ h with h | ⟨t, ht, same⟩
      · rw [Std.HashMap.getElem?_insert] at h
        split at h
        · rename_i same
          cases h
          exact .inr ⟨p.1, mem_cons_self, same⟩
        · exact .inl h
      · exact .inr ⟨t, mem_cons_of_mem _ ht, same⟩
  rcases fold _ _ h with h | ⟨t, ht, same⟩
  · simp at h
  · exact ⟨t, mem_zipIdx_iff_getElem?.1 ht, same⟩

end

/-- Temporaries are numbered alike. -/
theorem corresponds_numbering (T : List (Expr K)) :
    Corresponds (relabel r) id (T.zipIdx.foldl (fun m (t, n) => m.insert t n) (∅ : Std.HashMap (Expr K) Nat))
      ((T.map (relabel r)).zipIdx.foldl (fun m (t, n) => m.insert t n) (∅ : Std.HashMap (Expr L) Nat)) := by
  rw [zipIdx_map]
  refine Corresponds.foldl ?_ .empty T.zipIdx
  intro m m' p h
  exact h.insert (relabel_beq r) p.1 p.2

/-- All references are added up alike. -/
theorem corresponds_total {numbering' : Std.HashMap (Expr L) Nat}
    (same : Corresponds (relabel r) id numbering numbering') (ops : List (Operation K)) :
    Corresponds (relabel r) id (ops.foldl (fun acc op => Tally.merge acc (references numbering op)) (∅ : Tally K))
      ((ops.map (Operation.relabel r)).foldl (fun acc op => Tally.merge acc (references numbering' op)) (∅ : Tally L)) := by
  refine Corresponds.foldl ?_ .empty ops
  intro t t' op h
  exact corresponds_merge h (corresponds_references same op)

omit [Scalar L] [EquivBEq (Expr L)] in
/-- All that is referred to, and all that operations start, is a temporary, if there are as many nodes with references as
temporaries. -/
theorem started_of_size {ops : List (Operation K)} {frame : PlacementFrame K} (numbers : frame.numbering = numbering)
    (sub : ∀ e ∈ numbering, e ∈ (distinct ops).foldl (fun acc op => Tally.merge acc (references numbering op)) (∅ : Tally K))
    (size : ((distinct ops).foldl (fun acc op => Tally.merge acc (references numbering op)) (∅ : Tally K)).size ≤
      numbering.size) : Started frame ops := by
  subst numbers
  intro s hs
  obtain ⟨op, hop, same⟩ := exists_mem_distinct hs
  change Operation.same op (.initialise s) = true at same
  cases op with
  | initialise s₀ =>
    have like : (s₀ == s) = true := same
    have : s₀ ∈ frame.numbering := by
      refine mem_of_size_le sub size ((total_spec _ _ _ _).2.2 (.inr ⟨_, hop, ?_⟩))
      exact Tally.mem_add.2 (.inl BEq.rfl)
    exact (Std.HashMap.mem_congr like).1 this
  | _ => simp [Operation.same] at same

/-- Temporaries are placed alike. -/
theorem alike_place (tree : List (Statement K)) (T : List (Expr K)) (order : IndexOrder) :
    Alike (fun p p' => p' = p.relabel r) (place tree T order)
      (place (Statement.relabelAll r tree) (T.map (Expr.relabel r)) (order.map r.index)) := by
  have numbering := corresponds_numbering (r := r) T
  have numbered := @exists_of_numbered K _ _ T
  unfold place
  rw [Statement.operationsOf_relabel, distinct_map (Operation.relabel_beq r)]
  dsimp only
  generalize T.zipIdx.foldl (fun m (t, n) => m.insert t n) (∅ : Std.HashMap (Expr K) Nat) = N at *
  generalize (T.map (Expr.relabel r)).zipIdx.foldl (fun m (t, n) => m.insert t n) (∅ : Std.HashMap (Expr L) Nat) = N' at *
  have total := corresponds_total numbering (distinct (Statement.operationsOf tree))
  have started (order) := @started_of_size K _ _ N (Statement.operationsOf tree)
    ⟨N, (distinct (Statement.operationsOf tree)).foldl (fun acc op => Tally.merge acc (references N op)) (∅ : Tally K), order⟩ rfl
  generalize (distinct (Statement.operationsOf tree)).foldl (fun acc op => Tally.merge acc (references N op)) (∅ : Tally K) = A at *
  generalize ((distinct (Statement.operationsOf tree)).map (Operation.relabel r)).foldl
    (fun acc op => Tally.merge acc (references N' op)) (∅ : Tally L) = A' at *
  have all : (T.map (Expr.relabel r)).all A'.contains = T.all A.contains := by
    rw [all_map]
    congr 1
    funext e
    exact total.contains_eq (Expr.relabel_beq r) e
  rw [numbering.size_eq, total.size_eq, length_map, all]
  refine (alike_require _).bind fun _ _ size => (alike_require _).bind fun _ _ complete => ?_
  rw [beq_iff_eq] at size
  rw [Bool.and_eq_true, beq_iff_eq, all_eq_true] at complete
  have standing : ∀ {e}, e ∈ N → ∃ t, T[N.getD e 0]? = some t ∧ (t == e) = true := fun {e} he => by
    refine numbered ?_
    rw [Std.HashMap.getD_eq_getD_getElem?]
    obtain ⟨n, hn⟩ := Option.isSome_iff_exists.1 (Std.HashMap.mem_iff_isSome_getElem?.1 he)
    rw [hn, Option.getD_some]
  have sub : ∀ e ∈ N, e ∈ A := fun e he => by
    obtain ⟨t, ht, same⟩ := standing he
    exact (Std.HashMap.mem_congr same).1 (complete.2 t (mem_of_getElem? ht))
  have frames : FramesAlike r ⟨N, A, order⟩ ⟨N', A', order.map r.index⟩ := by
    refine ⟨numbering, total, rfl, fun {a b} ha hb same => ?_⟩
    obtain ⟨t, ht, like⟩ := standing ha
    obtain ⟨u, hu, like'⟩ := standing hb
    have : t = u := by
      change N.getD a 0 = N.getD b 0 at same
      rw [same, hu, Option.some.injEq] at ht
      exact ht.symm
    subst this
    exact BEq.trans (BEq.symm like) like'
  have root : PlacesAlike r (TalliesAlike ⟨N, A, order⟩ r)
      (do let found ← placeAll ⟨N, A, order⟩ [] 0 [] tree ∅
          declareIn ⟨N, A, order⟩ [] [] found)
      (do let found ← placeAll ⟨N', A', order.map r.index⟩ [] 0 [] (Statement.relabelAll r tree) ∅
          declareIn ⟨N', A', order.map r.index⟩ [] [] found) := by
    refine (placesAlike_placeAll frames [] 0 [] tree (started order sub ?_) ⟨.empty, by simp⟩).bind fun t t' related => ?_
    · omega
    · exact placesAlike_declareIn frames [] [] related
  refine (root {}).bind ?_
  rintro ⟨rest, placement⟩ ⟨rest', _⟩ ⟨related, rfl⟩
  dsimp only
  rw [related.1.isEmpty_eq]
  exact (alike_require _).bind fun _ _ _ => alike_pure rfl

end Whole

/-! ## Compilation -/

variable (r)

/-- A program on relabelled expressions. -/
def relabel (p : Program K) : Program L where
  tree := Statement.relabelAll r p.tree
  temporaries := p.temporaries.map (Expr.relabel r)
  declared := p.declared.map (Prod.map id (map (Expr.relabel r)))
  kept := p.kept.map (Prod.map (Expr.relabel r) (map r.index))

/-- Relabelled assignments compile to the relabelled program, or fail in the same way. -/
theorem alike_compile (assignments : List (Expr K × Expr K)) (outer : List Index) (removeZeros : Bool) :
    Alike (fun p p' => p' = p.relabel r) (compile assignments outer removeZeros)
      (compile (assignments.map (Schedule.relabelPair r)) (outer.map r.index) removeZeros) := by
  have nonzero : (if removeZeros then (assignments.map (Schedule.relabelPair r)).filter fun a => !a.2.isZero
        else assignments.map (Schedule.relabelPair r)) =
      (if removeZeros then assignments.filter fun a => !a.2.isZero else assignments).map (Schedule.relabelPair r) := by
    split
    · rw [filter_map]
      congr 2
      funext a
      exact congrArg (!·) (Expr.isZero_relabel r a.2)
    · rfl
  unfold compile
  dsimp only
  rw [nonzero]
  generalize (if removeZeros then assignments.filter fun a => !a.2.isZero else assignments) = kept
  rw [Schedule.map_snd_relabelPair, usedIndices_relabel, IndexOrder.startingWith_relabel]
  generalize IndexOrder.startingWith outer (usedIndices (kept.map Prod.snd)) = order
  refine (Schedule.alike_operations kept order).bind ?_
  rintro ops _ rfl
  rw [isEmpty_map]
  split
  · exact alike_throw
  · rw [inlineTemporaries_relabel]
    refine (Statement.alike_ofOperations r order _).bind ?_
    rintro tree _ rfl
    rw [Statement.operationsOf_relabel, distinct_map (Operation.relabel_beq r), temporariesOf_relabel]
    refine (alike_place tree _ order).bind ?_
    rintro placement _ rfl
    exact alike_pure rfl

end Program

end FormCompiler
