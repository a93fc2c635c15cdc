import FormCompiler.Proofs.Likeness
import FormCompiler.Proofs.LoopTrees

/-!
# Temporaries find their place

Each temporary is declared in the innermost block that holds all references to it. While blocks are visited, the
references that are left over are those to temporaries that are not declared yet, all of them. Since what computes a
temporary is among its references, the loops around the block are the first of its own loops; so the visit succeeds
and leaves nothing over.
-/

namespace FormCompiler

open FormCompiler.Expr List

namespace Statement

variable {K : Type}

mutual

/-- The loops around each operation are those that it needs, where some loops surround the statement. -/
def Nested (order : IndexOrder) : List Index → Statement K → Prop
  | loops, .run op => op.loops order = loops
  | loops, .loop i body => NestedAll order (loops ++ [i]) body

/-- The loops around each operation of a block are those that it needs. -/
def NestedAll (order : IndexOrder) : List Index → List (Statement K) → Prop
  | _, [] => True
  | loops, s :: ss => Nested order loops s ∧ NestedAll order loops ss

end

section Nested

variable {order : IndexOrder}

variable {loops : List Index}

mutual

theorem Nested.isPrefix {loops : List Index} : {s : Statement K} → Nested order loops s →
    ∀ op ∈ s.operations, loops <+: op.loops order
  | .run op, h, op', mem => by
    obtain rfl : op' = op := by simpa [operations] using mem
    exact h ▸ prefix_rfl
  | .loop i body, h, op, mem => by
    have inner := NestedAll.isPrefix h op (by simpa [operations] using mem)
    exact (prefix_append loops [i]).trans inner

theorem NestedAll.isPrefix {loops : List Index} : {ss : List (Statement K)} → NestedAll order loops ss →
    ∀ op ∈ operationsOf ss, loops <+: op.loops order
  | [], _, op, mem => by simp [operationsOf] at mem
  | s :: ss, h, op, mem => by
    rcases mem_append.1 (by simpa [operationsOf] using mem) with mem | mem
    · exact Nested.isPrefix h.1 op mem
    · exact NestedAll.isPrefix h.2 op mem

end

mutual

theorem nested_of_placed {loops : List Index} (n : Nat) : (s : Statement K) →
    (∀ P ∈ placed n s, P.2.loops order = loops ++ P.1.map Prod.snd) → Nested order loops s
  | .run op, h => by simpa [Nested] using h ([], op) (mem_singleton_self _)
  | .loop i body, h => nestedAll_of_placed 0 body fun P hP => by simpa using h _ (mem_map_of_mem hP)

theorem nestedAll_of_placed {loops : List Index} (n : Nat) : (ss : List (Statement K)) →
    (∀ P ∈ placedAll n ss, P.2.loops order = loops ++ P.1.map Prod.snd) → NestedAll order loops ss
  | [], _ => trivial
  | s :: ss, h => ⟨nested_of_placed n s fun P hP => h P (mem_append_left _ hP),
    nestedAll_of_placed (n + 1) ss fun P hP => h P (mem_append_right _ hP)⟩

end

/-- Gathered operations have the loops that they need around them. -/
theorem nestedAll_gather {depth : Nat} {ps : List (Pending K)}
    (deep : ∀ p ∈ ps, p.1.length ≤ depth) (own : ∀ p ∈ ps, p.2.loops order = p.1) : NestedAll order [] (gather depth ps) := by
  refine nestedAll_of_placed 0 _ fun P hP => ?_
  have kept := (follows_gather deep 0).inOrder ▸ mem_map_of_mem hP
  exact own P.pending (mem_filter.1 kept).1

/-- The operations whose loops exist are gathered into a tree, in which they have these loops. -/
theorem exists_ofOperations {ops : List (Operation K)} (loops : ∀ op ∈ ops, ∀ i ∈ op.loopExpr.freeIndices, i ∈ order) :
    ∃ tree, ofOperations order ops = pure tree ∧ (operationsOf tree = ops.filter fun op => !op.isHold) ∧
      NestedAll order [] tree := by
  obtain ⟨depth, deep, gathered⟩ := ofOperations_eq loops
  have deep : ∀ p ∈ ops.map fun op => (op.loops order, op), p.1.length ≤ depth := forall_mem_map.2 deep
  refine ⟨_, gathered, ?_, nestedAll_gather deep (forall_mem_map.2 fun _ _ => rfl)⟩
  rw [operationsOf_gather deep, map_map]
  exact congrArg _ (map_id ops)

end Nested

end Statement

namespace Program

section Counting

variable {K : Type} [Scalar K] [EquivBEq (Expr K)]

/-! ## Tallies -/

namespace Tally

/-- All that is tallied is referred to. -/
def Positive (t : Tally K) : Prop := ∀ e ∈ t, 0 < t.getD e 0

theorem getD_add (t : Tally K) (e x : Expr K) (n : Nat) :
    (t.add e n).getD x 0 = t.getD x 0 + if e == x then n else 0 := by
  rw [add, Std.HashMap.getD_insert]
  split
  · rename_i same
    rw [Std.HashMap.getD_congr same]
  · rw [Nat.add_zero]

variable {t : Tally K} {x : Expr K}

theorem mem_add {e : Expr K} {n : Nat} : x ∈ t.add e n ↔ (e == x) = true ∨ x ∈ t := by
  rw [add, Std.HashMap.mem_insert]

/-- Counts are added up entry by entry. -/
theorem getD_foldl_add (l : List (Expr K × Nat)) (t : Tally K) (x : Expr K) :
    (l.foldl (fun acc p => acc.add p.1 p.2) t).getD x 0 =
      t.getD x 0 + (l.map fun p => if p.1 == x then p.2 else 0).sum := by
  induction l generalizing t with
  | nil => simp
  | cons p l ih => rw [foldl_cons, ih, getD_add, map_cons, sum_cons, Nat.add_assoc]

theorem mem_foldl_add {l : List (Expr K × Nat)} :
    x ∈ l.foldl (fun acc p => acc.add p.1 p.2) t ↔ x ∈ t ∨ ∃ p ∈ l, (p.1 == x) = true := by
  induction l generalizing t with
  | nil => simp
  | cons p l ih =>
    rw [foldl_cons, ih, mem_add]
    simp only [mem_cons, exists_eq_or_imp, or_assoc, or_left_comm]

theorem sum_toList (u : Tally K) (x : Expr K) : (u.toList.map fun p => if p.1 == x then p.2 else 0).sum = u.getD x 0 := by
  have only : ∀ l : List (Expr K × Nat), l.Pairwise (fun a b => (a.1 == b.1) = false) → ∀ e n, (e, n) ∈ l → (e == x) = true →
      (l.map fun p => if p.1 == x then p.2 else 0).sum = n := by
    intro l
    induction l with
    | nil => simp
    | cons p l ih =>
      intro distinct e n mem same
      obtain ⟨head, tail⟩ := pairwise_cons.1 distinct
      rw [map_cons, sum_cons]
      rcases mem_cons.1 mem with rfl | mem
      · have none : (l.map fun p => if p.1 == x then p.2 else 0).sum = 0 := by
          refine sum_eq_zero fun k hk => ?_
          obtain ⟨q, hq, rfl⟩ := mem_map.1 hk
          refine if_neg fun again => ?_
          have := head q hq
          rw [BEq.trans same (BEq.symm again)] at this
          cases this
        rw [if_pos same, none, Nat.add_zero]
      · have : ¬ (p.1 == x) = true := fun first => by
          have := head _ mem
          rw [BEq.trans first (BEq.symm same)] at this
          cases this
        rw [if_neg this, ih tail e n mem same, Nat.zero_add]
  cases h : u[x]? with
  | some n =>
    obtain ⟨e, same, mem⟩ := Std.HashMap.getElem?_eq_some_iff_exists_beq_and_mem_toList.1 h
    rw [only _ Std.HashMap.distinct_keys_toList e n mem (BEq.symm same), Std.HashMap.getD_eq_getD_getElem?, h,
      Option.getD_some]
  | none =>
    rw [Std.HashMap.getD_eq_getD_getElem?, h, Option.getD_none]
    refine sum_eq_zero fun k hk => ?_
    obtain ⟨p, hp, rfl⟩ := mem_map.1 hk
    refine if_neg fun same => ?_
    rw [Std.HashMap.getElem?_eq_some_iff_exists_beq_and_mem_toList.2 ⟨p.1, BEq.symm same, hp⟩] at h
    cases h

theorem getD_merge (t u : Tally K) (x : Expr K) : (t.merge u).getD x 0 = t.getD x 0 + u.getD x 0 := by
  rw [merge, Std.HashMap.fold_eq_foldl_toList, getD_foldl_add, sum_toList]

theorem mem_merge {u : Tally K} : x ∈ t.merge u ↔ x ∈ t ∨ x ∈ u := by
  rw [merge, Std.HashMap.fold_eq_foldl_toList, mem_foldl_add]
  refine or_congr_right ⟨?_, fun mem => ?_⟩
  · rintro ⟨⟨e, n⟩, mem, same⟩
    rw [Std.HashMap.mem_iff_isSome_getElem?,
      Std.HashMap.getElem?_eq_some_iff_exists_beq_and_mem_toList.2 ⟨e, BEq.symm same, mem⟩]
    rfl
  · obtain ⟨n, hn⟩ := Option.isSome_iff_exists.1 (Std.HashMap.mem_iff_isSome_getElem?.1 mem)
    obtain ⟨e, same, mem⟩ := Std.HashMap.getElem?_eq_some_iff_exists_beq_and_mem_toList.1 hn
    exact ⟨(e, n), mem, BEq.symm same⟩

end Tally

/-! ## References of operations -/

/-- How a tally may grow by counting references to temporaries. -/
structure Counted (numbering : Std.HashMap (Expr K) Nat) (t t' : Tally K) : Prop where
  positive : t.Positive → t'.Positive
  kept {x : Expr K} : x ∈ t → x ∈ t'
  new {x : Expr K} : x ∈ t' → x ∈ t ∨ x ∈ numbering

namespace Counted

variable {numbering : Std.HashMap (Expr K) Nat} {t t' t'' : Tally K}

omit [EquivBEq (Expr K)] in
theorem refl : Counted numbering t t := ⟨id, id, .inl⟩

omit [EquivBEq (Expr K)] in
theorem trans (h : Counted numbering t t') (h' : Counted numbering t' t'') : Counted numbering t t'' :=
  ⟨fun p => h'.positive (h.positive p), fun m => h'.kept (h.kept m), fun m => (h'.new m).elim h.new .inr⟩

theorem add {e : Expr K} (mem : e ∈ numbering) : Counted numbering t (t.add e) := by
  refine ⟨fun positive x hx => ?_, fun hx => Tally.mem_add.2 (.inr hx), fun hx => ?_⟩
  · rw [Tally.getD_add]
    rcases Tally.mem_add.1 hx with same | hx
    · simp [same]
    · have := positive x hx
      omega
  · rcases Tally.mem_add.1 hx with same | hx
    · exact .inr ((Std.HashMap.mem_congr same).1 mem)
    · exact .inl hx

omit [EquivBEq (Expr K)] in
theorem foldl {α : Type} {f : Tally K → α → Tally K} {as : List α} (h : ∀ a ∈ as, ∀ t, Counted numbering t (f t a)) :
    Counted numbering t (as.foldl f t) := by
  induction as generalizing t with
  | nil => exact refl
  | cons a as ih =>
    exact (h a mem_cons_self t).trans (ih fun b hb => h b (mem_cons_of_mem _ hb))

end Counted

section References

variable {numbering : Std.HashMap (Expr K) Nat}

omit [EquivBEq (Expr K)] in
theorem countRefs_eq (e : Expr K) (t : Tally K) : countRefs numbering e t =
    if numbering.contains e then t.add e else e.children.foldl (fun t c => countRefs numbering c t) t := by
  have children : ∀ (cs : List { c // c ∈ e.children }) (t : Tally K),
      ((cs.mapM fun c => (recurse (countStep numbering) c.1 : StateM (Tally K) Unit)) t).2 =
        (cs.map Subtype.val).foldl (fun t c => countRefs numbering c t) t := by
    intro cs
    induction cs with
    | nil => intro t; rfl
    | cons c cs ih =>
      intro t
      rw [mapM_cons, map_cons, foldl_cons, ← ih]
      rfl
  conv_lhs => rw [countRefs, recurse, countStep]
  split
  · rfl
  · refine (children e.children.attach t).trans ?_
    rw [attach_map_subtype_val]

theorem counted_countRefs (e : Expr K) (t : Tally K) : Counted numbering t (countRefs numbering e t) := by
  rw [countRefs_eq]
  split
  · rename_i mem
    exact .add (Std.HashMap.contains_iff_mem.1 mem)
  · exact .foldl fun c hc t =>
      have := sizeOf_lt_of_mem_children hc
      counted_countRefs c t
termination_by sizeOf e

theorem counted_countTop (e : Expr K) (t : Tally K) : Counted numbering t (countTop numbering e t) := by
  unfold countTop
  refine .trans ?_ (.foldl fun c _ t => counted_countRefs c t)
  split
  · rename_i mem
    exact .add (Std.HashMap.contains_iff_mem.1 mem)
  · exact .refl

variable {e : Expr K} {op : Operation K}

theorem mem_countTop (mem : e ∈ numbering) : e ∈ countTop numbering e ∅ := by
  unfold countTop
  rw [if_pos (Std.HashMap.contains_iff_mem.2 mem)]
  have grown : Counted numbering (Tally.add ∅ e) (e.children.foldl (fun t c => countRefs numbering c t) (Tally.add ∅ e)) :=
    .foldl fun c _ t => counted_countRefs c t
  exact grown.kept (Tally.mem_add.2 (.inl BEq.rfl))

/-- An operation refers to temporaries only, as often as is counted. -/
theorem references_spec (started : ∀ s, op = .initialise s → s ∈ numbering) :
    (references numbering op).Positive ∧ ∀ x ∈ references numbering op, x ∈ numbering := by
  have empty : Tally.Positive (∅ : Tally K) := fun e he => absurd he Std.HashMap.not_mem_empty
  have grown : ∀ {t : Tally K}, Counted numbering ∅ t → t.Positive ∧ ∀ x ∈ t, x ∈ numbering := fun h =>
    ⟨h.positive empty, fun x hx => (h.new hx).resolve_left Std.HashMap.not_mem_empty⟩
  cases op with
  | initialise s => exact grown (.add (started s rfl))
  | accumulate s => exact grown (counted_countTop s ∅)
  | evaluate e => exact grown (counted_countTop e ∅)
  | give v e => exact grown (counted_countRefs e ∅)
  | giveSum v s => exact grown (counted_countRefs _ ∅)
  | hold e => exact grown .refl

/-- What computes or starts a temporary refers to it. -/
theorem mem_references (mem : e ∈ numbering) (own : op = .evaluate e ∨ op = .initialise e) : e ∈ references numbering op := by
  rcases own with rfl | rfl
  · exact mem_countTop mem
  · exact Tally.mem_add.2 (.inl BEq.rfl)

end References

end Counting

variable {K : Type} [Scalar K] [LawfulBEq (Expr K)]

/-! ## What is left over -/

/-- The number of references that operations make to a temporary. -/
def referred (numbering : Std.HashMap (Expr K) Nat) (ops : List (Operation K)) (e : Expr K) : Nat :=
  (ops.map fun op => (references numbering op).getD e 0).sum

omit [LawfulBEq (Expr K)] in
theorem referred_append (numbering : Std.HashMap (Expr K) Nat) (ops ops' : List (Operation K)) (e : Expr K) :
    referred numbering (ops ++ ops') e = referred numbering ops e + referred numbering ops' e := by
  simp [referred]

variable {numbering : Std.HashMap (Expr K) Nat} {ops ops' : List (Operation K)}

omit [LawfulBEq (Expr K)] in
theorem referred_le_of_sublist (h : ops.Sublist ops') (e : Expr K) : referred numbering ops e ≤ referred numbering ops' e :=
  (h.map _).sum_le_sum (by simp)

omit [LawfulBEq (Expr K)] in
/-- An operation that refers to a temporary is among those that make all references to it. -/
theorem mem_of_referred_eq {all : List (Operation K)} (sub : ops.Sublist all)
    {e : Expr K} (whole : referred numbering ops e = referred numbering all e) {d : Operation K} (hd : d ∈ all)
    (refers : 0 < (references numbering d).getD e 0) : d ∈ ops := by
  obtain ⟨rest, perm⟩ := sub.exists_perm_append
  rcases mem_append.1 (perm.mem_iff.1 hd) with mem | mem
  · exact mem
  · have total : referred numbering all e = referred numbering (ops ++ rest) e := (perm.map _).sum_eq
    have here : (references numbering d).getD e 0 ≤ referred numbering rest e :=
      single_le_sum (by simp) _ (mem_map_of_mem mem)
    rw [referred_append] at total
    omega

/-- A tally of references to the temporaries that are not declared yet. To a temporary that is not tallied, there are
no references, or all of them lie in blocks that have been visited. -/
structure Left (frame : PlacementFrame K) (ops : List (Operation K)) (left : Tally K) : Prop where
  counted {e : Expr K} : e ∈ left → left.getD e 0 = referred frame.numbering ops e
  positive : left.Positive
  rest {e : Expr K} : e ∉ left → referred frame.numbering ops e = 0 ∨ referred frame.numbering ops e = frame.total.getD e 0

omit [LawfulBEq (Expr K)] in
theorem Left.nil (frame : PlacementFrame K) : Left frame [] (∅ : Tally K) :=
  ⟨fun h => absurd h Std.HashMap.not_mem_empty, fun _ h => absurd h Std.HashMap.not_mem_empty, fun _ => .inl rfl⟩

theorem Left.merge {frame : PlacementFrame K} {left left' : Tally K} (h : Left frame ops left) (h' : Left frame ops' left')
    (bound : ∀ e, referred frame.numbering (ops ++ ops') e ≤ frame.total.getD e 0) :
    Left frame (ops ++ ops') (left.merge left') := by
  have absent : ∀ {t : Tally K} {e}, e ∉ t → t.getD e 0 = 0 := fun h => Std.HashMap.getD_eq_fallback h
  refine ⟨fun {e} mem => ?_, fun e mem => ?_, fun {e} out => ?_⟩
  · have := bound e
    rw [referred_append] at this
    rw [Tally.getD_merge, referred_append]
    rcases Tally.mem_merge.1 mem with mem | mem
    · have counted := h.counted mem
      have positive := h.positive e mem
      by_cases mem' : e ∈ left'
      · rw [counted, h'.counted mem']
      · rw [absent mem', counted]
        rcases h'.rest mem' with none | all <;> omega
    · have counted := h'.counted mem
      have positive := h'.positive e mem
      by_cases mem' : e ∈ left
      · rw [counted, h.counted mem']
      · rw [absent mem', counted]
        rcases h.rest mem' with none | all <;> omega
  · rw [Tally.getD_merge]
    rcases Tally.mem_merge.1 mem with mem | mem
    · exact Nat.lt_of_lt_of_le (h.positive e mem) (Nat.le_add_right _ _)
    · exact Nat.lt_of_lt_of_le (h'.positive e mem) (Nat.le_add_left _ _)
  · have := bound e
    rw [referred_append] at this ⊢
    rw [Tally.mem_merge, not_or] at out
    rcases h.rest out.1 with none | all <;> rcases h'.rest out.2 with none' | all' <;> omega

/-! ## Blocks -/

/-- A computation that returns from every state, with a result that has a property. -/
def Succeeds {σ α : Type} (x : StateT σ Build α) (Q : α → Prop) : Prop :=
  ∀ st, ∃ a st', x.run st = pure (a, st') ∧ Q a

section Succeeds

variable {σ α β γ : Type} {Q : α → Prop} {R : β → Prop}

theorem succeeds_pure {a : α} (h : Q a) : Succeeds (pure a : StateT σ Build α) Q := fun st => ⟨a, st, rfl, h⟩

theorem Succeeds.bind {x : StateT σ Build α} {f : α → StateT σ Build β} (hx : Succeeds x Q)
    (hf : ∀ a, Q a → Succeeds (f a) R) : Succeeds (x >>= f) R := by
  intro st
  obtain ⟨a, st₁, run, good⟩ := hx st
  obtain ⟨b, st₂, run', good'⟩ := hf a good st₁
  refine ⟨b, st₂, ?_, good'⟩
  rw [StateT.run_bind, run, pure_bind]
  exact run'

theorem succeeds_modify (f : σ → σ) : Succeeds (modify f : StateT σ Build PUnit) fun _ => True :=
  fun _ => ⟨_, _, rfl, trivial⟩

theorem succeeds_forIn {xs : List β} {f : β → γ → StateT σ Build (ForInStep γ)}
    (h : ∀ x ∈ xs, ∀ c, Succeeds (f x c) fun r => ∃ c', r = .yield c') (c : γ) :
    Succeeds (forIn xs c f) fun _ => True := by
  induction xs generalizing c with
  | nil => exact fun st => ⟨c, st, rfl, trivial⟩
  | cons x xs ih =>
    rw [forIn_cons]
    refine (h x mem_cons_self c).bind ?_
    rintro _ ⟨c', rfl⟩
    exact ih (fun y hy => h y (mem_cons_of_mem _ hy)) c'

end Succeeds

/-- What placing relies on: the totals are right, loops are in the order, and each temporary that is referred to is
computed or started by an operation. -/
structure Fitted (frame : PlacementFrame K) (all : List (Operation K)) : Prop where
  total (e : Expr K) : frame.total.getD e 0 = referred frame.numbering all e
  ordered {e : Expr K} {i : Index} : e ∈ frame.numbering → i ∈ e.freeIndices → i ∈ frame.order
  references {op : Operation K} : op ∈ all → (references frame.numbering op).Positive ∧
    ∀ x ∈ references frame.numbering op, x ∈ frame.numbering
  own {e : Expr K} : e ∈ frame.numbering → ∃ d ∈ all, d.loopExpr = e ∧ e ∈ Program.references frame.numbering d

section Blocks

variable {frame : PlacementFrame K} {all ops : List (Operation K)}

theorem Left.mem_numbering {left : Tally K} (fitted : Fitted frame all) (sub : ops.Sublist all) (h : Left frame ops left)
    {e : Expr K} (he : e ∈ left) : e ∈ frame.numbering := by
  have pos : 0 < referred frame.numbering ops e := h.counted he ▸ h.positive e he
  obtain ⟨n, hn, ne⟩ := exists_mem_ne_zero_of_sum_ne_zero (Nat.pos_iff_ne_zero.1 pos)
  obtain ⟨op, hop, rfl⟩ := mem_map.1 hn
  refine (fitted.references (sub.subset hop)).2 e ?_
  by_contra absent
  exact ne (Std.HashMap.getD_eq_fallback absent)

variable {l : List (Expr K × Nat)} {t : Tally K} {x : Expr K}

/-- The tally without its complete entries. -/
theorem mem_foldl_erase : x ∈ l.foldl (fun acc p => acc.erase p.1) t ↔ x ∈ t ∧ ∀ p ∈ l, p.1 ≠ x := by
  induction l generalizing t with
  | nil => simp
  | cons p l ih =>
    rw [foldl_cons, ih, Std.HashMap.mem_erase]
    simp only [forall_mem_cons, beq_eq_false_iff_ne, ne_eq]
    tauto

theorem getD_foldl_erase (mem : x ∈ l.foldl (fun acc p => acc.erase p.1) t) :
    (l.foldl (fun acc p => acc.erase p.1) t).getD x 0 = t.getD x 0 := by
  induction l generalizing t with
  | nil => rfl
  | cons p l ih =>
    have apart : ¬ p.1 = x := (mem_foldl_erase.1 mem).2 p mem_cons_self
    rw [foldl_cons] at mem ⊢
    rw [ih mem, Std.HashMap.getD_erase]
    simp [apart]

/-- A block declares the temporaries to which all references lie in it, if its loops are the first of theirs. -/
theorem succeeds_declareIn (fitted : Fitted frame all) (sub : ops.Sublist all) {loops : List Index} {found : Tally K}
    (h : Left frame ops found) (nested : ∀ d ∈ ops, loops <+: d.loops frame.order) (path : List Nat) :
    Succeeds (declareIn frame path loops found) fun left => Left frame ops left ∧
      ∀ e ∈ left, referred frame.numbering ops e ≠ frame.total.getD e 0 := by
  have entry : ∀ {e : Expr K} {n : Nat}, (e, n) ∈ ((found.toList.mergeSort fun a b =>
      frame.numbering.getD a.1 0 ≤ frame.numbering.getD b.1 0).filter fun p => p.2 == frame.total.getD p.1 0) ↔
      found[e]? = some n ∧ n = frame.total.getD e 0 := by
    intro e n
    rw [mem_filter, mem_mergeSort, Std.HashMap.mem_toList_iff_getElem?_eq_some]
    simp
  have count : ∀ {e : Expr K}, e ∈ found → found[e]? = some (referred frame.numbering ops e) := by
    intro e mem
    obtain ⟨n, hn⟩ := Option.isSome_iff_exists.1 (Std.HashMap.mem_iff_isSome_getElem?.1 mem)
    rw [← h.counted mem, Std.HashMap.getD_eq_getD_getElem?, hn, Option.getD_some]
  unfold declareIn
  refine Succeeds.bind (Q := fun _ => True) (succeeds_forIn (fun p hp c => ?_) _) fun declared _ => ?_
  · obtain ⟨e, n⟩ := p
    obtain ⟨found?, complete⟩ := entry.1 hp
    have mem : e ∈ found := Std.HashMap.mem_iff_isSome_getElem?.2 (by rw [found?]; rfl)
    have whole : referred frame.numbering ops e = referred frame.numbering all e := by
      rw [← fitted.total, ← complete]
      exact Option.some.inj ((count mem).symm.trans found?)
    have known := h.mem_numbering fitted sub mem
    obtain ⟨d, hd, rfl, refers⟩ := fitted.own known
    have first := nested d (mem_of_referred_eq sub whole hd ((fitted.references hd).1 _ refers))
    have require : (loops == (frame.order.arranged d.loopExpr.freeIndices).take loops.length) = true :=
      beq_iff_eq.2 (prefix_iff_eq_take.1 first)
    have own : frame.order.loops d.loopExpr = pure (frame.order.arranged d.loopExpr.freeIndices) :=
      IndexOrder.sort_eq fun i hi => fitted.ordered known hi
    simp only [own, liftM_pure, pure_bind, require, Build.require, if_true]
    refine Succeeds.bind (Q := fun _ => True) (succeeds_modify _) fun _ _ => ?_
    split
    · exact succeeds_pure ⟨_, rfl⟩
    · exact succeeds_pure ⟨_, rfl⟩
  · refine Succeeds.bind (Q := fun _ => True) (succeeds_modify _) fun _ _ => ?_
    refine succeeds_pure ⟨⟨fun {e} mem => ?_, fun e mem => ?_, fun {e} out => ?_⟩, fun e mem => ?_⟩
    · rw [getD_foldl_erase mem]
      exact h.counted (mem_foldl_erase.1 mem).1
    · rw [getD_foldl_erase mem]
      exact h.positive e (mem_foldl_erase.1 mem).1
    · by_cases mem : e ∈ found
      · right
        by_contra incomplete
        refine out (mem_foldl_erase.2 ⟨mem, ?_⟩)
        rintro ⟨x, n⟩ hp rfl
        obtain ⟨found?, complete⟩ := entry.1 hp
        exact incomplete ((Option.some.inj ((count mem).symm.trans found?)).trans complete)
      · exact h.rest mem
    · intro complete
      obtain ⟨mem, apart⟩ := mem_foldl_erase.1 mem
      exact apart (e, _) (entry.2 ⟨count mem, complete⟩) rfl

open Statement (Nested NestedAll operationsOf)

mutual

/-- Visiting a statement succeeds and leaves over what is not declared in it. -/
theorem succeeds_placeStatement (fitted : Fitted frame all) (path : List Nat) {loops : List Index} :
    (s : Statement K) → Nested frame.order loops s → s.operations.Sublist all →
      Succeeds (placeStatement frame path loops s) (Left frame s.operations)
  | .run op, _, sub => by
    have mem : op ∈ all := sub.subset (by simp [Statement.operations])
    rw [placeStatement, Statement.operations]
    refine succeeds_pure ⟨fun _ => ?_, (fitted.references mem).1, fun {e} out => .inl ?_⟩
    · simp [referred]
    · simp [referred, Std.HashMap.getD_eq_fallback out]
  | .loop i body, nested, sub => by
    rw [Statement.operations] at sub ⊢
    rw [placeStatement]
    refine (succeeds_placeAll fitted path 0 body [] ∅ (.nil frame) nested (by simpa using sub)).bind fun found left => ?_
    rw [nil_append] at left
    intro st
    obtain ⟨rest, st', run, left', -⟩ := succeeds_declareIn fitted sub left (NestedAll.isPrefix nested) path st
    exact ⟨rest, st', run, left'⟩

/-- Visiting the statements of a block succeeds and leaves over what is not declared in them. -/
theorem succeeds_placeAll (fitted : Fitted frame all) (path : List Nat) (n : Nat) {loops : List Index} :
    (ss : List (Statement K)) → (ops : List (Operation K)) → (found : Tally K) → Left frame ops found →
      NestedAll frame.order loops ss → (ops ++ operationsOf ss).Sublist all →
      Succeeds (placeAll frame path n loops ss found) (Left frame (ops ++ operationsOf ss))
  | [], ops, found, left, _, _ => by
    rw [placeAll, operationsOf, append_nil]
    exact succeeds_pure left
  | s :: ss, ops, found, left, nested, sub => by
    rw [operationsOf] at sub ⊢
    rw [← append_assoc] at sub ⊢
    have here : (ops ++ s.operations).Sublist all := (sublist_append_left _ _).trans sub
    rw [placeAll]
    refine (succeeds_placeStatement fitted (path ++ [n]) s nested.1
      ((sublist_append_right _ _).trans here)).bind fun rest left' => ?_
    refine succeeds_placeAll fitted path (n + 1) ss _ _ (left.merge left' fun e => ?_) nested.2 sub
    rw [fitted.total]
    exact referred_le_of_sublist here e

end

end Blocks

/-! ## The whole tree -/

section Whole

variable {α : Type} {T : List (Expr K)} {l : List α}

theorem distinct_eq_self [BEq α] [LawfulBEq α] (nodup : l.Nodup) : distinct l = l := by
  have seen : ∀ (l seen : List α), (seen ++ l).Nodup →
      l.foldl (fun seen a => if seen.contains a then seen else seen ++ [a]) seen = seen ++ l := by
    intro l
    induction l with
    | nil => simp
    | cons a l ih =>
      intro seen nodup
      have new : a ∉ seen := fun mem => disjoint_of_nodup_append nodup mem mem_cons_self
      rw [foldl_cons, if_neg (fun h => new (contains_iff_mem.1 h)), ih _ (by simpa using nodup)]
      simp
  exact seen l [] (by simpa using nodup)

theorem mem_distinct [BEq α] [LawfulBEq α] {x : α} : x ∈ distinct l ↔ x ∈ l := by
  have seen : ∀ (l seen : List α),
      x ∈ l.foldl (fun seen a => if seen.contains a then seen else seen ++ [a]) seen ↔ x ∈ seen ∨ x ∈ l := by
    intro l
    induction l with
    | nil => simp
    | cons a l ih =>
      intro seen
      rw [foldl_cons, ih, mem_cons]
      split
      · rename_i known
        rw [contains_iff_mem] at known
        constructor
        · rintro (h | h)
          · exact .inl h
          · exact .inr (.inr h)
        · rintro (h | rfl | h)
          · exact .inl h
          · exact .inl known
          · exact .inr h
      · rw [mem_append, mem_singleton, or_assoc]
  exact (seen l []).trans (by simp)

theorem nodup_distinct [BEq α] [LawfulBEq α] (l : List α) : (distinct l).Nodup := by
  refine foldlRecOn _ _ (motive := Nodup) nodup_nil fun seen nodup a _ => ?_
  split
  · exact nodup
  · rename_i new
    rw [contains_iff_mem] at new
    exact nodup_append.2 ⟨nodup, nodup_singleton a, fun b hb c hc same => new (by simp_all)⟩

/-- Temporaries are numbered by their order. -/
theorem numbering_spec (nodup : T.Nodup) :
    (T.zipIdx.foldl (fun m (t, n) => m.insert t n) (∅ : Std.HashMap (Expr K) Nat)).size = T.length ∧
      ∀ x, x ∈ T.zipIdx.foldl (fun m (t, n) => m.insert t n) (∅ : Std.HashMap (Expr K) Nat) ↔ x ∈ T := by
  have insertAll : ∀ (l : List (Expr K × Nat)) (m : Std.HashMap (Expr K) Nat), (l.map Prod.fst).Nodup →
      (∀ p ∈ l, p.1 ∉ m) → (l.foldl (fun m p => m.insert p.1 p.2) m).size = m.size + l.length ∧
        ∀ x, x ∈ l.foldl (fun m p => m.insert p.1 p.2) m ↔ x ∈ m ∨ x ∈ l.map Prod.fst := by
    intro l
    induction l with
    | nil => simp
    | cons p l ih =>
      intro m nodup new
      obtain ⟨head, tail⟩ := nodup_cons.1 nodup
      have fresh : ∀ q ∈ l, q.1 ∉ m.insert p.1 p.2 := by
        intro q hq
        rw [Std.HashMap.mem_insert, beq_iff_eq, not_or]
        exact ⟨fun same => head (same ▸ mem_map_of_mem hq), new q (mem_cons_of_mem _ hq)⟩
      obtain ⟨size, mem⟩ := ih (m.insert p.1 p.2) tail fresh
      rw [foldl_cons]
      refine ⟨?_, fun x => ?_⟩
      · rw [size, Std.HashMap.size_insert, if_neg (new p mem_cons_self), length_cons]
        omega
      · rw [mem, Std.HashMap.mem_insert, beq_iff_eq, map_cons, mem_cons]
        tauto
  have keys : T.zipIdx.map Prod.fst = T := zipIdx_map_fst 0 T
  obtain ⟨size, mem⟩ := insertAll T.zipIdx ∅ (keys.symm ▸ nodup) (by simp)
  refine ⟨by simpa using size, fun x => (mem x).trans ?_⟩
  rw [keys]
  simp

omit [LawfulBEq (Expr K)] in
theorem total_spec [EquivBEq (Expr K)] (numbering : Std.HashMap (Expr K) Nat) (ops : List (Operation K)) (t : Tally K) (x : Expr K) :
    (ops.foldl (fun acc op => acc.merge (references numbering op)) t).getD x 0 = t.getD x 0 + referred numbering ops x ∧
      (x ∈ ops.foldl (fun acc op => acc.merge (references numbering op)) t ↔
        x ∈ t ∨ ∃ op ∈ ops, x ∈ references numbering op) := by
  induction ops generalizing t with
  | nil => simp [referred]
  | cons op ops ih =>
    obtain ⟨count, mem⟩ := ih (t.merge (references numbering op))
    rw [foldl_cons, count, mem, Tally.getD_merge, Tally.mem_merge]
    refine ⟨by simp [referred, Nat.add_assoc], ?_⟩
    simp only [mem_cons, exists_eq_or_imp, or_assoc]

/-- The operation refers to none of the expressions, however they are numbered. -/
def Detached (T : List (Expr K)) (op : Operation K) : Prop :=
  ∀ numbering : Std.HashMap (Expr K) Nat, (∀ x ∈ numbering, x ∈ T) → references numbering op = ∅

/-- References, one operation after the other, and each as often as it occurs. -/
theorem referred_eq_sum (numbering : Std.HashMap (Expr K) Nat) (ops : List (Operation K)) (e : Expr K) :
    referred numbering ops e = ∑ op ∈ ops.toFinset, ops.count op * (references numbering op).getD e 0 := by
  have lawful : (instBEqOfDecidableEq : BEq (Operation K)) = Operation.instBEq := lawful_beq_subsingleton _ _
  rw [referred, Finset.sum_list_map_count, lawful]
  rfl

theorem referred_distinct_eq_sum (numbering : Std.HashMap (Expr K) Nat) (ops : List (Operation K)) (e : Expr K) :
    referred numbering (distinct ops) e = ∑ op ∈ ops.toFinset, (references numbering op).getD e 0 := by
  have same : (distinct ops).toFinset = ops.toFinset := by
    ext op
    simp [mem_distinct]
  rw [referred_eq_sum, same]
  refine Finset.sum_congr rfl fun op hop => ?_
  rw [count_eq_one_of_mem (nodup_distinct ops) (mem_distinct.2 (mem_toFinset.1 hop)), Nat.one_mul]

/-- Repeated operations may be left out of a count if they refer to nothing. -/
theorem referred_distinct {numbering : Std.HashMap (Expr K) Nat} {ops : List (Operation K)}
    (repeated : ∀ op, 2 ≤ ops.count op → references numbering op = ∅) (e : Expr K) :
    referred numbering (distinct ops) e = referred numbering ops e := by
  rw [referred_distinct_eq_sum, referred_eq_sum]
  refine Finset.sum_congr rfl fun op hop => ?_
  by_cases again : 2 ≤ ops.count op
  · simp [repeated op again]
  · have := count_pos_iff.2 (mem_toFinset.1 hop)
    rw [show ops.count op = 1 by omega, Nat.one_mul]

/-- Placing succeeds for a tree whose operations have the loops that they need, if each temporary is computed or
started by one of them and operations that occur more than once refer to no temporary. -/
theorem place_eq {tree : List (Statement K)} {order : IndexOrder} (nodup : T.Nodup)
    (repeated : ∀ op, 2 ≤ (Statement.operationsOf tree).count op → Detached T op)
    (nested : Statement.NestedAll order [] tree)
    (ordered : ∀ t ∈ T, ∀ i ∈ t.freeIndices, i ∈ order)
    (started : ∀ s, .initialise s ∈ Statement.operationsOf tree → s ∈ T)
    (own : ∀ t ∈ T, .evaluate t ∈ Statement.operationsOf tree ∨ .initialise t ∈ Statement.operationsOf tree) :
    ∃ placement, place tree T order = pure placement := by
  obtain ⟨size, numbered⟩ := numbering_spec nodup
  unfold place
  dsimp only
  generalize T.zipIdx.foldl (fun m (t, n) => m.insert t n) (∅ : Std.HashMap (Expr K) Nat) = numbering at size numbered ⊢
  have spec := total_spec numbering (distinct (Statement.operationsOf tree)) ∅
  simp only [mem_distinct, referred_distinct fun op again => repeated op again numbering fun x hx => (numbered x).1 hx]
    at spec
  generalize (distinct (Statement.operationsOf tree)).foldl (fun acc op => acc.merge (references numbering op))
    (∅ : Tally K) = total at spec ⊢
  have references : ∀ {op}, op ∈ Statement.operationsOf tree → (references numbering op).Positive ∧
      ∀ x ∈ references numbering op, x ∈ numbering := fun hop =>
    references_spec fun s same => (numbered s).2 (started s (same ▸ hop))
  have refers : ∀ t ∈ T, ∃ d ∈ Statement.operationsOf tree, d.loopExpr = t ∧ t ∈ Program.references numbering d := by
    intro t ht
    rcases own t ht with mem | mem
    · exact ⟨_, mem, rfl, mem_references ((numbered t).2 ht) (.inl rfl)⟩
    · exact ⟨_, mem, rfl, mem_references ((numbered t).2 ht) (.inr rfl)⟩
  have tallied : ∀ x, x ∈ total ↔ x ∈ T := by
    intro x
    rw [(spec x).2]
    constructor
    · rintro (h | ⟨op, hop, hx⟩)
      · exact absurd h Std.HashMap.not_mem_empty
      · exact (numbered x).1 ((references hop).2 x hx)
    · intro hx
      obtain ⟨d, hd, -, mem⟩ := refers x hx
      exact .inr ⟨d, hd, mem⟩
  have totalSize : total.size = T.length := by
    rw [← Std.HashMap.length_keys]
    refine ((perm_ext_iff_of_nodup Std.HashMap.nodup_keys nodup).2 fun x => ?_).length_eq
    rw [Std.HashMap.mem_keys, tallied]
  have fitted : Fitted ⟨numbering, total, order⟩ (Statement.operationsOf tree) := by
    refine ⟨fun e => ?_, fun {e i} he hi => ordered e ((numbered e).1 he) i hi, references, fun he => refers _ ((numbered _).1 he)⟩
    simpa using (spec e).1
  have all : T.all total.contains = true :=
    all_eq_true.2 fun t ht => Std.HashMap.contains_iff_mem.2 ((tallied t).2 ht)
  have visit := (succeeds_placeAll fitted [] 0 tree [] ∅ (.nil _) nested (Sublist.refl _)).bind fun found left =>
    succeeds_declareIn fitted (Sublist.refl _) left (fun d _ => nil_prefix) []
  obtain ⟨rest, placement, run, -, incomplete⟩ := visit {}
  have empty : rest.isEmpty = true := Std.HashMap.isEmpty_iff_forall_not_mem.2 fun e mem =>
    incomplete e mem (fitted.total e).symm
  refine ⟨placement, ?_⟩
  simp only [size, totalSize, all, Build.require, beq_self_eq_true, Bool.and_true, if_true, pure_bind]
  rw [run, pure_bind]
  simp [empty]

end Whole

end Program

end FormCompiler
