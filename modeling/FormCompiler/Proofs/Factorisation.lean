import FormCompiler.Proofs.Association
import FormCompiler.Proofs.Cancellation

/-!
# Products that are always found

Where the extents of all indices are known, the search for a cheap order of operations does not fail: whatever order it
tries, each index that is summed over is left in some term until its turn comes, since terms that depend on an index are
not constants and are not folded away. The expression that is chosen is the product of the factors, summed over the
indices.
-/

namespace FormCompiler

open FormCompiler.Expr List Build

/-! ## Members of lists -/

section Lists

variable {α κ : Type}

variable {a : α}

/-- No group is empty, and its members have its key. -/
theorem mem_insertGroup [BEq κ] [LawfulBEq κ] {key : α → κ} {groups : List (κ × List α)}
    (h : ∀ g ∈ groups, g.2 ≠ [] ∧ ∀ b ∈ g.2, key b = g.1) :
    ∀ g ∈ insertGroup (key a) a groups, g.2 ≠ [] ∧ ∀ b ∈ g.2, key b = g.1 := by
  induction groups with
  | nil => simp [insertGroup]
  | cons g groups ih =>
    obtain ⟨l, members⟩ := g
    obtain ⟨here, rest⟩ := forall_mem_cons.1 h
    rw [insertGroup]
    split
    · rename_i same
      refine forall_mem_cons.2 ⟨⟨by simp, fun b hb => ?_⟩, rest⟩
      rcases mem_append.1 hb with hb | hb
      · exact here.2 b hb
      · rw [mem_singleton.1 hb, eq_of_beq same]
    · exact forall_mem_cons.2 ⟨here, ih rest⟩

theorem mem_groupBy [BEq κ] [LawfulBEq κ] (key : α → κ) (items : List α) :
    ∀ g ∈ groupBy key items, g.2 ≠ [] ∧ ∀ b ∈ g.2, key b = g.1 := by
  induction items using reverseRecOn with
  | nil => simp [groupBy]
  | append_singleton items a ih =>
    rw [groupBy, foldl_append]
    exact mem_insertGroup ih

/-- There are no more groups than members. -/
theorem length_groupBy_le [BEq κ] [LawfulBEq κ] (key : α → κ) (items : List α) : (groupBy key items).length ≤ items.length := by
  rw [← (perm_groupBy key items).length_eq, length_flatMap]
  have full : ∀ n ∈ (groupBy key items).map fun g => g.2.length, 1 ≤ n := by
    intro n hn
    obtain ⟨g, hg, rfl⟩ := mem_map.1 hn
    exact length_pos_iff.2 (mem_groupBy key items g hg).1
  simpa using card_nsmul_le_sum _ 1 full

theorem self_mem_arrangements (as : List α) : as ∈ arrangements as.length as := by
  induction as with
  | nil => exact mem_singleton.2 rfl
  | cons a as ih =>
    exact mem_flatMap.2 ⟨(a, as), mem_cons_self, mem_map_of_mem ih⟩

theorem pairs_ne_nil {b : α} {as : List α} : pairs (a :: b :: as) ≠ [] := by
  simp [pairs]

end Lists

/-! ## The best so far -/

/-- A search that keeps the best so far finds one. -/
theorem Build.succeeds_best {α β : Type} {extent : Index → Extent} {P : β → Prop} {f : Option β → α → Build (Option β)} {as : List α}
    (nonempty : as ≠ [])
    (step : ∀ best, ∀ a ∈ as, (∀ b ∈ best, P b) → Succeeds extent (f best a) fun r => ∃ b, r = some b ∧ P b) :
    Succeeds extent (as.foldlM f none) fun r => ∃ b, r = some b ∧ P b := by
  obtain ⟨a, as, rfl⟩ := exists_cons_of_ne_nil nonempty
  rw [foldlM_cons]
  refine (step none a mem_cons_self nofun).bind fun r hr => ?_
  refine succeeds_foldlM hr fun best b hb found => step best b (mem_cons_of_mem _ hb) ?_
  obtain ⟨c, rfl, hc⟩ := found
  rintro _ ⟨⟩
  exact hc

namespace Rewrite

variable {K : Type} [Scalar K] {extent : Index → Extent} {ts us : List (Expr K)} {a b c r : Expr K}

/-! ## Terms -/

/-- A scalar that holds one number if it is a constant. -/
structure Plain (extent : Index → Extent) (t : Expr K) : Prop where
  fits : t.WellFormed extent
  scalar : t.shape = []
  table {x : Tensor K} {stamp : UInt64} : t = .literal x stamp → x.entries.size = 1

/-- A scalar of which the extents of the indices are known, and which holds one number if it is a constant. -/
structure Workable (extent : Index → Extent) (t : Expr K) : Prop where
  fits : t.WellFormed extent
  scalar : t.shape = []
  known {i : Index} : i ∈ t.freeIndices → ∃ n, extent i = some n
  table {x : Tensor K} {stamp : UInt64} : t = .literal x stamp → x.entries.size = 1

theorem Workable.plain (h : Workable extent a) : Plain extent a := ⟨h.fits, h.scalar, h.table⟩

/-- A term that has the value of an operation on two others. Where both depend on some index, it depends on all the indices
that they depend on. -/
structure Merged [Field K] (extent : Index → Extent) (op : BinaryOp) (a b r : Expr K) : Prop where
  plain : Plain extent r
  value (env : Environment K) (σ : Valuation) : r.value env σ [] = op.apply (a.value env σ []) (b.value env σ [])
  free {i : Index} : i ∈ r.freeIndices → i ∈ a.freeIndices ∨ i ∈ b.freeIndices
  keeps : a.freeIndices ≠ [] → b.freeIndices ≠ [] → a.freeIndices ⊆ r.freeIndices ∧ b.freeIndices ⊆ r.freeIndices

/-- A term that holds one number if it is a constant. Where both terms depend on some index, it depends on all the indices that
they depend on. -/
structure Kept (a b r : Expr K) : Prop where
  table {x : Tensor K} {stamp : UInt64} : r = .literal x stamp → x.entries.size = 1
  keeps : a.freeIndices ≠ [] → b.freeIndices ≠ [] → a.freeIndices ⊆ r.freeIndices ∧ b.freeIndices ⊆ r.freeIndices

namespace Kept

variable {op : BinaryOp}

omit [Scalar K]

theorem node : Kept a b (.binary op a b) := by
  refine ⟨nofun, fun _ _ => ⟨fun i hi => ?_, fun i hi => ?_⟩⟩
  · exact mem_freeIndices_binary.2 (.inl hi)
  · exact mem_freeIndices_binary.2 (.inr hi)

/-- A term that keeps no index for sure, as one of the two is a constant. -/
theorem ofConstant (table : ∀ {x : Tensor K} {stamp : UInt64}, r = .literal x stamp → x.entries.size = 1)
    (constant : a.freeIndices = [] ∨ b.freeIndices = []) : Kept a b r :=
  ⟨table, fun ha hb => constant.elim (fun none => absurd none ha) fun none => absurd none hb⟩

theorem merged [Scalar K] [Field K] {w : Index → Prop} (h : Kept a b r) (replaces : Replaces w extent (.binary op a b) r) :
    Merged extent op a b r :=
  ⟨⟨replaces.fits, replaces.shape, h.table⟩, fun env σ => (replaces.value env σ).trans (value_binary env σ [] op a b),
    fun hi => mem_freeIndices_binary.1 (replaces.free hi), h.keeps⟩

end Kept

/-- A term that is the product of others. Where each of them depends on some index, it depends on all the indices that
they depend on. -/
structure Joined (extent : Index → Extent) (ts : List (Expr K)) (r : Expr K) : Prop where
  workable : Workable extent r
  free {i : Index} : i ∈ r.freeIndices → ∃ t ∈ ts, i ∈ t.freeIndices
  keeps : (∀ t ∈ ts, t.freeIndices ≠ []) → ∀ t ∈ ts, t.freeIndices ⊆ r.freeIndices

namespace Joined

theorem single (h : Workable extent a) : Joined extent [a] a := by
  refine ⟨h, fun hi => ⟨a, mem_cons_self, hi⟩, fun _ t ht => ?_⟩
  rw [mem_singleton.1 ht]
  exact Subset.refl _

/-- The product of two. -/
theorem ofMerged [Field K] (ha : Workable extent a) (hb : Workable extent b) (h : Merged extent .product a b r) :
    Joined extent [a, b] r := by
  refine ⟨⟨h.plain.fits, h.plain.scalar, fun hi => ?_, h.plain.table⟩, fun hi => ?_, fun nonempty => ?_⟩
  · exact (h.free hi).elim ha.known hb.known
  · exact (h.free hi).elim (fun hi => ⟨a, by simp, hi⟩) fun hi => ⟨b, by simp, hi⟩
  · obtain ⟨first, second⟩ := h.keeps (nonempty a (by simp)) (nonempty b (by simp))
    exact forall_mem_cons.2 ⟨first, forall_mem_singleton.2 second⟩

/-- A product in which two terms were multiplied before. -/
theorem ofPair (perm : ts.Perm (a :: b :: us)) (pair : Joined extent [a, b] c) (h : Joined extent (us ++ [c]) r) :
    Joined extent ts r := by
  have mem : ∀ {t}, t ∈ ts ↔ t = a ∨ t = b ∨ t ∈ us := by
    intro t
    rw [perm.mem_iff, mem_cons, mem_cons]
  refine ⟨h.workable, fun {i} hi => ?_, fun nonempty => ?_⟩
  · obtain ⟨t, ht, hi⟩ := h.free hi
    rcases mem_append.1 ht with ht | ht
    · exact ⟨t, mem.2 (.inr (.inr ht)), hi⟩
    · rw [mem_singleton.1 ht] at hi
      obtain ⟨t, ht, hi⟩ := pair.free hi
      exact ⟨t, mem.2 ((mem_pair.1 ht).imp id .inl), hi⟩
  · have first := pair.keeps fun t ht => nonempty t (mem.2 ((mem_pair.1 ht).imp id .inl))
    have some : c.freeIndices ≠ [] := fun none => by
      have := first a mem_cons_self
      rw [none, subset_nil] at this
      exact nonempty a (mem.2 (.inl rfl)) this
    have rest := h.keeps fun t ht => (mem_append.1 ht).elim (fun ht => nonempty t (mem.2 (.inr (.inr ht))))
      fun ht => mem_singleton.1 ht ▸ some
    have last := rest c (by simp)
    intro t ht
    rcases mem.1 ht with rfl | rfl | ht
    · exact Subset.trans (first _ (by simp)) last
    · exact Subset.trans (first _ (by simp)) last
    · exact rest t (mem_append_left _ ht)

theorem perm (h : Joined extent ts r) (same : ts.Perm us) : Joined extent us r := by
  refine ⟨h.workable, fun hi => ?_, fun nonempty t ht => ?_⟩
  · obtain ⟨t, ht, hi⟩ := h.free hi
    exact ⟨t, same.mem_iff.1 ht, hi⟩
  · exact h.keeps (fun u hu => nonempty u (same.mem_iff.1 hu)) t (same.mem_iff.2 ht)

end Joined

/-- Some of the terms depends on the index. -/
def Occurs (i : Index) (ts : List (Expr K)) : Prop := ∃ t ∈ ts, i ∈ t.freeIndices

/-- Terms that remain of others when indices are summed over. No other index is lost. -/
structure Remains (extent : Index → Extent) (is : List Index) (ts us : List (Expr K)) : Prop where
  workable {u : Expr K} : u ∈ us → Workable extent u
  nonempty : ts ≠ [] → us ≠ []
  length : us.length ≤ ts.length
  occurs (j : Index) : Occurs j us ↔ j ∉ is ∧ Occurs j ts

theorem Remains.trans {is js : List Index} {vs : List (Expr K)} (first : Remains extent is ts us) (second : Remains extent js us vs) :
    Remains extent (is ++ js) ts vs := by
  refine ⟨second.workable, fun h => second.nonempty (first.nonempty h), second.length.trans first.length, fun j => ?_⟩
  rw [second.occurs, first.occurs, mem_append, not_or]
  tauto

variable [Field K] [Exact K]

/-! ## Products -/

omit [Field K] [Exact K] in
/-- A constant term holds a number. -/
theorem succeeds_value (h : Plain extent a) (constant : a.isConstant = true) : Succeeds extent (Build.value a) fun _ => True := by
  cases a with
  | zero shape =>
    have scalar : shape = [] := h.scalar
    exact (succeeds_require (by rw [scalar]; rfl)).bind fun _ _ => succeeds_pure trivial
  | literal x stamp =>
    rw [Build.value, if_pos (h.table rfl)]
    exact succeeds_pure trivial
  | identity n => cases h.scalar
  | _ => cases constant

/-- Two constants are folded into one. -/
theorem succeeds_fold {f : K → K → K} (ha : Plain extent a) (hb : Plain extent b) (ca : a.isConstant = true) (cb : b.isConstant = true) :
    Succeeds extent (do number (f (← value a) (← value b))) (Kept a b) := by
  have none : a.freeIndices = [] := by
    cases a with
    | zero | literal | identity => simp [freeIndices]
    | _ => cases ca
  refine (succeeds_value ha ca).bind fun x _ => (succeeds_value hb cb).bind fun y _ => ?_
  have plain : (Tensor.scalar (f x y)).hasNaN = false := by simp [Tensor.hasNaN, Exact.isNaN_eq]
  unfold Build.number Build.literal
  refine succeeds_ite (fun _ => succeeds_pure (.ofConstant (by simp) (.inl none))) fun _ => ?_
  rw [plain]
  refine succeeds_pure (.ofConstant ?_ (.inl none))
  rintro _ _ ⟨⟩
  rfl

/-- Two terms are added. -/
theorem succeeds_merge_sum (ha : Plain extent a) (hb : Plain extent b) :
    Succeeds extent (Build.sum a b) (Merged extent .sum a b) := by
  refine Succeeds.mono (Succeeds.and (Q := Kept a b) ?_ (ensures_sum (w := fun _ => True) ha.fits hb.fits)) fun _ h => h.1.merged h.2
  unfold Build.sum
  refine (succeeds_requireScalar ha.scalar).bind fun _ _ => (succeeds_requireScalar hb.scalar).bind fun _ _ => ?_
  refine succeeds_ite (fun zero => succeeds_pure ?_) fun _ => ?_
  · obtain ⟨shape, rfl⟩ := isZero_iff.1 zero
    exact .ofConstant hb.table (.inl (by simp [freeIndices]))
  refine succeeds_ite (fun zero => succeeds_pure ?_) fun _ => ?_
  · obtain ⟨shape, rfl⟩ := isZero_iff.1 zero
    exact .ofConstant ha.table (.inr (by simp [freeIndices]))
  refine succeeds_ite (fun constants => ?_) fun _ => succeeds_pure .node
  obtain ⟨ca, cb⟩ := Bool.and_eq_true_iff.1 constants
  exact succeeds_fold ha hb ca cb

/-- Two terms are multiplied. -/
theorem succeeds_merge_product (ha : Plain extent a) (hb : Plain extent b) :
    Succeeds extent (Build.product a b) (Merged extent .product a b) := by
  refine Succeeds.mono (Succeeds.and (Q := Kept a b) ?_ (ensures_product (w := fun _ => True) ha.fits hb.fits)) fun _ h => h.1.merged h.2
  unfold Build.product
  refine (succeeds_requireScalar ha.scalar).bind fun _ _ => (succeeds_requireScalar hb.scalar).bind fun _ _ => ?_
  refine succeeds_ite (fun zero => succeeds_pure (.ofConstant nofun ?_)) fun _ => ?_
  · refine (Bool.or_eq_true_iff.1 zero).imp (fun zero => ?_) fun zero => ?_ <;>
    · obtain ⟨shape, rfl⟩ := isZero_iff.1 zero
      simp [freeIndices]
  have one : (Build.one : Expr K).freeIndices = [] := by simp [Build.one, freeIndices]
  refine succeeds_ite (fun isOne => succeeds_pure (.ofConstant hb.table (.inl (eq_of_beq isOne ▸ one)))) fun _ => ?_
  refine succeeds_ite (fun isOne => succeeds_pure (.ofConstant ha.table (.inr (eq_of_beq isOne ▸ one)))) fun _ => ?_
  refine succeeds_ite (fun constants => ?_) fun _ => succeeds_pure .node
  obtain ⟨ca, cb⟩ := Bool.and_eq_true_iff.1 constants
  exact succeeds_fold ha hb ca cb

theorem succeeds_product (ha : Workable extent a) (hb : Workable extent b) :
    Succeeds extent (product a b) (Joined extent [a, b]) :=
  (succeeds_merge_product ha.plain hb.plain).mono fun _ => .ofMerged ha hb

/-! ## The cheapest pair first -/

variable {is order : List Index} {cost : Int} {t : Expr K} {i : Index}

omit [Scalar K] [Field K] [Exact K] in
theorem succeeds_pointCount (known : ∀ i ∈ is, ∃ n, extent i = some n) : Succeeds extent (pointCount is) fun _ => True := by
  refine (succeeds_mapM (S := fun _ _ => True) fun i hi => ?_).bind fun _ _ => succeeds_pure trivial
  obtain ⟨n, hn⟩ := known i hi
  exact (succeeds_knownExtent hn).mono fun _ _ => trivial

omit [Field K] [Exact K] in
/-- Of two terms or more some pair is the cheapest. -/
theorem succeeds_cheapestPair (workable : ∀ t ∈ ts, Workable extent t) (several : 2 ≤ ts.length) :
    Succeeds extent (cheapestPair ts) fun best => ∃ p, best = some p ∧ p.2 ∈ pairs ts := by
  have nonempty : pairs ts ≠ [] := by
    rcases ts with _ | ⟨a, _ | ⟨b, ts⟩⟩
    · cases several
    · simp at several
    · exact pairs_ne_nil
  refine succeeds_best nonempty fun best p hp found => ?_
  have operands := (sublist_of_mem_pairs hp).subset
  refine (succeeds_pointCount fun i hi => ?_).bind fun cost _ => ?_
  · rcases Indices.mem_union.1 hi with hi | hi
    · exact (workable _ (operands (by simp))).known hi
    · exact (workable _ (operands (by simp))).known hi
  · cases best with
    | none => exact succeeds_pure ⟨_, rfl, hp⟩
    | some least =>
      refine succeeds_pure ?_
      split
      · exact ⟨_, rfl, hp⟩
      · exact ⟨_, rfl, found _ rfl⟩

theorem succeeds_joinCheapest {n : Nat} (workable : ∀ t ∈ ts, Workable extent t) (nonempty : ts ≠ [])
    (enough : ts.length ≤ n) : Succeeds extent (joinCheapest product n ts cost) fun p => Joined extent ts p.1 := by
  induction n generalizing ts cost with
  | zero => exact absurd (length_eq_zero_iff.1 (Nat.le_zero.1 enough)) nonempty
  | succ n ih =>
    by_cases single : ∃ t, ts = [t]
    · obtain ⟨t, rfl⟩ := single
      exact succeeds_pure (.single (workable t mem_cons_self))
    rw [joinCheapest]
    · have several : 2 ≤ ts.length := by
        have := length_pos_iff.2 nonempty
        have : ts.length ≠ 1 := fun one => single (length_eq_one_iff.1 one)
        omega
      refine (succeeds_cheapestPair workable several).bind fun best found => ?_
      obtain ⟨⟨least, a, b⟩, rfl, mem⟩ := found
      have perm := perm_of_mem_pairs mem
      have ha : a ∈ ts := perm.mem_iff.2 (by simp)
      have hb : b ∈ ts := perm.mem_iff.2 (by simp)
      refine (succeeds_product (workable a ha) (workable b hb)).bind fun c pair => ?_
      refine (ih (fun t ht => ?_) (by simp) ?_).mono fun q joined => .ofPair perm pair joined
      · rcases mem_append.1 ht with ht | ht
        · exact workable t (mem_of_mem_erase (mem_of_mem_erase ht))
        · exact mem_singleton.1 ht ▸ pair.workable
      · have := perm.length_eq
        simp only [length_cons, length_append, length_nil] at this ⊢
        omega
    · exact fun t eq => single ⟨t, eq⟩

/-- At most 32 terms are joined. -/
theorem succeeds_associate (workable : ∀ t ∈ ts, Workable extent t) (nonempty : ts ≠ []) (few : ts.length ≤ 32) :
    Succeeds extent (associate product ts) fun p => Joined extent ts p.1 := by
  unfold associate
  rw [if_neg (by omega)]
  exact succeeds_joinCheapest workable nonempty le_rfl

theorem succeeds_foldProduct (workable : ∀ u ∈ t :: ts, Workable extent u) :
    Succeeds extent (ts.foldlM product t) (Joined extent (t :: ts)) := by
  induction ts generalizing t with
  | nil => exact succeeds_pure (.single (workable t mem_cons_self))
  | cons u ts ih =>
    obtain ⟨ht, hu, rest⟩ := by simpa only [forall_mem_cons] using workable
    rw [foldlM_cons]
    refine (succeeds_product ht hu).bind fun c pair => ?_
    refine (ih (forall_mem_cons.2 ⟨pair.workable, rest⟩)).mono fun r joined => ?_
    exact .ofPair (.refl _) pair (joined.perm (perm_append_singleton c ts).symm)

/-! ## Contraction -/

/-- Terms with the same indices are multiplied. -/
theorem succeeds_joinGroups (workable : ∀ t ∈ ts, Workable extent t) :
    Succeeds extent (joinGroups product ts) (Remains extent [] ts) := by
  have groups := mem_groupBy (fun e : Expr K => e.freeIndices) ts
  have perm := perm_groupBy (fun e : Expr K => e.freeIndices) ts
  have sub : ∀ g ∈ groupBy (fun e : Expr K => e.freeIndices) ts, ∀ t ∈ g.2, t ∈ ts := fun g hg t ht =>
    perm.mem_iff.1 (mem_flatMap.2 ⟨g, hg, ht⟩)
  refine (succeeds_mapM (S := fun g r => Joined extent g.2 r) fun g hg => ?_).mono fun rs joined => ?_
  · obtain ⟨key, members⟩ := g
    cases members with
    | nil => exact absurd rfl (groups _ hg).1
    | cons t members => exact succeeds_foldProduct fun u hu => workable u (sub _ hg u hu)
  have length : rs.length ≤ ts.length := joined.length_eq ▸ length_groupBy_le _ ts
  refine ⟨fun hr => ?_, fun nonempty none => ?_, length, fun j => ⟨?_, ?_⟩⟩
  · obtain ⟨g, -, here⟩ := exists_of_forall₂ joined.flip hr
    exact here.workable
  · have : groupBy (fun e : Expr K => e.freeIndices) ts = [] := length_eq_zero_iff.1 (by rw [joined.length_eq, none]; rfl)
    rw [this] at perm
    exact nonempty (nil_perm.1 perm)
  · rintro ⟨r, hr, hj⟩
    obtain ⟨g, hg, here⟩ := exists_of_forall₂ joined.flip hr
    obtain ⟨t, ht, hj⟩ := here.free hj
    exact ⟨not_mem_nil, t, sub g hg t ht, hj⟩
  · rintro ⟨-, t, ht, hj⟩
    obtain ⟨g, hg, mem⟩ := mem_flatMap.1 (perm.mem_iff.2 ht)
    obtain ⟨r, hr, here⟩ := exists_of_forall₂ joined hg
    -- the members of a group have the same indices, so that none of them is a constant
    have depend : ∀ u ∈ g.2, u.freeIndices ≠ [] := by
      intro u hu
      rw [(groups g hg).2 u hu, ← (groups g hg).2 t mem]
      exact ne_nil_of_mem hj
    exact ⟨r, hr, here.keeps depend t mem hj⟩

/-- A sum over one index, which is left out if it has one position only. -/
inductive SumOf (body : Expr K) (i : Index) (n : Int) : Expr K → Prop where
  | sum : SumOf body i n (.indexSum body [(i, n)])
  | first : n = 1 → SumOf body i n (.indexed (.componentTensor body [(i, n)]) [.fixed 0])

omit [Field K] [Exact K] in
theorem succeeds_sumOver_cases (scalar : a.shape = []) {n : Int} (size : extent i = some n) (pos : 0 < n) (free : i ∈ a.freeIndices) :
    Succeeds extent (Build.sumOver a [i]) (SumOf a i n) := by
  have bounds : Bounds extent [(i, n)] := ⟨fun hb => mem_singleton.1 hb ▸ size, fun hb => mem_singleton.1 hb ▸ pos⟩
  have notZero : a.isZero = false := by
    cases a with
    | zero => simp [freeIndices] at free
    | _ => rfl
  unfold Build.sumOver Build.indexSum
  refine (succeeds_requireScalar scalar).bind fun _ _ => ?_
  rw [notZero]
  refine Succeeds.bind (Q := fun bs => bs = [(i, n)]) ?_ fun bs hbs => ?_
  · refine (succeeds_mapM (S := fun slot b => slot = .free i → b = (i, n)) fun slot mem => ?_).mono fun bs h => ?_
    · obtain rfl := mem_singleton.1 mem
      exact (succeeds_knownExtent size).bind fun m hm => succeeds_pure fun _ => by rw [hm]
    · obtain _ | ⟨here, rest⟩ := h
      rw [forall₂_nil_left_iff.1 rest, here rfl]
  subst hbs
  by_cases one : n = 1
  · subst one
    refine (succeeds_require rfl).bind fun _ _ => ?_
    refine (succeeds_tensorOver scalar bounds (by simpa using free)).bind fun t ht => ?_
    obtain none | zero | _ := ht
    · cases none
    · simp [notZero] at zero
    · refine (succeeds_componentEntry (by simp) (.cons trivial .nil)).bind fun r hr => ?_
      subst hr
      exact succeeds_ite (fun _ => succeeds_pure (.first rfl)) fun some => absurd (by simp) some
  · have several : ¬ n ≤ 1 := by omega
    refine succeeds_ite (fun some => absurd some (by simp [several])) fun _ => ?_
    exact (succeeds_require (by simpa [Indices.subset_iff] using free)).bind fun _ _ => succeeds_pure .sum

omit [Exact K] in
/-- A term that depends on an index is summed over it. -/
theorem succeeds_sumOver (ha : Workable extent a) (known : ∃ n, extent i = some n ∧ 0 < n) (free : i ∈ a.freeIndices) :
    Succeeds extent (sumOver a [i]) fun r => Workable extent r ∧ ∀ j, j ∈ r.freeIndices ↔ j ∈ a.freeIndices ∧ j ≠ i := by
  obtain ⟨n, size, pos⟩ := known
  have bounds : Bounds extent [(i, n)] := ⟨fun hb => mem_singleton.1 hb ▸ size, fun hb => mem_singleton.1 hb ▸ pos⟩
  refine ((succeeds_sumOver_cases ha.scalar size pos free).and
    (ensures_sumOver (w := fun _ => True) ha.fits bounds)).mono fun r hr => ?_
  obtain ⟨cases, refines⟩ := hr
  have free : ∀ j, j ∈ r.freeIndices ↔ j ∈ a.freeIndices ∧ j ≠ i := fun j => by
    cases cases with
    | sum => simp [Expr.mem_freeIndices_indexSum]
    | first => simp [Expr.mem_freeIndices_indexed, Expr.mem_freeIndices_componentTensor]
  refine ⟨⟨refines.fits, refines.shape, fun hj => ha.known ((free _).1 hj).1, fun eq => ?_⟩, free⟩
  subst eq
  cases cases

/-- An index on which some term depends is contracted. -/
theorem succeeds_contractIndex (workable : ∀ t ∈ ts, Workable extent t) (few : ts.length ≤ 32)
    (known : ∃ n, extent i = some n ∧ 0 < n) (occurs : Occurs i ts) :
    Succeeds extent (contractIndex (ts, cost) i) fun p => Remains extent [i] ts p.1 := by
  obtain ⟨t, ht, hi⟩ := occurs
  have sub : ∀ {p : Expr K → Bool} {t}, t ∈ ts.filter p → t ∈ ts := fun ht => (mem_filter.1 ht).1
  have dependent : ∀ t ∈ ts.filter fun t => t.freeIndices.contains i, i ∈ t.freeIndices := fun t ht => by
    simpa using (mem_filter.1 ht).2
  have chosen : t ∈ ts.filter fun t => t.freeIndices.contains i := mem_filter.2 ⟨ht, by simpa using hi⟩
  have parts : ((ts.filter fun t => t.freeIndices.contains i) ++ ts.filter fun t => !t.freeIndices.contains i).Perm ts :=
    filter_append_perm _ ts
  have lengths := parts.length_eq
  have positive := length_pos_of_mem chosen
  rw [length_append] at lengths
  unfold contractIndex
  refine (succeeds_associate (fun t ht => workable t (sub ht)) (ne_nil_of_mem chosen) (by omega)).bind fun p product => ?_
  have keeps := product.keeps fun t ht => ne_nil_of_mem (dependent t ht)
  refine (succeeds_sumOver product.workable known (keeps t chosen hi)).bind fun r sum => ?_
  obtain ⟨fits, free⟩ := sum
  refine (succeeds_pointCount fun j hj => product.workable.known hj).bind fun _ _ => succeeds_pure ?_
  refine ⟨fun hu => ?_, fun _ => by simp, ?_, fun j => ⟨?_, ?_⟩⟩
  · rcases mem_append.1 hu with hu | hu
    · exact workable _ (sub hu)
    · exact mem_singleton.1 hu ▸ fits
  · rw [length_append, length_singleton]
    omega
  · rintro ⟨u, hu, hj⟩
    rcases mem_append.1 hu with hu | hu
    · refine ⟨?_, u, sub hu, hj⟩
      rw [mem_singleton]
      rintro rfl
      simpa [hj] using (mem_filter.1 hu).2
    · rw [mem_singleton.1 hu, free] at hj
      obtain ⟨v, hv, hj'⟩ := product.free hj.1
      exact ⟨by simpa using hj.2, v, sub hv, hj'⟩
  · rintro ⟨out, u, hu, hj⟩
    by_cases depends : i ∈ u.freeIndices
    · have mem : u ∈ ts.filter fun t => t.freeIndices.contains i := mem_filter.2 ⟨hu, by simpa using depends⟩
      exact ⟨r, by simp, (free j).2 ⟨keeps u mem hj, by simpa using out⟩⟩
    · exact ⟨u, by simp [hu, depends], hj⟩

/-- Indices are contracted in any order. -/
theorem succeeds_contract (workable : ∀ t ∈ ts, Workable extent t) (few : ts.length ≤ 32)
    (distinct : order.Nodup) (known : ∀ i ∈ order, ∃ n, extent i = some n ∧ 0 < n) (occurs : ∀ i ∈ order, Occurs i ts) :
    Succeeds extent (order.foldlM contractIndex (ts, cost)) fun p => Remains extent order ts p.1 := by
  induction order generalizing ts cost with
  | nil => exact succeeds_pure ⟨workable _, id, le_rfl, by simp⟩
  | cons i order ih =>
    obtain ⟨out, distinct⟩ := nodup_cons.1 distinct
    obtain ⟨here, known⟩ := forall_mem_cons.1 known
    rw [foldlM_cons]
    refine (succeeds_contractIndex workable few here (occurs i mem_cons_self)).bind fun p step => ?_
    -- the indices to come still occur
    have later : ∀ j ∈ order, Occurs j p.1 := fun j hj => (step.occurs j).2
      ⟨fun mem => out (mem_singleton.1 mem ▸ hj), occurs j (mem_cons_of_mem _ hj)⟩
    exact (ih (fun t ht => step.workable ht) (step.length.trans few) distinct known later).mono fun q rest => step.trans rest

/-! ## Sums of products -/

/-- An expression that is the product of the factors, summed over the indices. -/
structure Factorises (extent : Index → Extent) (is : List Index) (ts : List (Expr K)) (r : Expr K) : Prop where
  fits : r.WellFormed extent
  scalar : r.shape = []
  free {i : Index} : i ∈ r.freeIndices → i ∉ is ∧ Occurs i ts
  value (env : Environment K) (ρ : Valuation) :
    r.value env ρ [] = ((ρ.runs extent is).map fun σ => productAt env σ ts).sum

theorem succeeds_contractInOrder (workable : ∀ t ∈ ts, Workable extent t) (nonempty : ts ≠ []) (few : ts.length ≤ 32)
    (distinct : order.Nodup) (known : ∀ i ∈ order, ∃ n, extent i = some n ∧ 0 < n) (occurs : ∀ i ∈ order, Occurs i ts) :
    Succeeds extent (contractInOrder ts order) fun _ => True := by
  unfold contractInOrder
  refine (succeeds_contract workable few distinct known occurs).bind fun p remains => ?_
  exact (succeeds_associate (fun t ht => remains.workable ht) (remains.nonempty nonempty) (remains.length.trans few)).bind
    fun q _ => succeeds_pure trivial

/-- The product of at most 32 factors is summed over at most six indices, each of which occurs in some factor: whichever
order of operations is chosen, the expression has the value of the sum. -/
theorem succeeds_sumFactorise {is : List Index} (distinct : is.Nodup) (fewIndices : is.length ≤ 6) (fewFactors : ts.length ≤ 32)
    (known : ∀ i ∈ is, ∃ n, extent i = some n ∧ 0 < n) (workable : ∀ t ∈ ts, Workable extent t) (occurs : ∀ i ∈ is, Occurs i ts) :
    Succeeds extent (sumFactorise is ts) (Factorises extent is ts) := by
  have within : Expr.Within (fun _ => True) extent ts := ⟨fun ht => (workable _ ht).fits, fun ht => (workable _ ht).scalar, fun _ _ => trivial⟩
  refine Succeeds.mono (Succeeds.and (Q := fun _ => True) ?_ (ensures_sumFactorise within distinct known)) fun r hr => ?_
  · unfold sumFactorise
    refine succeeds_ite (fun _ => succeeds_pure trivial) fun some => ?_
    have nonempty : ts ≠ [] := by
      rintro rfl
      cases is with
      | nil => exact some rfl
      | cons i is =>
        obtain ⟨t, ht, -⟩ := occurs i List.mem_cons_self
        cases ht
    rw [if_neg (by omega)]
    refine (succeeds_joinGroups workable).bind fun terms grouped => ?_
    refine Succeeds.bind (Build.succeeds_best (P := fun _ => True) ?_ fun best order horder found => ?_) fun best found => ?_
    · exact List.ne_nil_of_mem (self_mem_arrangements is)
    · have arranged := perm_of_mem_arrangements horder
      refine (succeeds_contractInOrder (fun t ht => grouped.workable ht) (grouped.nonempty nonempty) (grouped.length.trans fewFactors)
        (arranged.nodup_iff.1 distinct) (fun i hi => known i (arranged.mem_iff.2 hi))
        fun i hi => (grouped.occurs i).2 ⟨List.not_mem_nil, occurs i (arranged.mem_iff.2 hi)⟩).bind fun p _ => ?_
      cases best with
      | none => exact succeeds_pure ⟨_, rfl, trivial⟩
      | some least =>
        refine succeeds_pure ?_
        split <;> exact ⟨_, rfl, trivial⟩
    · obtain ⟨p, rfl, -⟩ := found
      exact succeeds_pure trivial
  · refine ⟨hr.2.within.fits List.mem_cons_self, hr.2.within.scalar List.mem_cons_self, hr.2.within.free List.mem_cons_self, fun env ρ => ?_⟩
    rw [← hr.2.total, Expr.productAt, List.map_singleton, List.prod_singleton]

theorem workable_matrixEntry {j : Index} (hi : threeIndices.extents i = some 2) (hj : threeIndices.extents j = some 2) :
    Workable threeIndices.extents (matrixEntry i j) := by
  refine ⟨wellFormed_matrixEntry hi hj, rfl, fun hk => ?_, nofun⟩
  rcases mem_freeIndices_matrixEntry.1 hk with rfl | rfl
  · exact ⟨2, hi⟩
  · exact ⟨2, hj⟩

/-- The sum of the entries of a column of the square of a matrix. -/
theorem sumFactorise_square :
    Succeeds threeIndices.extents (sumFactorise [⟨0⟩, ⟨1⟩] [matrixEntry ⟨0⟩ ⟨1⟩, matrixEntry ⟨1⟩ ⟨2⟩]) fun r =>
      r.value entrySums (fun _ => 1) [] = 21 := by
  refine (succeeds_sumFactorise (by simp) (by simp) (by simp) ?_ ?_ ?_).mono fun r hr => ?_
  · simp only [List.mem_cons, List.not_mem_nil, or_false, forall_eq_or_imp, forall_eq]
    exact ⟨⟨2, rfl, by decide⟩, ⟨2, rfl, by decide⟩⟩
  · simp only [List.mem_cons, List.not_mem_nil, or_false, forall_eq_or_imp, forall_eq]
    exact ⟨workable_matrixEntry rfl rfl, workable_matrixEntry rfl rfl⟩
  · simp [Occurs, mem_freeIndices_matrixEntry]
  · have size : Bounds.sizes threeIndices.extents ⟨0⟩ = 2 ∧ Bounds.sizes threeIndices.extents ⟨1⟩ = 2 := ⟨rfl, rfl⟩
    rw [hr.value]
    simp [matrixEntry, entrySums, Valuation.runs, Expr.productAt, bindersOf, Valuation.ranging, size,
      Expr.position, Valuation.set, show List.range 2 = [0, 1] from rfl]
    norm_num

omit [Field K] [Exact K] in
/-- One factor is summed over one of its indices once the cost is known. -/
theorem sumFactorise_single (free : i ∈ t.freeIndices) : sumFactorise [i] [t] = (do
      let r ← sumOver t [i]
      let _ ← pointCount t.freeIndices
      pure r) := by
  have alone (u : Expr K) : joinCheapest product 1 [u] 0 = pure (u, 0) := rfl
  have kept : [t].filter (fun u => decide (i ∈ u.freeIndices)) = [t] := by simp [free]
  have aside : [t].filter (fun u => !decide (i ∈ u.freeIndices)) = [] := by simp [free]
  simp [sumFactorise, joinGroups, groupBy, insertGroup, arrangements, selections, contractInOrder, contractIndex, associate, kept, aside,
    alone]

/-- An index without positions, one of extent two, and one of which the extent is not known. -/
def unevenIndices : Session := { indices := #[⟨none, some 0⟩, ⟨none, some 2⟩, ⟨none, none⟩] }

/-- A sum over no positions is refused, and so is a sum of terms of which the cost is not known. -/
theorem sumFactorise_refused :
    (sumFactorise [⟨0⟩] [(.indexed (.var "u" [some 0]) [.free ⟨0⟩] : Expr ℚ)]).run.run unevenIndices =
        (.error (.requirement ""), unevenIndices) ∧
      (sumFactorise [⟨1⟩] [(.delta (.free ⟨1⟩) (.free ⟨2⟩) : Expr ℚ)]).run.run unevenIndices =
        (.error .unsupported, unevenIndices) := by
  constructor
  · rw [sumFactorise_single (by simp [Expr.mem_freeIndices_indexed])]
    rfl
  · have free : (Expr.delta (.free ⟨1⟩) (.free ⟨2⟩) : Expr ℚ).freeIndices = [⟨1⟩, ⟨2⟩] := by
      simp [Expr.freeIndices, Indices.ofList, Indices.union, Indices.insert, Slot.index?]
    rw [sumFactorise_single (by simp [free]), free]
    unfold Build.sumOver Build.indexSum
    simp only [free]
    rfl

end Rewrite

end FormCompiler
