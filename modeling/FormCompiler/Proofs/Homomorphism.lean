import FormCompiler.Proofs.Arrival
import FormCompiler.Proofs.Factorisation
import FormCompiler.Proofs.Monomials

/-!
# Sums of monomials as numbers

The value of a sum of monomials. Adding monomials adds their values, sums add up, and products multiply, whatever the values
are; all of these return. Operands of a product may be summed over the same index. It is told apart by another name in the
later operand, which is possible if the index has positions and some factor depends on it.
-/

namespace FormCompiler

open FormCompiler.Expr List Build

/-- Indices that do not repeat are as many as a set. -/
theorem Indices.perm_ofList {is : List Index} (h : is.Nodup) : (Indices.ofList is).Perm is :=
  (perm_ext_iff_of_nodup (Indices.Sorted.union List.Pairwise.nil is).nodup h).2 fun _ => Indices.mem_ofList

/-! ## Monomials that have a value -/

namespace Monomial

open Rewrite (Plain Merged Named Given changes)

variable {K : Type} [Scalar K]

/-- Some factor depends on the index, and it is not summed over. -/
def Outer (m : Monomial K) (i : Index) : Prop := i ∉ m.sumIndices ∧ ∃ t ∈ m.parts, i ∈ t.freeIndices

/-- A product of scalars that is summed over different indices of known extents. -/
structure Regular (s : Session) (m : Monomial K) : Prop where
  distinct : m.sumIndices.Nodup
  known {i : Index} : i ∈ m.sumIndices → ∃ n, s.extents i = some n
  within : Within s.Has s.extents m.parts
  table {x : Tensor K} {stamp : UInt64} : m.rest = .literal x stamp → x.entries.size = 1

/-- The index may get another name: it has positions, and some factor depends on it. -/
def Movable (s : Session) (m : Monomial K) (i : Index) : Prop := s.Knows i ∧ ∃ t ∈ m.parts, i ∈ t.freeIndices

/-- No index that one of the monomials is summed over is free in the other one. An index that both are summed over may get
another name in the second. -/
structure Apart (s : Session) (m n : Monomial K) : Prop where
  first {i : Index} : i ∈ m.sumIndices → ¬ n.Outer i
  second {i : Index} : i ∈ n.sumIndices → ¬ m.Outer i
  shared {i : Index} : i ∈ m.sumIndices → i ∈ n.sumIndices → n.Movable s i

variable {F V : Index → Prop} {s s' : Session} {m n : Monomial K} {c : Expr K}

theorem Regular.grows (h : m.Regular s) (grows : s.Grows s') : m.Regular s' := by
  refine ⟨h.distinct, fun hi => ?_, (h.within.mono fun i hi => grows.has hi).grows grows, h.table⟩
  obtain ⟨n, known⟩ := h.known hi
  exact ⟨n, grows.extent known⟩

omit [Scalar K] in
theorem Movable.grows {i : Index} (h : m.Movable s i) (grows : s.Grows s') : m.Movable s' i := ⟨grows.knows h.1, h.2⟩

omit [Scalar K] in
theorem Apart.grows (h : m.Apart s n) (grows : s.Grows s') : m.Apart s' n :=
  ⟨h.first, h.second, fun hm hn => (h.shared hm hn).grows grows⟩

theorem Regular.plain (h : m.Regular s) : Plain s.extents m.rest :=
  ⟨h.within.fits (mem_append_right _ mem_cons_self), h.within.scalar (mem_append_right _ mem_cons_self), h.table⟩

theorem Regular.has_rest (h : m.Regular s) {i : Index} (hi : i ∈ m.rest.freeIndices) : s.Has i :=
  h.within.free (mem_append_right _ mem_cons_self) hi

/-- A monomial with another rest. -/
theorem Regular.withRest (h : m.Regular s) (plain : Plain s.extents c) (has : ∀ i ∈ c.freeIndices, s.Has i) :
    Regular s { m with rest := c } := by
  have atomics : Within s.Has s.extents m.atomics := ⟨fun ht => h.within.fits (mem_append_left _ ht),
    fun ht => h.within.scalar (mem_append_left _ ht), fun ht => h.within.free (mem_append_left _ ht)⟩
  have rest : Within s.Has s.extents [c] := by
    refine ⟨fun ht => ?_, fun ht => ?_, fun ht hi => ?_⟩ <;> rw [mem_singleton.1 ht] at *
    · exact plain.fits
    · exact plain.scalar
    · exact has _ hi
  exact ⟨h.distinct, h.known, atomics.append rest, plain.table⟩

variable [Field K] {env : Environment K} {extent : Index → Extent} {ρ : Valuation}

theorem Regular.value_grows (h : m.Regular s) (grows : s.Grows s') (env : Environment K) (ρ : Valuation) :
    m.value env s'.extents ρ = m.value env s.extents ρ := by
  rw [value, value, Valuation.runs_grows grows fun i hi => h.known hi]

theorem value_withRest (h : ∀ σ, c.value env σ [] = m.rest.value env σ []) :
    value env extent ρ { m with rest := c } = m.value env extent ρ := by
  simp only [value, h]

/-- Similar monomials are added in the rest. -/
theorem value_merge [Exact K] (similar : n.similar m = true) (h : ∀ σ, c.value env σ [] = n.rest.value env σ [] + m.rest.value env σ []) :
    value env extent ρ { n with rest := c } = n.value env extent ρ + m.value env extent ρ := by
  obtain ⟨indices, atomics⟩ := mem_iff_of_similar similar
  have other : m.value env extent ρ = ((ρ.runs extent n.sumIndices).map fun σ =>
      (n.atomics.map fun a => a.value env σ []).prod * m.rest.value env σ []).sum := by
    rw [value, ((Valuation.runs_perm fun i => (indices i).symm).map _).sum_eq]
    exact congrArg List.sum (map_congr_left fun σ _ => by rw [(atomics.map _).prod_eq])
  rw [other, value, value, ← sum_map_add]
  exact congrArg List.sum (map_congr_left fun σ _ => by rw [h, mul_add])

/-! ### Monomials in a product -/

/-- A monomial among others: its factors depend on indices that are free in the product, and on those it is summed over, none
of which is free in the product. -/
structure Sits (F : Index → Prop) (s : Session) (m : Monomial K) : Prop where
  regular : m.Regular s
  own {i : Index} : i ∈ m.sumIndices → ¬ F i
  free {t : Expr K} {i : Index} : t ∈ m.parts → i ∈ t.freeIndices → F i ∨ i ∈ m.sumIndices

omit [Field K] in
theorem Sits.grows (h : Sits F s m) (grows : s.Grows s') : Sits F s' m := ⟨h.regular.grows grows, h.own, h.free⟩

omit [Field K] in
theorem Sits.within (h : Sits F s m) : Within (fun i => F i ∨ i ∈ m.sumIndices) s.extents m.parts :=
  ⟨h.regular.within.fits, h.regular.within.scalar, h.free⟩

omit [Field K] in
/-- Monomials that no sum ties together sit in their product. -/
theorem sits_of_pairwise {ms : List (Monomial K)} (regular : ∀ m ∈ ms, m.Regular s) (apart : ms.Pairwise (Apart s)) :
    ∀ m ∈ ms, Sits (fun i => ∃ n ∈ ms, n.Outer i) s m := by
  -- no index that one is summed over is free in another, nor in itself
  have outer : ∀ ⦃m⦄, m ∈ ms → ∀ ⦃n⦄, n ∈ ms → (∀ i ∈ m.sumIndices, ¬ n.Outer i) ∧ ∀ i ∈ n.sumIndices, ¬ m.Outer i := by
    have symm : Std.Symm fun m n : Monomial K => (∀ i ∈ m.sumIndices, ¬ n.Outer i) ∧ ∀ i ∈ n.sumIndices, ¬ m.Outer i :=
      ⟨fun _ _ h => ⟨h.2, h.1⟩⟩
    exact List.Pairwise.forall_of_forall (fun m _ => ⟨fun i hi free => free.1 hi, fun i hi free => free.1 hi⟩)
      (apart.imp fun h => ⟨fun i => h.first, fun i => h.second⟩)
  intro m hm
  refine ⟨regular m hm, fun {i} hi => ?_, fun {t i} ht hi => ?_⟩
  · rintro ⟨n, hn, free⟩
    exact (outer hm hn).1 i hi free
  · by_cases own : i ∈ m.sumIndices
    · exact .inr own
    · exact .inl ⟨m, hm, own, t, ht, hi⟩

/-- A monomial under the names that were given to its indices. -/
theorem Sits.rename {inUse js : List Index} {size : Index → Int} {as : List (Expr K)} {r : Expr K} (h : Sits F s m)
    (covers : ∀ i, F i → V i) (given : Given V inUse m.sumIndices js size) (has : ∀ j ∈ js, s.Has j)
    (used : ∀ p ∈ changes m.sumIndices js, ∃ t ∈ m.parts, p.1 ∈ t.freeIndices)
    (atomics : Forall₂ (Named (changes m.sumIndices js) s) m.atomics as) (rest : Named (changes m.sumIndices js) s m.rest r) :
    Sits F s ⟨js, as, r⟩ ∧ ∀ (env : Environment K) (ρ : Valuation), value env s.extents ρ ⟨js, as, r⟩ = m.value env s.extents ρ := by
  have taken := given.taken
  have once := h.regular.distinct
  have named : Forall₂ (Named (changes m.sumIndices js) s) m.parts (as ++ [r]) := rel_append atomics (.cons rest .nil)
  -- an index that has another name occurs in a factor, so that the name has got its extent
  have extent : ∀ p ∈ m.sumIndices.zip js, s.extents p.2 = s.extents p.1 := by
    intro p hp
    by_cases same : p.1 = p.2
    · rw [same]
    · have mem : p ∈ changes m.sumIndices js := mem_filter.2 ⟨hp, by simpa using same⟩
      obtain ⟨t, ht, free⟩ := used p mem
      obtain ⟨t', -, here⟩ := exists_of_forall₂ named ht
      exact (here.extent mem free).2
  have own : ∀ {j}, j ∈ js → ¬ F j := by
    intro j hj
    obtain ⟨i, hp, rfl | hidden⟩ := taken.origin hj
    · exact h.own (of_mem_zip hp).1
    · exact fun free => hidden (covers j free)
  have free : ∀ {t i}, t ∈ as ++ [r] → i ∈ t.freeIndices → F i ∧ s.Has i ∨ i ∈ js := by
    intro t i ht hi
    obtain ⟨t', ht', here⟩ := exists_of_forall₂ named.flip ht
    obtain ⟨k, hk, rfl⟩ := here.free.1 hi
    by_cases mem : k ∈ m.sumIndices
    · exact .inr (taken.name once mem).1
    · rw [Rewrite.renamed_changes_of_not_mem mem]
      exact .inl ⟨(h.free ht' hk).resolve_right mem, h.regular.within.free ht' hk⟩
  refine ⟨⟨⟨taken.distinct, fun {j} hj => ?_, ⟨fun ht => ?_, fun ht => ?_, fun ht hi => ?_⟩, fun eq => ?_⟩, own, fun ht hi => ?_⟩,
    fun env ρ => ?_⟩
  · obtain ⟨i, hp, -⟩ := taken.origin hj
    rw [extent _ hp]
    exact h.regular.known (of_mem_zip hp).1
  · obtain ⟨t', -, here⟩ := exists_of_forall₂ named.flip ht
    exact here.fits
  · obtain ⟨t', -, here⟩ := exists_of_forall₂ named.flip ht
    exact here.shape
  · exact (free ht hi).elim And.right (has _)
  · exact h.regular.table (rest.literal eq)
  · exact (free ht hi).imp And.left id
  · rw [value_eq, value_eq]
    refine h.within.sum_renamed ρ once taken.distinct taken.own.length_eq (fun p hp => Rewrite.renamed_changes once hp)
      (fun i hi => Rewrite.renamed_changes_of_not_mem hi) (fun p hp => ?_) (fun j hj free => absurd free (own hj))
      (named.imp fun _ _ here => here.value env)
    rw [Bounds.sizes, Bounds.sizes, extent p hp]

/-- Monomials that are summed over different indices multiply. -/
theorem Sits.mul (hm : Sits F s m) (hn : Sits F s n) (disjoint : ∀ i ∈ m.sumIndices, i ∉ n.sumIndices)
    (merged : Merged s.extents .product n.rest m.rest c) :
    Sits F s ⟨m.sumIndices ++ n.sumIndices, m.atomics ++ n.atomics, c⟩ ∧ ∀ (env : Environment K) (ρ : Valuation),
      value env s.extents ρ ⟨m.sumIndices ++ n.sumIndices, m.atomics ++ n.atomics, c⟩ =
        m.value env s.extents ρ * n.value env s.extents ρ := by
  have cases : ∀ {t}, t ∈ m.atomics ++ n.atomics ++ [c] → t ∈ m.parts ∨ t ∈ n.parts ∨ t = c := by
    intro t ht
    simp only [mem_append, mem_singleton, parts] at ht ⊢
    tauto
  have free : ∀ {i}, i ∈ c.freeIndices → (∃ t ∈ m.parts, i ∈ t.freeIndices) ∨ ∃ t ∈ n.parts, i ∈ t.freeIndices := fun hi =>
    (merged.free hi).symm.imp (fun hi => ⟨m.rest, by simp [parts], hi⟩) fun hi => ⟨n.rest, by simp [parts], hi⟩
  refine ⟨⟨⟨?_, fun hi => ?_, ⟨fun ht => ?_, fun ht => ?_, fun ht hi => ?_⟩, merged.plain.table⟩, fun hi => ?_, fun {t i} ht hi => ?_⟩,
    fun env ρ => ?_⟩
  · exact nodup_append.2 ⟨hm.regular.distinct, hn.regular.distinct, fun i hi j hj same => disjoint i hi (same ▸ hj)⟩
  · exact (mem_append.1 hi).elim hm.regular.known hn.regular.known
  · rcases cases ht with ht | ht | rfl
    · exact hm.regular.within.fits ht
    · exact hn.regular.within.fits ht
    · exact merged.plain.fits
  · rcases cases ht with ht | ht | rfl
    · exact hm.regular.within.scalar ht
    · exact hn.regular.within.scalar ht
    · exact merged.plain.scalar
  · rcases cases ht with ht | ht | rfl
    · exact hm.regular.within.free ht hi
    · exact hn.regular.within.free ht hi
    · rcases free hi with ⟨t, ht, hi⟩ | ⟨t, ht, hi⟩
      · exact hm.regular.within.free ht hi
      · exact hn.regular.within.free ht hi
  · exact (mem_append.1 hi).elim hm.own hn.own
  · have first : ∀ {t}, t ∈ m.parts → i ∈ t.freeIndices → F i ∨ i ∈ m.sumIndices ++ n.sumIndices := fun ht hi =>
      (hm.free ht hi).imp id (mem_append_left _)
    have second : ∀ {t}, t ∈ n.parts → i ∈ t.freeIndices → F i ∨ i ∈ m.sumIndices ++ n.sumIndices := fun ht hi =>
      (hn.free ht hi).imp id (mem_append_right _)
    rcases cases ht with ht | ht | rfl
    · exact first ht hi
    · exact second ht hi
    · rcases free hi with ⟨t, ht, hi⟩ | ⟨t, ht, hi⟩
      · exact first ht hi
      · exact second ht hi
  · rw [value_eq _ _ _ m, value_eq _ _ _ n, Valuation.sum_runs_mul disjoint, value]
    · refine congrArg List.sum (map_congr_left fun σ _ => ?_)
      simp only [productAt, parts, map_append, prod_append, map_singleton, prod_singleton, merged.value,
        BinaryOp.apply]
      ring
    · refine fun σ τ same => hm.within.productAt_congr fun i hi => same i fun hj => ?_
      exact hi.elim (hn.own hj) fun hi => disjoint i hi hj
    · refine fun σ τ same => hn.within.productAt_congr fun i hi => same i fun hj => ?_
      exact hi.elim (hm.own hj) (disjoint i hj)

end Monomial

/-! ## Sums -/

namespace MonomialSum

open Rewrite (Reserved Visible Renamer RenameMap Sized Issued takeName applyNames Named)

variable {K : Type} [Scalar K] [Field K]

/-- The sum of the values of the monomials. -/
def value (env : Environment K) (extent : Index → Extent) (ρ : Valuation) (t : MonomialSum K) : K :=
  (t.monomials.map (Monomial.value env extent ρ)).sum

/-- All the monomials have a value. -/
def Regular (s : Session) (t : MonomialSum K) : Prop := ∀ m ∈ t.monomials, m.Regular s

/-- No monomial of one operand is tied to one of the other by an index. -/
def Apart (s : Session) (t u : MonomialSum K) : Prop := ∀ m ∈ t.monomials, ∀ n ∈ u.monomials, m.Apart s n

variable {F V : Index → Prop} {s s' : Session} {m : Monomial K} {ms ns : List (Monomial K)} {size : Index → Int} {r : Renamer}

theorem Regular.value_grows {t : MonomialSum K} (h : t.Regular s) (grows : s.Grows s') (env : Environment K) (ρ : Valuation) :
    t.value env s'.extents ρ = t.value env s.extents ρ :=
  congrArg List.sum (map_congr_left fun m hm => (h m hm).value_grows grows env ρ)

variable [Exact K]

/-- Adding a monomial adds its value. -/
theorem succeeds_addTo (hm : m.Regular s) (hms : ∀ n ∈ ms, n.Regular s) :
    Succeeds s.extents (addTo m ms) fun rs => (∀ r ∈ rs, r.Regular s) ∧ ∀ (env : Environment K) (ρ : Valuation),
      (rs.map (Monomial.value env s.extents ρ)).sum = (ms.map (Monomial.value env s.extents ρ)).sum + m.value env s.extents ρ := by
  induction ms with
  | nil =>
    have zero : Rewrite.Plain s.extents (Build.zero : Expr K) := ⟨wellFormed_leaf trivial rfl, rfl, by rintro _ _ ⟨⟩⟩
    refine (Rewrite.succeeds_merge_sum zero hm.plain).bind fun c hc => succeeds_pure ⟨fun r hr => ?_, fun env ρ => ?_⟩
    · rw [mem_singleton.1 hr]
      exact hm.withRest hc.plain fun i hi => hm.has_rest ((hc.free hi).resolve_left (by simp [Build.zero, freeIndices]))
    · have same : ∀ σ, c.value env σ [] = m.rest.value env σ [] := fun σ => by
        rw [hc.value, Build.zero, value_zero, BinaryOp.apply, zero_add]
      simp [Monomial.value_withRest same]
  | cons n ms ih =>
    obtain ⟨hn, hms⟩ := forall_mem_cons.1 hms
    rw [addTo]
    refine succeeds_ite (fun similar => ?_) fun _ => ?_
    · refine (Rewrite.succeeds_merge_sum hn.plain hm.plain).bind fun c hc => succeeds_pure ⟨?_, fun env ρ => ?_⟩
      · exact forall_mem_cons.2 ⟨hn.withRest hc.plain fun i hi => (hc.free hi).elim hn.has_rest hm.has_rest, hms⟩
      · have merged : Monomial.value env s.extents ρ { n with rest := c } = _ := Monomial.value_merge similar fun σ => hc.value env σ
        simp only [map_cons, sum_cons, merged]
        ring
    · refine (ih hms).bind fun rs added => succeeds_pure ⟨forall_mem_cons.2 ⟨hn, added.1⟩, fun env ρ => ?_⟩
      simp only [map_cons, sum_cons, added.2, add_assoc]

/-- Monomials are added one after the other. -/
theorem succeeds_addAll (hms : ∀ m ∈ ms, m.Regular s) (hns : ∀ n ∈ ns, n.Regular s) :
    Succeeds s.extents (ms.foldlM (fun acc m => addTo m acc) ns) fun rs => (∀ r ∈ rs, r.Regular s) ∧
      ∀ (env : Environment K) (ρ : Valuation), (rs.map (Monomial.value env s.extents ρ)).sum =
        (ns.map (Monomial.value env s.extents ρ)).sum + (ms.map (Monomial.value env s.extents ρ)).sum := by
  induction ms generalizing ns with
  | nil => exact succeeds_pure ⟨hns, fun env ρ => by simp⟩
  | cons m ms ih =>
    obtain ⟨hm, hms⟩ := forall_mem_cons.1 hms
    rw [foldlM_cons]
    refine (succeeds_addTo hm hns).bind fun rs added => (ih hms added.1).mono fun rs' rest => ⟨rest.1, fun env ρ => ?_⟩
    rw [rest.2, added.2, map_cons, sum_cons, add_assoc]

variable {acc : MonomialSum K} {args : List (MonomialSum K)} {n : Nat} {i : Index}

theorem succeeds_add (hm : m.Regular s) (hacc : acc.Regular s) :
    Succeeds s.extents (acc.add m) fun r => r.Regular s ∧ ∀ (env : Environment K) (ρ : Valuation),
      r.value env s.extents ρ = acc.value env s.extents ρ + m.value env s.extents ρ := by
  refine (succeeds_require ?_).bind fun _ _ => (succeeds_addTo hm hacc).bind fun _ added => succeeds_pure added
  rw [(Indices.perm_ofList hm.distinct).length_eq]
  exact beq_self_eq_true _

/-- A sum to which monomials are added one after the other. -/
theorem arrives_adds (hms : ∀ m ∈ ms, m.Regular s) (hacc : acc.Regular s) :
    Arrives s (ms.foldlM add acc) fun t s' => t.Regular s' ∧ ∀ (env : Environment K) (ρ : Valuation),
      t.value env s'.extents ρ = acc.value env s.extents ρ + (ms.map (Monomial.value env s.extents ρ)).sum := by
  refine arrives_foldlM (I := fun done (t : MonomialSum K) s' => t.Regular s' ∧ ∀ (env : Environment K) (ρ : Valuation),
    t.value env s'.extents ρ = acc.value env s.extents ρ + (done.map (Monomial.value env s.extents ρ)).sum)
    ⟨hacc, fun env ρ => by simp⟩ fun done m rest eq t s₁ grows inv => ?_
  have hm := hms m (by simp [eq])
  refine (succeeds_add (hm.grows grows) inv.1).arrives.mono fun t' s₂ grows' added => ?_
  obtain ⟨extents, regular, value⟩ := added
  refine ⟨fun n hn => (regular n hn).grows grows', fun env ρ => ?_⟩
  rw [extents, value, inv.2, hm.value_grows grows, map_append, sum_append, map_singleton, sum_singleton, add_assoc]

/-- The sum of sums. -/
theorem succeeds_sum (regular : ∀ arg ∈ args, arg.Regular s) :
    Succeeds s.extents (sum args) fun r => r.Regular s ∧ ∀ (env : Environment K) (ρ : Valuation),
      r.value env s.extents ρ = (args.map (value env s.extents ρ)).sum := by
  suffices ∀ acc : List (Monomial K), (∀ m ∈ acc, m.Regular s) →
      Succeeds s.extents (args.foldlM (fun acc arg => arg.monomials.foldlM (fun acc m => addTo m acc) acc) acc) fun rs =>
        (∀ r ∈ rs, r.Regular s) ∧ ∀ (env : Environment K) (ρ : Valuation), (rs.map (Monomial.value env s.extents ρ)).sum =
          (acc.map (Monomial.value env s.extents ρ)).sum + (args.map (value env s.extents ρ)).sum by
    refine (this [] (by simp)).bind fun rs made => succeeds_pure ⟨made.1, fun env ρ => ?_⟩
    have total := made.2 env ρ
    rwa [map_nil, sum_nil, zero_add] at total
  induction args with
  | nil => exact fun acc hacc => succeeds_pure ⟨hacc, fun env ρ => by simp⟩
  | cons arg args ih =>
    intro acc hacc
    obtain ⟨here, later⟩ := forall_mem_cons.1 regular
    rw [foldlM_cons]
    refine (succeeds_addAll here hacc).bind fun rs added => (ih later rs added.1).mono fun rs' rest => ⟨rest.1, fun env ρ => ?_⟩
    rw [rest.2, added.2, map_cons, sum_cons, add_assoc]
    rfl

/-! ## Products -/

/-- A factor multiplies the value of what there is. The indices that are in use are told apart from its own, where these may
get other names. -/
theorem arrives_multiplyStep {acc : Monomial K} (reserved : Reserved V r.names s) (visible : Visible V s)
    (covers : ∀ i, F i → V i) (sized : Sized size r.names s) (inUse : r.inUse = acc.sumIndices) (hacc : acc.Sits F s) (hm : m.Sits F s)
    (movable : ∀ i ∈ m.sumIndices, i ∈ acc.sumIndices ∨ ¬ V i → m.Movable s i) :
    Arrives s ((multiplyStep acc m).run r) fun p s' => (p.1.Sits F s' ∧ p.2.inUse = p.1.sumIndices) ∧
      (Reserved V p.2.names s' ∧ ∃ size', Sized size' p.2.names s') ∧
      (∀ i ∈ p.1.sumIndices, i ∈ acc.sumIndices ∨ i ∈ m.sumIndices ∨ ¬ V i) ∧
      ∀ (env : Environment K) (ρ : Valuation),
        p.1.value env s'.extents ρ = acc.value env s.extents ρ * m.value env s.extents ρ := by
  rw [run_multiplyStep]
  have has : ∀ i ∈ m.sumIndices, s.Has i := fun i hi => by
    obtain ⟨n, known⟩ := hm.regular.known hi
    exact Session.has_of_extent known
  refine (Rewrite.arrives_takeNames reserved visible has).bind fun p s₁ grows₁ found => ?_
  obtain ⟨⟨⟨js, names⟩, r'⟩, rfl⟩ : ∃ q, q = p := ⟨p, rfl⟩
  obtain ⟨⟨-, hasName, eq⟩, ⟨inUse', steady⟩, sizes⟩ := found
  obtain ⟨size', sized', given⟩ := sizes hm.regular.distinct size sized
  simp only at eq hasName inUse' steady sized' given ⊢
  subst eq
  rw [inUse] at given inUse'
  have moves : ∀ p ∈ Rewrite.changes m.sumIndices js, m.Movable s p.1 := fun p hp =>
    movable p.1 (of_mem_zip (Rewrite.mem_of_mem_changes hp)).1 (given.moved hp)
  have once : ((Rewrite.changes m.sumIndices js).map Prod.fst).Nodup := Rewrite.nodup_changes hm.regular.distinct
  -- the factors are put under the names one after the other
  have part : ∀ t ∈ m.parts, ∀ s', s₁.Grows s' → Sized size' r'.names s' → Arrives s' (applyNames (Rewrite.changes m.sumIndices js) t)
      fun t' s'' => Sized size' r'.names s'' ∧ Named (Rewrite.changes m.sumIndices js) s'' t t' := by
    intro t ht s' grows sized
    have grown := grows₁.trans grows
    refine Rewrite.arrives_named (grown.wellFormed (hm.regular.within.fits ht)) (hm.regular.within.scalar ht) once sized
      (fun p hp => given.sizes hp) fun p hp _ => ⟨grown.knows (moves p hp).1, grows.has (hasName _ ?_)⟩
    exact (of_mem_zip (Rewrite.mem_of_mem_changes hp)).2
  refine (arrives_mapM (S := fun a r s' => Named (Rewrite.changes m.sumIndices js) s' a r) (fun grows here => here.grows grows)
    sized' fun a ha s' grows sized => part a (mem_append_left _ ha) s' grows sized).bind fun as s₂ grows₂ atomics => ?_
  refine (part m.rest (mem_append_right _ mem_cons_self) s₂ grows₂ atomics.1).bind fun c s₃ grows₃ rest => ?_
  have grown := (grows₁.trans grows₂).trans grows₃
  obtain ⟨renamed, sameValue⟩ := (hm.grows grown).rename covers given (fun j hj => (grows₂.trans grows₃).has (hasName j hj))
    (fun p hp => (moves p hp).2) (atomics.2.imp fun _ _ here => here.grows grows₃) rest.2
  refine (Rewrite.succeeds_merge_product renamed.regular.plain (hacc.grows grown).regular.plain).arrives.bind
    fun d s₄ grows₄ made => arrives_pure ?_
  obtain ⟨extents, merged⟩ := made
  rw [← extents] at merged
  obtain ⟨fits, product⟩ := ((hacc.grows grown).grows grows₄).mul (renamed.grows grows₄)
    (fun i hi mem => given.taken.unused mem hi) merged
  have tail := (grows₂.trans grows₃).trans grows₄
  refine ⟨⟨fits, inUse'⟩, ⟨steady.reserved.grows tail, size', ?_, sized'.name⟩, fun i hi => ?_, fun env ρ => ?_⟩
  · exact fun known => rest.1.extent (extents ▸ known)
  · rcases mem_append.1 hi with hi | hi
    · exact .inl hi
    · obtain ⟨k, hp, rfl | hidden⟩ := given.taken.origin hi
      · exact .inr (.inl (of_mem_zip hp).1)
      · exact .inr (.inr hidden)
  · rw [product, hacc.regular.value_grows (grown.trans grows₄), extents, sameValue, hm.regular.value_grows grown]

omit [Field K] [Exact K] in
theorem regular_one : (⟨[], [], Build.one⟩ : Monomial K).Regular s := by
  refine ⟨.nil, by simp, ⟨fun ht => ?_, fun ht => ?_, fun ht hi => ?_⟩, by rintro _ _ ⟨⟩; rfl⟩ <;> rw [mem_singleton.1 ht] at *
  · exact wellFormed_leaf trivial rfl
  · rfl
  · simp [Build.one, freeIndices] at hi

/-- The product of monomials has the product of their values. -/
theorem arrives_multiply {names : Rewrite.RenameMap} (reserved : Reserved V names s) (visible : Visible V s)
    (sized : Sized size names s) (regular : ∀ m ∈ ms, m.Regular s) (apart : ms.Pairwise (Monomial.Apart s))
    (outer : ∀ m ∈ ms, ∀ i, m.Outer i → V i) (movable : ∀ m ∈ ms, ∀ i ∈ m.sumIndices, ¬ V i → m.Movable s i) :
    Arrives s ((multiply ms).run { names }) fun p s' => p.1.Regular s' ∧ (Reserved V p.2.names s' ∧ ∃ size', Sized size' p.2.names s') ∧
      ∀ (env : Environment K) (ρ : Valuation), p.1.value env s'.extents ρ = (ms.map (Monomial.value env s.extents ρ)).prod := by
  obtain ⟨F, sits, covers⟩ : ∃ F : Index → Prop, (∀ m ∈ ms, m.Sits F s) ∧ ∀ i, F i → V i := by
    refine ⟨_, Monomial.sits_of_pairwise regular apart, ?_⟩
    rintro i ⟨m, hm, free⟩
    exact outer m hm i free
  suffices ∀ (acc : Monomial K) (r : Renamer) (s : Session) (size : Index → Int), Reserved V r.names s → Visible V s →
      Sized size r.names s → (∀ m ∈ ms, m.Sits F s) → ms.Pairwise (Monomial.Apart s) → r.inUse = acc.sumIndices → acc.Sits F s →
      (∀ m ∈ ms, ∀ i ∈ m.sumIndices, i ∈ acc.sumIndices ∨ ¬ V i → m.Movable s i) →
      Arrives s ((ms.foldlM multiplyStep acc).run r) fun p s' => p.1.Regular s' ∧
        (Reserved V p.2.names s' ∧ ∃ size', Sized size' p.2.names s') ∧ ∀ (env : Environment K) (ρ : Valuation),
          p.1.value env s'.extents ρ = acc.value env s.extents ρ * (ms.map (Monomial.value env s.extents ρ)).prod by
    have one : (⟨[], [], Build.one⟩ : Monomial K).Sits F s :=
      ⟨regular_one, by simp, fun ht hi => by rw [mem_singleton.1 ht] at hi; simp [Build.one, freeIndices] at hi⟩
    rw [multiply_eq]
    refine (this _ { names } s size reserved visible sized sits apart rfl one fun m hm i hi out => ?_).mono
      fun p s' _ made => ⟨made.1, made.2.1, fun env ρ => ?_⟩
    · exact movable m hm i hi (out.resolve_left (by simp))
    · have start : Monomial.value env s.extents ρ (⟨[], [], Build.one⟩ : Monomial K) = 1 := by
        simp [Monomial.value, Valuation.runs_nil, value_one]
      rw [made.2.2, start, one_mul]
  clear sits regular apart outer movable
  induction ms with
  | nil =>
    intro acc r s size reserved _ sized _ _ _ hacc _
    exact arrives_pure ⟨hacc.regular, ⟨reserved, size, sized⟩, fun env ρ => by simp⟩
  | cons m ms ih =>
    intro acc r s size reserved visible sized sits apart inUse hacc movable
    obtain ⟨hm, hms⟩ := forall_mem_cons.1 sits
    obtain ⟨first, apart⟩ := pairwise_cons.1 apart
    obtain ⟨now, later⟩ := forall_mem_cons.1 movable
    rw [foldlM_cons, StateT.run_bind]
    refine (arrives_multiplyStep reserved visible covers sized inUse hacc hm now).bind fun p s₁ grows step => ?_
    obtain ⟨⟨here, inUse'⟩, ⟨reserved', size', sized'⟩, own, value⟩ := step
    refine (ih p.1 p.2 s₁ size' reserved' (visible.grows grows) sized' (fun n hn => (hms n hn).grows grows)
      (apart.imp fun h => h.grows grows) inUse' here fun n hn i hi clash => ?_).mono fun q s₂ _ rest => ?_
    -- an index that is in use now was in use before, or is one of this factor, or a name
    · refine Monomial.Movable.grows ?_ grows
      rcases clash with mem | hidden
      · rcases own i mem with mem | mem | hidden
        · exact later n hn i hi (.inl mem)
        · exact (first n hn).shared mem hi
        · exact later n hn i hi (.inr hidden)
      · exact later n hn i hi (.inr hidden)
    · refine ⟨rest.1, rest.2.1, fun env ρ => ?_⟩
      have same : ms.map (Monomial.value env s₁.extents ρ) = ms.map (Monomial.value env s.extents ρ) :=
        map_congr_left fun n hn => (hms n hn).regular.value_grows grows env ρ
      rw [rest.2.2, value, same, map_cons, prod_cons, mul_assoc]

omit [Scalar K] [Field K] [Exact K] in
theorem pairwise_of_mem_choices {α : Type} {R : α → α → Prop} {options : List (List α)}
    (h : options.Pairwise fun as bs => ∀ a ∈ as, ∀ b ∈ bs, R a b) {c : List α} (hc : c ∈ choices options) : c.Pairwise R := by
  induction options generalizing c with
  | nil =>
    rw [mem_singleton.1 hc]
    exact .nil
  | cons l options ih =>
    obtain ⟨first, rest⟩ := pairwise_cons.1 h
    obtain ⟨a, ha, hc⟩ := mem_flatMap.1 hc
    obtain ⟨d, hd, rfl⟩ := mem_map.1 hc
    refine pairwise_cons.2 ⟨fun b hb => ?_, ih rest hd⟩
    obtain ⟨l', hl', hb⟩ := mem_of_mem_choices hd hb
    exact first l' hl' a ha b hb

/-- The product of sums has the product of their values, and names are given as before. -/
theorem arrives_product {names : RenameMap} (regular : ∀ arg ∈ args, arg.Regular s)
    (issued : Issued names s) (apart : args.Pairwise (Apart s))
    (named : ∀ arg ∈ args, ∀ m ∈ arg.monomials, ∀ p ∈ names, ¬ m.Outer p.2 ∧ (p.2 ∈ m.sumIndices → m.Movable s p.2)) :
    Arrives s (product args names) fun p s' => p.1.Regular s' ∧ Issued p.2 s' ∧ ∀ (env : Environment K) (ρ : Valuation),
      p.1.value env s'.extents ρ = (args.map (value env s.extents ρ)).prod := by
  obtain ⟨size, sized⟩ := issued.alike
  have reserved := issued.reserved
  have visible : Visible (fun i => s.Has i ∧ ∀ p ∈ names, p.2 ≠ i) s := fun i seen => seen.1
  generalize hV : (fun i => s.Has i ∧ ∀ p ∈ names, p.2 ≠ i) = V at reserved visible
  refine (arrives_foldlM (I := fun done (p : MonomialSum K × RenameMap) s' => p.1.Regular s' ∧
    (Reserved V p.2 s' ∧ ∃ size', Sized size' p.2 s') ∧ ∀ (env : Environment K) (ρ : Valuation), p.1.value env s'.extents ρ =
      (done.map fun c => (c.map (Monomial.value env s.extents ρ)).prod).sum)
    ⟨by simp [Regular], ⟨reserved, size, sized⟩, fun env ρ => rfl⟩ ?_).mono fun p s' _ all => ?_
  · rintro done c rest eq ⟨acc, names'⟩ s₁ grows₁ ⟨hacc, ⟨reserved₁, size₁, sized₁⟩, value₁⟩
    have mem : c ∈ choices (args.map monomials) := by simp [eq]
    have hc : ∀ m ∈ c, m.Regular s := fun m hm => by
      obtain ⟨arg, harg, hm⟩ := exists_operand mem hm
      exact regular arg harg m hm
    have pairs : c.Pairwise (Monomial.Apart s) := pairwise_of_mem_choices (pairwise_map.2 apart) mem
    refine (arrives_multiply reserved₁ (visible.grows grows₁) sized₁ (fun m hm => (hc m hm).grows grows₁)
      (pairs.imp fun h => h.grows grows₁) (fun m hm i outer => ?_) fun m hm i hi hidden => ?_).bind fun p s₂ grows₂ made => ?_
    -- a free index is in the session, and is no name
    · obtain ⟨arg, harg, hm'⟩ := exists_operand mem hm
      obtain ⟨t, ht, free⟩ := outer.2
      subst hV
      exact ⟨(hc m hm).within.free ht free, fun p hp same => (named arg harg m hm' p hp).1 (same ▸ outer)⟩
    -- an index that is summed over is in the session, so that it can only be hidden as a name
    · obtain ⟨arg, harg, hm'⟩ := exists_operand mem hm
      obtain ⟨n, known⟩ := (hc m hm).known hi
      subst hV
      obtain ⟨p, hp, rfl⟩ : ∃ p ∈ names, p.2 = i := by
        by_contra none
        exact hidden ⟨Session.has_of_extent known, fun p hp same => none ⟨p, hp, same⟩⟩
      exact ((named arg harg m hm' p hp).2 hi).grows grows₁
    · obtain ⟨fit, ⟨reserved₂, size₂, sized₂⟩, value₂⟩ := made
      have hacc' : acc.Regular s₂ := fun m hm => (hacc m hm).grows grows₂
      refine (succeeds_add fit hacc').arrives.bind fun sum s₃ grows₃ added => arrives_pure ?_
      obtain ⟨extents, regular₃, value₃⟩ := added
      refine ⟨fun m hm => (regular₃ m hm).grows grows₃, ⟨reserved₂.grows grows₃, size₂, ?_, sized₂.name⟩, fun env ρ => ?_⟩
      · exact fun known => sized₂.extent (extents ▸ known)
      · have same : c.map (Monomial.value env s₁.extents ρ) = c.map (Monomial.value env s.extents ρ) :=
          map_congr_left fun m hm => (hc m hm).value_grows grows₁ env ρ
        rw [extents, value₃, hacc.value_grows grows₂, value₁, value₂, same, map_append, sum_append]
        simp
  · obtain ⟨regular', ⟨reserved', sized'⟩, value'⟩ := all
    refine ⟨regular', ⟨reserved'.forward, reserved'.has, sized'⟩, fun env ρ => ?_⟩
    rw [value', sum_choices, map_map]
    rfl

/-- Sums of monomials are numbers: adding monomials adds their values, sums add up and products multiply. All of these
return. A product is summed over different indices, and the search for a name that is not in use ends with one. -/
theorem value_homomorphism (s : Session) :
    (∀ (acc : MonomialSum K) (ms : List (Monomial K)), acc.Regular s → (∀ m ∈ ms, m.Regular s) →
      Arrives s (ms.foldlM add acc) fun t s' => t.Regular s' ∧ ∀ (env : Environment K) (ρ : Valuation),
        t.value env s'.extents ρ = acc.value env s.extents ρ + (ms.map (Monomial.value env s.extents ρ)).sum) ∧
    (∀ args : List (MonomialSum K), (∀ arg ∈ args, arg.Regular s) →
      Arrives s (sum args) fun t s' => t.Regular s' ∧ ∀ (env : Environment K) (ρ : Valuation),
        t.value env s'.extents ρ = (args.map (value env s.extents ρ)).sum) ∧
    (∀ (args : List (MonomialSum K)) (names : RenameMap), (∀ arg ∈ args, arg.Regular s) → Issued names s →
      args.Pairwise (Apart s) →
      (∀ arg ∈ args, ∀ m ∈ arg.monomials, ∀ p ∈ names, ¬ m.Outer p.2 ∧ (p.2 ∈ m.sumIndices → m.Movable s p.2)) →
      Arrives s (product args names) fun p s' => (p.1.Regular s' ∧ ∀ m ∈ p.1.monomials, m.sumIndices.Nodup) ∧ Issued p.2 s' ∧
        ∀ (env : Environment K) (ρ : Valuation), p.1.value env s'.extents ρ = (args.map (value env s.extents ρ)).prod) ∧
    ∀ (r : Renamer) (i : Index), Issued r.names s → s.Has i →
      Arrives s ((takeName i).run r) fun p s' => p.1 ∉ r.inUse ∧ p.2.inUse = r.inUse ++ [p.1] ∧ Issued p.2.names s' := by
  refine ⟨fun acc ms hacc hms => arrives_adds hms hacc, fun args regular => ?_, fun args names regular issued apart named => ?_,
    fun r i issued has => issued.arrives_takeName has⟩
  · refine (succeeds_sum regular).arrives.mono fun t s₁ grows made => ?_
    obtain ⟨extents, regular, value⟩ := made
    exact ⟨fun n hn => (regular n hn).grows grows, fun env ρ => by rw [extents, value]⟩
  · refine (arrives_product regular issued apart named).mono fun p s' _ made => ?_
    exact ⟨⟨made.1, fun m hm => (made.1 m hm).distinct⟩, made.2⟩

/-- A session with one index, of the given extent. -/
def oneIndex (n : Int) : Session := ⟨#[⟨none, some n⟩], 0⟩

/-- The entry of a vector at the index. -/
def vectorEntry (n : Nat) : Expr ℚ := .indexed (.var "u" [some n]) [.free ⟨0⟩]

/-- The sum of the entries of a vector. -/
def vectorSum (n : Nat) : Monomial ℚ := ⟨[⟨0⟩], [vectorEntry n], Build.one⟩

theorem free_vectorEntry : i ∈ (vectorEntry n).freeIndices ↔ i = ⟨0⟩ := by
  rw [vectorEntry, mem_freeIndices_indexed]
  simp [freeIndices]

theorem free_vectorSum {t : Expr ℚ} (ht : t ∈ (vectorSum n).parts) (hi : i ∈ t.freeIndices) : i = ⟨0⟩ := by
  rcases mem_pair.1 ht with rfl | rfl
  · exact free_vectorEntry.1 hi
  · change i ∈ (Build.one : Expr ℚ).freeIndices at hi
    simp [Build.one, freeIndices] at hi

theorem regular_vectorSum (n : Nat) : (vectorSum n).Regular (oneIndex n) := by
  refine ⟨nodup_singleton _, fun hi => ⟨n, by rw [mem_singleton.1 hi]; rfl⟩, ⟨fun ht => ?_, fun ht => ?_, fun ht hi => ?_⟩,
    by rintro _ _ ⟨⟩; rfl⟩
  · rcases mem_pair.1 ht with rfl | rfl
    · exact wellFormed_indexed (wellFormed_leaf trivial rfl) ⟨.cons (.inr rfl) .nil, by simp⟩ (by simp)
    · exact wellFormed_leaf trivial rfl
  · rcases mem_pair.1 ht with rfl | rfl <;> rfl
  · rw [free_vectorSum ht hi]
    exact Nat.zero_lt_one

theorem not_outer_vectorSum : ¬ (vectorSum n).Outer i := by
  rintro ⟨out, t, ht, hi⟩
  exact out (mem_singleton.2 (free_vectorSum ht hi))

/-- What the entries of a vector with two entries add up to. -/
def vectorTotal (env : Environment ℚ) : ℚ := env.tensor "u" [some 2] [0] + env.tensor "u" [some 2] [1]

theorem value_vectorSum (env : Environment ℚ) (ρ : Valuation) : (vectorSum 2).value env (oneIndex 2).extents ρ = vectorTotal env := by
  have runs : ρ.runs (oneIndex 2).extents [⟨0⟩] = [ρ.set ⟨0⟩ 0, ρ.set ⟨0⟩ 1] := rfl
  have entry : ∀ σ : Valuation, (vectorEntry 2).value env σ [] = env.tensor "u" [some 2] [σ ⟨0⟩] := fun σ => by
    simp [vectorEntry, Expr.position]
  simp [Monomial.value, vectorSum, runs, entry, vectorTotal, value_one]

theorem movable_vectorSum : (vectorSum 2).Movable (oneIndex 2) ⟨0⟩ :=
  ⟨⟨2, rfl, by decide⟩, vectorEntry 2, mem_cons_self, free_vectorEntry.2 rfl⟩

/-- The entries of a vector, added twice, and multiplied by themselves under another name of the index. -/
theorem homomorphism_vectorSum :
    Arrives (oneIndex 2) ([vectorSum 2, vectorSum 2].foldlM add {}) (fun t s' => ∀ (env : Environment ℚ) (ρ : Valuation),
      t.value env s'.extents ρ = vectorTotal env + vectorTotal env) ∧
    Arrives (oneIndex 2) (sum [⟨[vectorSum 2]⟩, ⟨[vectorSum 2]⟩]) (fun t s' => ∀ (env : Environment ℚ) (ρ : Valuation),
      t.value env s'.extents ρ = vectorTotal env + vectorTotal env) ∧
    Arrives (oneIndex 2) (product [⟨[vectorSum 2]⟩, ⟨[vectorSum 2]⟩]) (fun p s' => ∀ (env : Environment ℚ) (ρ : Valuation),
      p.1.value env s'.extents ρ = vectorTotal env * vectorTotal env) ∧
    Arrives (oneIndex 2) ((Rewrite.takeName ⟨0⟩).run { names := [], inUse := [⟨0⟩] }) fun p _ => p.1 ∉ [(⟨0⟩ : Index)] := by
  obtain ⟨adds, sums, products, names⟩ := value_homomorphism (K := ℚ) (oneIndex 2)
  have regular : (vectorSum 2).Regular (oneIndex 2) := regular_vectorSum 2
  have operand : ∀ arg ∈ [(⟨[vectorSum 2]⟩ : MonomialSum ℚ), ⟨[vectorSum 2]⟩], arg.Regular (oneIndex 2) := by
    simp [Regular, regular]
  have apart : (vectorSum 2).Apart (oneIndex 2) (vectorSum 2) :=
    ⟨fun _ => not_outer_vectorSum, fun _ => not_outer_vectorSum, fun hi _ => List.mem_singleton.1 hi ▸ movable_vectorSum⟩
  refine ⟨?_, ?_, ?_, ?_⟩
  · refine (adds {} [vectorSum 2, vectorSum 2] (by simp [Regular]) (by simp [regular])).mono fun t s' _ made env ρ => ?_
    rw [made.2]
    simp [value, value_vectorSum]
  · refine (sums _ operand).mono fun t s' _ made env ρ => ?_
    rw [made.2]
    simp [value, value_vectorSum]
  · refine (products _ [] operand .nil (by simp [Apart, apart]) (by simp)).mono fun p s' _ made env ρ => ?_
    rw [made.2.2]
    simp [value, value_vectorSum]
  · exact (names { names := [], inUse := [⟨0⟩] } ⟨0⟩ .nil Nat.zero_lt_one).mono fun p s' _ found => found.1

theorem run_multiplyStep_vectorSum (n : Nat) : (multiplyStep ⟨[], [], Build.one⟩ (vectorSum n)).run { names := [] } =
    pure (vectorSum n, { names := [], inUse := [⟨0⟩] }) := by
  have kept : ∀ e : Expr ℚ, Rewrite.applyNames [] e = pure e := fun e => rfl
  have one : Build.product (Build.one : Expr ℚ) Build.one = pure Build.one := by
    simp [Build.product, Build.requireScalar, Build.one, Expr.shape, isZero, Build.require, Tensor.scalar, Shape.ofNats]
  have names : (Rewrite.takeNames (vectorSum n).sumIndices).run { names := [] } =
      pure (([⟨0⟩], []), { names := [], inUse := [⟨0⟩] }) :=
    Rewrite.run_takeNames_of_unused (nodup_singleton _) (by simp)
  rw [run_multiplyStep, names]
  simp [vectorSum, kept, one]

/-- A vector without entries adds up to a number, zero, but its square is not made: the index would have to get another name. -/
theorem not_product_square_empty : (vectorSum 0).Regular (oneIndex 0) ∧ (∀ i, ¬ (vectorSum 0).Outer i) ∧
    ¬ ∃ p s', (product [⟨[vectorSum 0]⟩, ⟨[vectorSum 0]⟩]).run.run (oneIndex 0) = (.ok p, s') := by
  refine ⟨regular_vectorSum 0, fun i => not_outer_vectorSum, ?_⟩
  rintro ⟨p, s', run⟩
  refine ((?_ : Leads (oneIndex 0) (product [⟨[vectorSum 0]⟩, ⟨[vectorSum 0]⟩]) fun _ _ => False) p s' run).2
  have refused : Leads (oneIndex 0) ((multiply [vectorSum 0, vectorSum 0]).run { names := [] }) fun _ _ => False := by
    rw [multiply_eq, List.foldlM_cons, StateT.run_bind, run_multiplyStep_vectorSum, pure_bind, List.foldlM_cons, StateT.run_bind]
    refine Leads.bind (Q := fun _ _ => False) ?_ fun _ _ _ h => h.elim
    rw [run_multiplyStep]
    refine (Rewrite.arrives_takeNames (V := fun _ => False) ⟨by simp, by simp, by simp⟩ (fun _ h => h.elim) fun i hi => ?_).leads.bind
      fun q s₁ _ found => ?_
    · rw [List.mem_singleton.1 hi]
      exact Nat.zero_lt_one
    obtain ⟨⟨taken, -, eq⟩, ⟨-, steady⟩, -⟩ := found
    -- the index is in use, so that its name is another one
    obtain ⟨j, hj⟩ := Rewrite.exists_mem_zip taken.own.length_eq (List.mem_singleton.2 rfl : (⟨0⟩ : Index) ∈ (vectorSum 0).sumIndices)
    have differ : j ≠ ⟨0⟩ := fun same => taken.unused (List.of_mem_zip hj).2 (List.mem_singleton.2 same)
    have mem : ((⟨0⟩ : Index), j) ∈ q.1.2 := eq ▸ List.mem_filter.2 ⟨hj, by simpa using differ.symm⟩
    have step : Leads s₁ ((vectorSum 0).atomics.mapM (Rewrite.applyNames q.1.2)) fun _ _ => False := by
      change Leads s₁ ([vectorEntry 0].mapM _) _
      rw [List.mapM_cons]
      exact (Rewrite.leads_applyNames_empty mem (free_vectorEntry.2 rfl) (by rw [steady.extents]; rfl)).bind fun _ _ _ h => h.elim
    exact step.bind fun _ _ _ h => h.elim
  change Leads (oneIndex 0) ([[vectorSum 0, vectorSum 0]].foldlM _ _) _
  rw [List.foldlM_cons]
  exact (refused.bind fun _ _ _ h => h.elim : Leads _ _ fun _ _ => False).bind fun _ _ _ h => h.elim

end MonomialSum

end FormCompiler
