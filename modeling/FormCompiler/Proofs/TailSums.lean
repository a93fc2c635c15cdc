import FormCompiler.Proofs.CommonFactors
import FormCompiler.Mode.Spectral

/-!
# Sums over the tail

A sum of monomials is factorised index by index. At each level the atomics that depend on an index of the tail go under the
inner sum together with the rest, and the others stay outside; monomials with the same outer part become one, with the inner sum
as its rest. Since no outer atomic depends on an inner index, each level keeps the sum of the values.
-/

namespace FormCompiler

open FormCompiler.Expr List Build

open Monomial (Proper Preserves)
open Rewrite (threeIndices matrixEntry wellFormed_matrixEntry entrySums)

variable {K : Type} [Scalar K] [Field K] {extent : Index → Extent} {ms : List (Monomial K)} {m : Monomial K}

/-! ## Addition of monomials -/

omit [Field K] in
theorem Monomial.Proper.withRest {r : Expr K} (h : Proper extent m) (hr : Scalars extent [r]) : Proper extent { m with rest := r } :=
  ⟨(h.scalars.sub (subset_append_left _ _)).append hr, h.counted⟩

namespace MonomialSum

variable [Exact K]

/-- A monomial that is added, alone or to a similar one, adds its value. -/
theorem preserves_addTo (hm : Proper extent m) (hms : ∀ n ∈ ms, Proper extent n) :
    Ensures extent (addTo m ms) (Preserves extent (m :: ms)) := by
  have rest : ∀ {n : Monomial K}, Proper extent n → n.rest.WellFormed extent := fun h => (h.scalars _ (by simp [Monomial.parts])).1
  induction ms with
  | nil =>
    have zero : WellFormed extent (Build.zero : Expr K) := wellFormed_leaf trivial rfl
    refine (ensures_sum_denotes zero (rest hm)).bind fun r hr => ensures_pure ?_
    refine ⟨forall_mem_singleton.2 (hm.withRest hr.scalars), forall_mem_singleton.2 ⟨m, mem_cons_self, rfl⟩, fun env ρ => ?_⟩
    have same : Monomial.value env extent ρ { m with rest := r } = _ := Monomial.value_withRest fun σ => by
      rw [hr.value, Build.zero, value_zero, zero_add]
    simp [same]
  | cons n ms ih =>
    obtain ⟨hn, hms⟩ := forall_mem_cons.1 hms
    rw [addTo]
    refine ensures_ite (fun similar => ?_) fun _ => ?_
    · refine (ensures_sum_denotes (rest hn) (rest hm)).bind fun r hr => ensures_pure ?_
      refine ⟨forall_mem_cons.2 ⟨hn.withRest hr.scalars, hms⟩, ?_, fun env ρ => ?_⟩
      · exact forall_mem_cons.2 ⟨⟨n, by simp, rfl⟩, fun k hk => ⟨k, by simp [hk], rfl⟩⟩
      · have merged : Monomial.value env extent ρ { n with rest := r } = _ := Monomial.value_merge similar fun σ => hr.value env σ
        simp only [map_cons, sum_cons, merged]
        ring
    · refine (ih hms).bind fun rs added => ensures_pure ?_
      exact ((Preserves.refl (forall_mem_singleton.2 hn)).append added).perm (.swap m n ms)

/-- Monomials that are made and added one by one: the sum has the total of their values. -/
theorem ensures_addEach {α : Type} {f : α → Build (Monomial K)} {v : α → Environment K → Valuation → K} {as : List α}
    {acc : MonomialSum K} (proper : ∀ m ∈ acc.monomials, Proper extent m)
    (h : ∀ a ∈ as, Ensures extent (f a) fun m => Proper extent m ∧ ∀ env ρ, m.value env extent ρ = v a env ρ) :
    Ensures extent (as.foldlM (fun acc a => do acc.add (← f a)) acc) fun t => (∀ m ∈ t.monomials, Proper extent m) ∧
      ∀ env ρ, (t.monomials.map (Monomial.value env extent ρ)).sum =
        (acc.monomials.map (Monomial.value env extent ρ)).sum + (as.map fun a => v a env ρ).sum := by
  induction as generalizing acc with
  | nil => exact ensures_pure ⟨proper, fun env ρ => by simp⟩
  | cons a as ih =>
    obtain ⟨here, later⟩ := forall_mem_cons.1 h
    rw [foldlM_cons]
    refine Ensures.bind (Q := fun t : MonomialSum K => (∀ m ∈ t.monomials, Proper extent m) ∧ ∀ env ρ,
      (t.monomials.map (Monomial.value env extent ρ)).sum =
        v a env ρ + (acc.monomials.map (Monomial.value env extent ρ)).sum) ?_ fun t ht => ?_
    · refine here.bind fun m hm => ensures_require.bind fun _ _ => (preserves_addTo hm.1 proper).bind fun rs added => ensures_pure ?_
      refine ⟨added.proper, fun env ρ => ?_⟩
      rw [added.total, map_cons, sum_cons, hm.2]
    · refine (ih ht.1 later).mono fun u hu => ⟨hu.1, fun env ρ => ?_⟩
      rw [hu.2, ht.2, map_cons, sum_cons]
      ring

/-- Monomials that are there already. -/
theorem ensures_addParts {α : Type} {ps : List (α × Monomial K)} (proper : ∀ p ∈ ps, Proper extent p.2) :
    Ensures extent (ps.foldlM (fun (s : MonomialSum K) p => s.add p.2) {}) fun t => (∀ m ∈ t.monomials, Proper extent m) ∧
      ∀ env ρ, (t.monomials.map (Monomial.value env extent ρ)).sum = (ps.map fun p => p.2.value env extent ρ).sum := by
  have each : Ensures extent (ps.foldlM (fun (s : MonomialSum K) p => do s.add (← pure p.2)) {}) fun t =>
      (∀ m ∈ t.monomials, Proper extent m) ∧ ∀ env ρ, (t.monomials.map (Monomial.value env extent ρ)).sum =
        (([] : List (Monomial K)).map (Monomial.value env extent ρ)).sum + (ps.map fun p => p.2.value env extent ρ).sum :=
    ensures_addEach (by simp) fun p hp => ensures_pure ⟨proper p hp, fun _ _ => rfl⟩
  simpa only [pure_bind, map_nil, sum_nil, zero_add] using each

end MonomialSum

/-! ## A monomial split at the tail -/

namespace Mode.Spectral

/-- The sum over outer indices of the product of outer atomics times what is inside. -/
def outerSum (env : Environment K) (extent : Index → Extent) (key : List Index × List (Expr K)) (f : Valuation → K) (ρ : Valuation) : K :=
  ((ρ.runs extent key.1).map fun σ => productAt env σ key.2 * f σ).sum

theorem outerSum_sum {α : Type} {as : List α} {f : α → Valuation → K} {env : Environment K} {key : List Index × List (Expr K)}
    {ρ : Valuation} : outerSum env extent key (fun σ => (as.map fun a => f a σ).sum) ρ =
      (as.map fun a => outerSum env extent key (f a) ρ).sum := by
  induction as with
  | nil => simp [outerSum]
  | cons a as ih =>
    rw [map_cons, sum_cons, ← ih, outerSum, outerSum, outerSum, ← sum_map_add]
    exact congrArg List.sum (map_congr_left fun σ _ => by rw [map_cons, sum_cons, mul_add])

variable [Exact K] {tail : List Index} {target : Expr K}

/-- An atomic goes under the inner sum if it depends on an index of the tail that is summed over. -/
theorem splitTail_eq (tail : List Index) (m : Monomial K) : splitTail tail m =
    ((m.sumIndices.filter fun i => !tail.contains i,
      m.atomics.filter fun a => !Indices.meet (m.sumIndices.filter tail.contains) a.freeIndices),
      ⟨m.sumIndices.filter tail.contains,
        m.atomics.filter fun a => Indices.meet (m.sumIndices.filter tail.contains) a.freeIndices, m.rest⟩) := by
  refine Prod.ext (Prod.ext rfl (filter_congr fun a ha => ?_)) rfl
  simp [ha]

/-- The value of a monomial is the sum of the outer product times the value of the inner part. -/
theorem value_splitTail (proper : Proper extent m) (env : Environment K) (ρ : Valuation) :
    m.value env extent ρ = outerSum env extent (splitTail tail m).1 ((splitTail tail m).2.value env extent) ρ := by
  rw [splitTail_eq, outerSum]
  generalize inner : m.sumIndices.filter tail.contains = is
  generalize outer : (m.sumIndices.filter fun i => !tail.contains i) = os
  have split : ∀ i, i ∈ m.sumIndices ↔ i ∈ os ++ is := fun i => by
    rw [← inner, ← outer, mem_append, mem_filter, mem_filter]
    cases tail.contains i <;> simp
  have apart : ∀ i ∈ os, i ∉ is := fun i ho hi => by
    rw [← outer, mem_filter] at ho
    rw [← inner, mem_filter] at hi
    rw [hi.2] at ho
    exact absurd ho.2 (by decide)
  rw [Monomial.value_eq, ((Valuation.runs_perm split).map _).sum_eq, Valuation.runs_append apart, map_flatMap, flatMap_def,
    sum_flatten, map_map]
  refine congrArg List.sum (map_congr_left fun σ _ => ?_)
  rw [Function.comp_apply, Monomial.value_eq, ← sum_map_mul_left]
  refine congrArg List.sum (map_congr_left fun τ hτ => ?_)
  -- the outer atomics do not depend on the inner indices
  have kept : productAt env σ (m.atomics.filter fun a => !Indices.meet is a.freeIndices) =
      productAt env τ (m.atomics.filter fun a => !Indices.meet is a.freeIndices) := by
    refine congrArg List.prod (map_congr_left fun a ha => ?_)
    obtain ⟨mem, free⟩ := mem_filter.1 ha
    have fits := (proper.scalars a (mem_append_left _ mem)).1
    refine value_congr fits.runtimeClosed [] fun i hi => ?_
    refine (Valuation.eq_of_mem_runs hτ fun his => ?_).symm
    have meets : Indices.meet is a.freeIndices = true := any_eq_true.2 ⟨i, his, by simpa using hi⟩
    simp [meets] at free
  have perm : ((m.atomics.filter fun a => !Indices.meet is a.freeIndices) ++
      (m.atomics.filter fun a => Indices.meet is a.freeIndices)).Perm m.atomics :=
    perm_append_comm.trans (filter_append_perm _ m.atomics)
  rw [kept, productAt, productAt, productAt, ← prod_append, ← map_append, Monomial.parts, Monomial.parts, ← append_assoc]
  exact ((perm.symm.append_right _).map _).prod_eq

theorem proper_splitTail (tail : List Index) (proper : Proper extent m) : Proper extent (splitTail tail m).2 ∧
    Scalars extent (splitTail tail m).1.2 ∧ ∀ i ∈ (splitTail tail m).1.1, ∀ n, extent i = some n → 0 ≤ n := by
  rw [splitTail_eq]
  refine ⟨⟨proper.scalars.sub ?_, fun hi => proper.counted (mem_filter.1 hi).1⟩, proper.scalars.sub ?_,
    fun i hi n => proper.counted (mem_filter.1 hi).1⟩
  · exact append_subset.2 ⟨subset_append_of_subset_left _ filter_sublist.subset, subset_append_right _ _⟩
  · exact subset_append_of_subset_left _ filter_sublist.subset

/-- A sum of inner parts, and the outer part that they have in common: it stands for the monomials that were split into these. -/
structure Gathered (extent : Index → Extent) (ps : List ((List Index × List (Expr K)) × Monomial K))
    (r : (List Index × List (Expr K)) × MonomialSum K) : Prop where
  outer : Scalars extent r.1.2
  counted {i : Index} {n : Int} : i ∈ r.1.1 → extent i = some n → 0 ≤ n
  inner {m : Monomial K} : m ∈ r.2.monomials → Proper extent m
  total (env : Environment K) (ρ : Valuation) :
    outerSum env extent r.1 (fun σ => (r.2.monomials.map (Monomial.value env extent σ)).sum) ρ =
      (ps.map fun p => outerSum env extent p.1 (p.2.value env extent) ρ).sum

theorem ensures_gather {key : List Index × List (Expr K)} {ps : List ((List Index × List (Expr K)) × Monomial K)} (nonempty : ps ≠ [])
    (parts : ∀ p ∈ ps, p.1 = key ∧ ∃ m ∈ ms, splitTail tail m = p) (proper : ∀ m ∈ ms, Proper extent m) :
    Ensures extent (do
      let sum ← ps.foldlM (fun (s : MonomialSum K) p => s.add p.2) {}
      return (key, sum)) (Gathered extent ps) := by
  refine (MonomialSum.ensures_addParts fun p hp => ?_).bind fun sum hs => ensures_pure ?_
  · obtain ⟨-, m, hm, rfl⟩ := parts p hp
    exact (proper_splitTail tail (proper m hm)).1
  obtain ⟨p, hp⟩ := exists_mem_of_ne_nil ps nonempty
  obtain ⟨rfl, m, hm, split⟩ := parts p hp
  obtain ⟨-, outer, counted⟩ := proper_splitTail tail (proper m hm)
  rw [split] at outer counted
  refine ⟨outer, fun hi => counted _ hi _, fun hm => hs.1 _ hm, fun env ρ => ?_⟩
  have same : (fun σ => (sum.monomials.map (Monomial.value env extent σ)).sum) = fun σ =>
      (ps.map fun p => p.2.value env extent σ).sum := funext fun σ => hs.2 env σ
  rw [same, outerSum_sum]
  exact congrArg List.sum (map_congr_left fun q hq => by rw [(parts q hq).1])

/-- The factorised expression has the sum of the values of the monomials, whatever the indices of the tail are. -/
theorem ensures_sumFactorise (tail : List Index) (proper : ∀ m ∈ ms, Proper extent m) :
    Ensures extent (sumFactorise target tail ms) (Denotes extent fun env ρ => (ms.map (Monomial.value env extent ρ)).sum) := by
  have order : Ensures extent (variableOrder target) fun _ => True := by
    unfold variableOrder
    split
    · exact ensures_pure trivial
    · exact ensures_throw
  induction tail generalizing ms with
  | nil =>
    unfold sumFactorise
    exact order.bind fun _ _ => Monomial.ensures_optimisedExpr proper
  | cons i tail ih =>
    unfold sumFactorise
    have perm := perm_groupBy Prod.fst (ms.map (splitTail (i :: tail)))
    have groups := mem_groupBy Prod.fst (ms.map (splitTail (i :: tail)))
    refine (ensures_mapM (S := fun g r => Gathered extent g.2 r) fun g hg => ?_).bind fun sums gathered => ?_
    · exact ensures_gather (groups g hg).1 (fun p hp =>
        ⟨(groups g hg).2 p hp, mem_map.1 (perm.mem_iff.1 (mem_flatMap.2 ⟨g, hg, hp⟩))⟩) proper
    have each : Ensures extent (sums.foldlM (fun (s : MonomialSum K) x =>
        (do return ⟨x.1.1, x.1.2, ← sumFactorise target tail x.2.monomials⟩ : Build (Monomial K)) >>= fun m => s.add m) {}) fun t =>
      (∀ m ∈ t.monomials, Proper extent m) ∧ ∀ env ρ, (t.monomials.map (Monomial.value env extent ρ)).sum =
        (([] : List (Monomial K)).map (Monomial.value env extent ρ)).sum + (sums.map fun x =>
          outerSum env extent x.1 (fun σ => (x.2.monomials.map (Monomial.value env extent σ)).sum) ρ).sum := by
      refine MonomialSum.ensures_addEach (by simp) fun x hx => ?_
      obtain ⟨g, -, here⟩ := exists_of_forall₂ gathered.flip hx
      refine (ih fun m hm => here.inner hm).bind fun e he => ensures_pure ⟨⟨here.outer.append he.scalars, here.counted⟩, fun env ρ => ?_⟩
      exact congrArg List.sum (map_congr_left fun σ _ => by rw [he.value]; rfl)
    simp only [bind_assoc, pure_bind] at each
    refine each.bind fun t ht => order.bind fun _ _ => ?_
    refine (Monomial.ensures_optimisedExpr ht.1).mono fun r hr => hr.congr fun env ρ => ?_
    rw [ht.2, map_nil, sum_nil, zero_add, sum_map_of_groups (gathered.imp fun g r h => h.total env ρ), (perm.map _).sum_eq,
      map_map]
    exact congrArg List.sum (map_congr_left fun m hm => (value_splitTail (proper m hm) env ρ).symm)

/-- Whatever indices the tail has, and whichever of them the monomials are summed over, an expression that the factorisation index
by index returns has the sum of the values of the monomials. -/
theorem sumFactorise_preserves_sum (target : Expr K) (tail : List Index) (ms : List (Monomial K)) (s : Session)
    (proper : ∀ m ∈ ms, Proper s.extents m) :
    Ensures s.extents (sumFactorise target tail ms) fun r => r.shape = [] ∧
      ∀ (env : Environment K) (ρ : Valuation), r.value env ρ [] = (ms.map (Monomial.value env s.extents ρ)).sum :=
  (ensures_sumFactorise tail proper).mono fun _ denotes => ⟨denotes.scalar, denotes.value⟩

/-- The square of the sum of a column, as a sum over two indices, of which the tail has one. -/
def squaredColumn : Monomial ℚ := ⟨[⟨0⟩, ⟨1⟩], [matrixEntry ⟨0⟩ ⟨2⟩, matrixEntry ⟨1⟩ ⟨2⟩], Build.one⟩

theorem proper_squaredColumn : Proper threeIndices.extents squaredColumn := by
  refine ⟨fun t ht => ?_, fun {i n} hi size => ?_⟩
  · simp only [squaredColumn, Monomial.parts, cons_append, nil_append, mem_cons, not_mem_nil, or_false] at ht
    rcases ht with rfl | rfl | rfl
    · exact ⟨wellFormed_matrixEntry rfl rfl, rfl⟩
    · exact ⟨wellFormed_matrixEntry rfl rfl, rfl⟩
    · exact ⟨wellFormed_leaf trivial rfl, rfl⟩
  · rcases mem_pair.1 hi with rfl | rfl <;> cases size <;> decide

theorem sumFactorise_preserves_sum_squaredColumn :
    Ensures threeIndices.extents (sumFactorise (.indexed (.var "A" [some 2]) [.free ⟨2⟩]) [⟨1⟩] [squaredColumn]) fun r =>
      r.value entrySums (fun _ => 1) [] = 25 := by
  refine (sumFactorise_preserves_sum _ [⟨1⟩] [squaredColumn] threeIndices
    (List.forall_mem_singleton.2 proper_squaredColumn)).mono fun r hr => ?_
  have size : Bounds.sizes threeIndices.extents ⟨0⟩ = 2 ∧ Bounds.sizes threeIndices.extents ⟨1⟩ = 2 := ⟨rfl, rfl⟩
  rw [hr.2]
  simp [squaredColumn, matrixEntry, entrySums, Monomial.value, Valuation.runs, bindersOf, Valuation.ranging, size, Expr.position,
    Valuation.set, Build.value_one, show List.range 2 = [0, 1] from rfl]
  norm_num

end Mode.Spectral

end FormCompiler
