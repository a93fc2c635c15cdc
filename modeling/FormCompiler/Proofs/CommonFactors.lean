import FormCompiler.Proofs.Covers
import FormCompiler.Proofs.Homomorphism
import FormCompiler.Proofs.Joining

/-!
# Common factors

Monomials that share a chosen atomic are put together: the atomic is taken out, what is left of them is factorised in the
same way, and becomes one factor. Each monomial is in one group, whose atomic it has, so that the sum of the values stays
the same. What is left of a monomial has one atomic less, so that the recursion ends.
-/

namespace FormCompiler

open FormCompiler.Expr List Build

variable {α β : Type}

/-- Members that are replaced group by group. -/
theorem sum_map_of_groups {κ K : Type} [AddCommMonoid K] {f : α → K} {F : β → K} {groups : List (κ × List α)} {rs : List β}
    (h : Forall₂ (fun g r => F r = (g.2.map f).sum) groups rs) :
    (rs.map F).sum = ((groups.flatMap Prod.snd).map f).sum := by
  induction h with
  | nil => rfl
  | cons here _ ih => rw [map_cons, sum_cons, flatMap_cons, map_append, sum_append, here, ih]

theorem eq_of_length_distinct_le_one [BEq α] [LawfulBEq α] {l : List α} {a b : α} (h : (distinct l).length ≤ 1)
    (ha : a ∈ l) (hb : b ∈ l) : a = b := by
  rw [← Program.mem_distinct] at ha hb
  generalize distinct l = d at h ha hb
  rcases d with _ | ⟨c, _ | _⟩
  · cases ha
  · rw [mem_singleton.1 ha, mem_singleton.1 hb]
  · simp at h

/-- What follows a computation matters for what it yields. -/
theorem Build.bind_congr_of_yields {Q : α → Prop} {x : Build α} {f g : α → Build β} (yields : Yields x Q)
    (same : ∀ a, Q a → f a = g a) : x >>= f = x >>= g := by
  refine funext fun s => ?_
  show (x >>= f).run.run s = (x >>= g).run.run s
  rw [ExceptT.run_bind, StateT.run_bind, ExceptT.run_bind, StateT.run_bind]
  cases first : x.run.run s with
  | mk r s₁ =>
    cases r with
    | error e => rfl
    | ok a =>
      show (f a).run.run s₁ = (g a).run.run s₁
      rw [same a (yields s a s₁ first)]

section Groups

variable {α β κ : Type} [BEq κ]

theorem insertGroup_map (f : α → β) (k : κ) (a : α) (groups : List (κ × List α)) :
    insertGroup k (f a) (groups.map fun g => (g.1, g.2.map f)) = (insertGroup k a groups).map fun g => (g.1, g.2.map f) := by
  induction groups with
  | nil => rfl
  | cons g groups ih =>
    simp only [map_cons, insertGroup]
    split
    · simp
    · rw [map_cons, ih]

/-- Members may be grouped before they are replaced. -/
theorem groupBy_map (f : α → β) (key : α → κ) (key' : β → κ) (same : ∀ a, key' (f a) = key a) (as : List α) :
    groupBy key' (as.map f) = (groupBy key as).map fun g => (g.1, g.2.map f) := by
  induction as using reverseRecOn with
  | nil => rfl
  | append_singleton as a ih =>
    rw [groupBy, groupBy, map_append, foldl_append, foldl_append, ← groupBy, ← groupBy, ih]
    simp only [map_singleton, foldl_cons, foldl_nil, same, insertGroup_map]

end Groups

namespace Monomial

open Rewrite (ensures_makeSum ensures_makeProduct)
open MonomialSum (oneIndex)

variable {K : Type} [Scalar K]

/-- A product of scalars that is summed over indices, none of which has a negative extent. -/
structure Proper (extent : Index → Extent) (m : Monomial K) : Prop where
  scalars : Scalars extent m.parts
  counted {i : Index} {n : Int} : i ∈ m.sumIndices → extent i = some n → 0 ≤ n

variable [Field K] {extent : Index → Extent} {linear is : List Index} {ms rs : List (Monomial K)} {m r : Monomial K} {a : Expr K}

/-! ## Values -/

/-- The sum over indices of monomials that are all summed over them. -/
theorem sum_values (same : ∀ m ∈ ms, ∀ i, i ∈ m.sumIndices ↔ i ∈ is) (env : Environment K) (ρ : Valuation) :
    (ms.map (value env extent ρ)).sum =
      ((ρ.runs extent is).map fun σ => (ms.map fun m => productAt env σ m.parts).sum).sum := by
  induction ms with
  | nil => simp
  | cons m ms ih =>
    obtain ⟨here, rest⟩ := forall_mem_cons.1 same
    simp only [map_cons, sum_cons, sum_map_add]
    rw [ih rest, value_eq, ((Valuation.runs_perm here).map _).sum_eq]

omit [Scalar K] [Field K] in
theorem mem_iff_of_ofList {key : List Index} (h : Indices.ofList m.sumIndices = key) (i : Index) : i ∈ m.sumIndices ↔ i ∈ key := by
  rw [← h, Indices.mem_ofList]

variable [Exact K]

variable {α : Type} {n : Nat} {as : List α}

omit [Exact K] in
/-- Expressions that stand for products of scalars are scalars. -/
theorem scalars_of_denotes {f : α → Environment K → Valuation → K} {es : List (Expr K)}
    (h : Forall₂ (fun a e => Denotes extent (f a) e) as es) :
    Scalars extent es ∧ ∀ env ρ, (es.map fun e => e.value env ρ []) = as.map fun a => f a env ρ := by
  induction h with
  | nil => exact ⟨fun _ he => absurd he not_mem_nil, fun _ _ => rfl⟩
  | cons here _ ih =>
    refine ⟨forall_mem_cons.2 ⟨⟨here.fits, here.scalar⟩, ih.1⟩, fun env ρ => ?_⟩
    rw [map_cons, map_cons, here.value, ih.2]

/-- Monomials with the same indices are put under one sum. -/
theorem ensures_groupExpr (proper : ∀ m ∈ ms, Proper extent m) (same : ∀ m ∈ ms, ∀ i, i ∈ m.sumIndices ↔ i ∈ is)
    (nonempty : ms ≠ []) :
    Ensures extent (do
        let products ← ms.mapM fun m => Rewrite.makeProduct (m.atomics ++ [m.rest])
        let indices := (ms.head?.map sumIndices).getD []
        sumOver (← Rewrite.makeSum products) indices)
      (Denotes extent fun env ρ => (ms.map (value env extent ρ)).sum) := by
  refine (ensures_mapM (S := fun m r => Denotes extent (fun env ρ => productAt env ρ m.parts) r) fun m hm =>
    ensures_makeProduct (proper m hm).scalars).bind fun products made => ?_
  obtain ⟨scalars, values⟩ := scalars_of_denotes made
  refine (ensures_makeSum scalars).bind fun total ht => ?_
  obtain ⟨m, ms, rfl⟩ := exists_cons_of_ne_nil nonempty
  refine (ensures_sumOver_denotes ht.fits fun i hi n => (proper m mem_cons_self).counted hi).mono fun r hr =>
    hr.congr fun env ρ => ?_
  have first : ∀ n ∈ m :: ms, ∀ i, i ∈ n.sumIndices ↔ i ∈ m.sumIndices := fun n hn i =>
    (same n hn i).trans (same m mem_cons_self i).symm
  rw [sum_values first]
  refine congrArg List.sum (map_congr_left fun σ _ => ?_)
  rw [ht.value, values]

/-- The expression of monomials has the sum of their values. -/
theorem ensures_toExpr (proper : ∀ m ∈ ms, Proper extent m) :
    Ensures extent (toExpr ms) (Denotes extent fun env ρ => (ms.map (value env extent ρ)).sum) := by
  have groups := mem_groupBy (fun m : Monomial K => Indices.ofList m.sumIndices) ms
  have perm := perm_groupBy (fun m : Monomial K => Indices.ofList m.sumIndices) ms
  refine (ensures_mapM
    (S := fun g r => Denotes extent (fun env ρ => (g.2.map (value env extent ρ)).sum) r) fun g hg => ?_).bind fun sums made => ?_
  · have member : ∀ m ∈ g.2, Proper extent m := fun m hm => proper m (perm.mem_iff.1 (mem_flatMap.2 ⟨g, hg, hm⟩))
    exact ensures_groupExpr member (fun m hm => mem_iff_of_ofList ((groups g hg).2 m hm)) (groups g hg).1
  · obtain ⟨scalars, -⟩ := scalars_of_denotes made
    refine (ensures_makeSum scalars).mono fun r hr => hr.congr fun env ρ => ?_
    rw [sum_map_of_groups (made.imp fun g e he => he.value env ρ), (perm.map _).sum_eq]

/-! ## Groups with a common factor -/

/-- Monomials that stand for others: they are summed over indices of those, and the sum of their values is the same. -/
structure Preserves (extent : Index → Extent) (ms rs : List (Monomial K)) : Prop where
  proper : ∀ r ∈ rs, Proper extent r
  indices : ∀ r ∈ rs, ∃ m ∈ ms, r.sumIndices = m.sumIndices
  total (env : Environment K) (ρ : Valuation) : (rs.map (value env extent ρ)).sum = (ms.map (value env extent ρ)).sum

/-- What is left of a monomial without its sum and one of its atomics. -/
def without (a : Expr K) (m : Monomial K) : Monomial K := ⟨[], m.atomics.erase a, m.rest⟩

omit [Field K] [Exact K] in
theorem Proper.without (h : Proper extent m) : Proper extent (m.without a) := by
  refine ⟨h.scalars.sub fun t ht => ?_, fun hi => absurd hi not_mem_nil⟩
  exact (mem_append.1 ht).elim (fun ht => mem_append_left _ (mem_of_mem_erase ht)) (mem_append_right _)

theorem productAt_without (ha : a ∈ m.atomics) (env : Environment K) (σ : Valuation) :
    productAt env σ m.parts = a.value env σ [] * productAt env σ (m.without a).parts := by
  have perm : m.parts.Perm (a :: (m.without a).parts) := (perm_cons_erase ha).append_right [m.rest]
  rw [productAt, (perm.map _).prod_eq, map_cons, prod_cons, productAt]

omit [Exact K] in
/-- Without indices to sum over, the value of a monomial is the product of its factors. -/
theorem value_of_no_index (none : m.sumIndices = []) (env : Environment K) (σ : Valuation) :
    m.value env extent σ = productAt env σ m.parts := by
  rw [value_eq, none, Valuation.runs_nil, map_singleton, sum_singleton]

/-- A monomial that has the product of the common atomic and the sum of what is left stands for the group. -/
theorem value_of_common (same : ∀ m ∈ ms, ∀ i, i ∈ m.sumIndices ↔ i ∈ r.sumIndices) (common : ∀ m ∈ ms, a ∈ m.atomics)
    {env : Environment K} {ρ : Valuation} (product : ∀ σ, productAt env σ r.parts =
      a.value env σ [] * ((ms.map (without a)).map (value env extent σ)).sum) :
    r.value env extent ρ = (ms.map (value env extent ρ)).sum := by
  rw [value_eq, sum_values same]
  refine congrArg List.sum (map_congr_left fun σ _ => ?_)
  rw [product, ← sum_map_mul_left, map_map]
  refine congrArg List.sum (map_congr_left fun m hm => ?_)
  rw [Function.comp_apply, productAt_without (common m hm), value_of_no_index rfl]

/-! ## The recursion -/

/-- The first of the chosen atomics that a monomial has. -/
def sharedBy (common : List (Expr K)) (m : Monomial K) : Expr K := (common.find? m.atomics.contains).getD one

/-- The monomials by the first of the chosen atomics that they have. -/
def shares (common : List (Expr K)) (ms : List (Monomial K)) : List (Expr K × List (Monomial K)) :=
  groupBy (sharedBy common) ms

/-- The monomial that stands for a group: the common atomic, and what `optimise` makes of the rest. -/
def refactor (optimise : List (Monomial K) → Build (List (Monomial K))) (linear indices : List Index)
    (g : Expr K × List (Monomial K)) : Build (Monomial K) := do
  match ← optimise (g.2.map (without g.1)) with
  | [sub] => return ⟨indices, g.1 :: sub.atomics, sub.rest⟩
  | subs =>
    let e ← toExpr subs
    if Indices.meet linear e.freeIndices then return ⟨indices, [g.1, e], one⟩
    else return ⟨indices, [g.1], e⟩

variable {common : List (Expr K)} {treat : List (Monomial K) → Build (List (Monomial K))}

section

omit [Field K] [Exact K]

theorem find?_sharedBy [StrictSame K] (h : ∃ a ∈ m.atomics, a ∈ common) :
    common.find? m.atomics.contains = some (sharedBy common m) ∧ sharedBy common m ∈ m.atomics := by
  obtain ⟨a, ha, chosen⟩ := h
  have found : (common.find? m.atomics.contains).isSome := find?_isSome.2 ⟨a, chosen, by simpa using ha⟩
  obtain ⟨b, hb⟩ := Option.isSome_iff_exists.1 found
  rw [sharedBy, hb]
  exact ⟨rfl, by simpa using find?_some hb⟩

/-- The members of a group have its atomic, and each monomial is a member of one group. -/
theorem shares_spec [StrictSame K] (covers : Covers common ms) :
    ((shares common ms).flatMap Prod.snd).Perm ms ∧
      ∀ g ∈ shares common ms, g.2 ≠ [] ∧ ∀ m ∈ g.2, m ∈ ms ∧ g.1 ∈ m.atomics := by
  have perm := perm_groupBy (sharedBy common) ms
  refine ⟨perm, fun g hg => ⟨(mem_groupBy _ ms g hg).1, fun m hm => ?_⟩⟩
  have mem : m ∈ ms := perm.mem_iff.1 (mem_flatMap.2 ⟨g, hg, hm⟩)
  rw [← (mem_groupBy _ ms g hg).2 m hm]
  exact ⟨mem, (find?_sharedBy (covers m mem)).2⟩

/-- With atomics of each monomial, no monomial is refused. -/
theorem factoriseWith_eq [StrictSame K] (covers : Covers common ms) : factoriseWith treat ms common linear =
    if common.isEmpty || ms.length ≤ 1 then pure ms
    else (shares common ms).mapM (refactor treat linear ((ms.head?.map sumIndices).getD [])) := by
  unfold factoriseWith
  split
  · rfl
  rw [mapM_eq_pure (g := fun m => (sharedBy common m, m)) fun m hm => by rw [(find?_sharedBy (covers m hm)).1], pure_bind,
    groupBy_map (fun m => (sharedBy common m, m)) (sharedBy common) Prod.fst fun _ => rfl, mapM_map]
  refine mapM_congr fun g _ => ?_
  simp only [Function.comp_apply, refactor, map_map]
  rfl

end

/-- One step of the recursion: those monomials that have atomics are put together by chosen ones. -/
def optimiseStep (linear : List Index) (optimise : List (Monomial K) → Build (List (Monomial K))) (ms : List (Monomial K)) :
    Build (List (Monomial K)) := do
  require ((distinct (ms.map fun m => Indices.ofList m.sumIndices)).length ≤ 1)
    "All monomials required to have same sum indices for factorisation"
  let common ← optimalAtomics (ms.filter fun m => !m.atomics.isEmpty) linear
  return (ms.filter fun m => m.atomics.isEmpty) ++
    (← factoriseWith optimise (ms.filter fun m => !m.atomics.isEmpty) common linear)

omit [Field K] [Exact K] in
theorem optimiseWithin_succ (n : Nat) (ms : List (Monomial K)) :
    optimiseWithin linear (n + 1) ms = optimiseStep linear (optimiseWithin linear n) ms := by
  rw [optimiseWithin, optimiseStep]

omit [Scalar K] [Field K] [Exact K] in
theorem atomics_ne_nil_of_active : ∀ m ∈ ms.filter fun m => !m.atomics.isEmpty, m.atomics ≠ [] := by
  intro m hm
  simpa using (mem_filter.1 hm).2

/-! ## What the recursion preserves -/

omit [Exact K] in
theorem Preserves.refl (proper : ∀ m ∈ ms, Proper extent m) : Preserves extent ms ms :=
  ⟨proper, fun r hr => ⟨r, hr, rfl⟩, fun _ _ => rfl⟩

variable {ms' : List (Monomial K)}

omit [Exact K] in
theorem Preserves.append {rs' : List (Monomial K)} (h : Preserves extent ms rs) (h' : Preserves extent ms' rs') :
    Preserves extent (ms ++ ms') (rs ++ rs') := by
  refine ⟨forall_mem_append.2 ⟨h.proper, h'.proper⟩, forall_mem_append.2 ⟨fun r hr => ?_, fun r hr => ?_⟩, fun env ρ => ?_⟩
  · obtain ⟨m, hm, eq⟩ := h.indices r hr
    exact ⟨m, mem_append_left _ hm, eq⟩
  · obtain ⟨m, hm, eq⟩ := h'.indices r hr
    exact ⟨m, mem_append_right _ hm, eq⟩
  · rw [map_append, sum_append, map_append, sum_append, h.total, h'.total]

omit [Exact K] in
theorem Preserves.perm (h : Preserves extent ms rs) (same : ms.Perm ms') : Preserves extent ms' rs :=
  ⟨h.proper, fun r hr => (h.indices r hr).imp fun _ hm => ⟨same.mem_iff.1 hm.1, hm.2⟩,
    fun env ρ => (h.total env ρ).trans (same.map _).sum_eq⟩

/-- The monomial of a group has the sum of the values of its members. -/
theorem ensures_refactor {g : Expr K × List (Monomial K)} (proper : ∀ m ∈ g.2, Proper extent m)
    (common : ∀ m ∈ g.2, g.1 ∈ m.atomics) (nonempty : g.2 ≠ []) (same : ∀ m ∈ g.2, ∀ i, i ∈ m.sumIndices ↔ i ∈ is)
    (preserves : Ensures extent (treat (g.2.map (without g.1))) (Preserves extent (g.2.map (without g.1)))) :
    Ensures extent (refactor treat linear is g) fun r =>
      Proper extent r ∧ r.sumIndices = is ∧ ∀ env ρ, r.value env extent ρ = (g.2.map (value env extent ρ)).sum := by
  obtain ⟨m, hm⟩ := exists_mem_of_ne_nil _ nonempty
  have atomic : Scalars extent [g.1] := (proper m hm).scalars.sub (by simp [parts, common m hm])
  have counted : ∀ {i : Index} {n : Int}, i ∈ is → extent i = some n → 0 ≤ n := fun hi =>
    (proper m hm).counted ((same m hm _).2 hi)
  refine preserves.bind fun subs hs => ?_
  have left : ∀ sub ∈ subs, sub.sumIndices = [] := fun sub hsub => by
    obtain ⟨n, hn, eq⟩ := hs.indices sub hsub
    obtain ⟨n, -, rfl⟩ := mem_map.1 hn
    exact eq
  -- where several monomials are left, their expression becomes a factor
  have several : Ensures extent (do
      let e ← toExpr subs
      if Indices.meet linear e.freeIndices then return ⟨is, [g.1, e], one⟩ else return ⟨is, [g.1], e⟩) fun r =>
        Proper extent r ∧ r.sumIndices = is ∧ ∀ env ρ, r.value env extent ρ = (g.2.map (value env extent ρ)).sum := by
    refine (ensures_toExpr hs.proper).bind fun e he => ensures_ite (fun _ => ensures_pure ?_) fun _ => ensures_pure ?_
    · have one : Scalars extent [(one : Expr K)] := forall_mem_singleton.2 ⟨wellFormed_leaf trivial rfl, rfl⟩
      refine ⟨⟨(atomic.append he.scalars).append one, counted⟩, rfl, fun env ρ => value_of_common same common fun σ => ?_⟩
      rw [← hs.total, ← he.value]
      simp [productAt, parts, value_one]
    · refine ⟨⟨atomic.append he.scalars, counted⟩, rfl, fun env ρ => value_of_common same common fun σ => ?_⟩
      rw [← hs.total, ← he.value]
      simp [productAt, parts]
  rcases subs with _ | ⟨sub, _ | ⟨sub', subs⟩⟩
  · exact several
  · refine ensures_pure ⟨⟨atomic.append (hs.proper sub mem_cons_self).scalars, counted⟩, rfl, fun env ρ =>
      value_of_common same common fun σ => ?_⟩
    rw [← hs.total, map_singleton, sum_singleton, value_of_no_index (left sub mem_cons_self)]
    simp [productAt, parts]
  · exact several

/-- Monomials with the same indices that are put together by atomics of each of them. -/
theorem ensures_factoriseWith (proper : ∀ m ∈ ms, Proper extent m) (same : ∀ m ∈ ms, ∀ i, i ∈ m.sumIndices ↔ i ∈ is)
    (covers : Covers common ms) (preserves : ∀ subs : List (Monomial K), (∀ m ∈ subs, Proper extent m ∧ m.sumIndices = []) →
      Ensures extent (treat subs) (Preserves extent subs)) :
    Ensures extent (factoriseWith treat ms common linear) (Preserves extent ms) := by
  obtain ⟨perm, groups⟩ := shares_spec covers
  rw [factoriseWith_eq covers]
  refine ensures_ite (fun _ => ensures_pure (.refl proper)) fun several => ?_
  obtain ⟨m, ms, rfl⟩ := exists_cons_of_ne_nil (l := ms) fun none => several (by simp [none])
  have first : ∀ n ∈ m :: ms, ∀ i, i ∈ n.sumIndices ↔ i ∈ m.sumIndices := fun n hn i =>
    (same n hn i).trans (same m mem_cons_self i).symm
  refine (ensures_mapM fun g hg => ensures_refactor (fun n hn => proper n ((groups g hg).2 n hn).1)
    (fun n hn => ((groups g hg).2 n hn).2) (groups g hg).1 (fun n hn => first n ((groups g hg).2 n hn).1)
    (preserves _ fun sub hsub => ?_)).mono fun rs made => ⟨fun r hr => ?_, fun r hr => ?_, fun env ρ => ?_⟩
  · obtain ⟨n, hn, rfl⟩ := mem_map.1 hsub
    exact ⟨(proper n ((groups g hg).2 n hn).1).without, rfl⟩
  · obtain ⟨g, -, here⟩ := exists_of_forall₂ made.flip hr
    exact here.1
  · obtain ⟨g, -, here⟩ := exists_of_forall₂ made.flip hr
    exact ⟨m, mem_cons_self, here.2.1⟩
  · rw [sum_map_of_groups (made.imp fun g r h => h.2.2 env ρ), (perm.map _).sum_eq]

omit [Scalar K] [Field K] [Exact K] in
/-- Monomials that pass the check are summed over the same indices. -/
theorem exists_indices (alike : (distinct (ms.map fun m => Indices.ofList m.sumIndices)).length ≤ 1) :
    ∃ is : List Index, ∀ m ∈ ms, ∀ i, i ∈ m.sumIndices ↔ i ∈ is := by
  rcases ms with _ | ⟨m, ms⟩
  · exact ⟨[], fun _ hm => absurd hm not_mem_nil⟩
  refine ⟨Indices.ofList m.sumIndices, fun n hn => mem_iff_of_ofList ?_⟩
  exact eq_of_length_distinct_le_one alike (mem_map.2 ⟨n, hn, rfl⟩) (mem_map.2 ⟨m, mem_cons_self, rfl⟩)

/-- One step of the recursion keeps the sum of the values. -/
theorem ensures_optimiseStep (proper : ∀ m ∈ ms, Proper extent m) (preserves : ∀ subs : List (Monomial K),
    (∀ m ∈ subs, Proper extent m ∧ m.sumIndices = []) → Ensures extent (treat subs) (Preserves extent subs)) :
    Ensures extent (optimiseStep linear treat ms) (Preserves extent ms) := by
  unfold optimiseStep
  refine ensures_require.bind fun _ alike => ?_
  obtain ⟨is, same⟩ := exists_indices (of_decide_eq_true alike)
  refine (ensures_optimalAtomics atomics_ne_nil_of_active).bind fun common covers => ?_
  refine (ensures_factoriseWith (fun m hm => proper m (mem_filter.1 hm).1) (fun m hm => same m (mem_filter.1 hm).1)
    covers preserves).bind fun rs hrs => ensures_pure ?_
  refine Preserves.perm (.append (.refl fun m hm => proper m (mem_filter.1 hm).1) hrs) ?_
  exact filter_append_perm (fun m => m.atomics.isEmpty) ms

theorem ensures_optimiseWithin (n : Nat) (proper : ∀ m ∈ ms, Proper extent m) :
    Ensures extent (optimiseWithin linear n ms) (Preserves extent ms) := by
  induction n generalizing ms with
  | zero =>
    unfold optimiseWithin
    refine ensures_require.bind fun _ _ => (ensures_optimalAtomics atomics_ne_nil_of_active).bind fun _ _ => ensures_pure ?_
    have perm := filter_append_perm (fun m : Monomial K => m.atomics.isEmpty) ms
    exact (Preserves.refl fun m hm => proper m (perm.mem_iff.1 hm)).perm perm
  | succ n ih =>
    rw [optimiseWithin_succ]
    exact ensures_optimiseStep proper fun subs hs => ih fun m hm => (hs m hm).1

/-- The factorised expression has the sum of the values of the monomials. -/
theorem ensures_optimisedExpr (proper : ∀ m ∈ ms, Proper extent m) :
    Ensures extent (optimisedExpr ms linear) (Denotes extent fun env ρ => (ms.map (value env extent ρ)).sum) := by
  have perm := perm_groupBy (fun m : Monomial K => Indices.ofList m.sumIndices) ms
  refine (ensures_mapM (S := fun g rs => Preserves extent g.2 rs) fun g hg => ?_).bind fun groups made => ?_
  · exact ensures_optimiseWithin _ fun m hm => proper m (perm.mem_iff.1 (mem_flatMap.2 ⟨g, hg, hm⟩))
  refine (ensures_toExpr fun m hm => ?_).mono fun r hr => hr.congr fun env ρ => ?_
  · obtain ⟨rs, hrs, hm⟩ := mem_flatten.1 hm
    obtain ⟨g, -, here⟩ := exists_of_forall₂ made.flip hrs
    exact here.proper m hm
  · have total := sum_map_of_groups (made.imp fun g rs h => h.total env ρ)
    rw [← (perm.map _).sum_eq, ← total, map_flatten, sum_flatten, map_map]
    rfl

/-! ## The end of the recursion -/

section Iterate

omit [Field K] [Exact K]

theorem yields_optimalAtomics [StrictSame K] (atomics_ne_nil : ∀ m ∈ ms, m.atomics ≠ []) :
    Yields (optimalAtomics ms linear) fun common => Covers common ms :=
  .ofEnsures fun _ => ensures_optimalAtomics atomics_ne_nil

/-- A step depends on what is done with nonempty lists of monomials that have fewer atomics. -/
theorem optimiseStep_congr [StrictSame K] {f g : List (Monomial K) → Build (List (Monomial K))}
    (short : ∀ m ∈ ms, m.atomics.length ≤ n)
    (agree : ∀ subs, subs ≠ [] → (∀ m ∈ subs, m.atomics.length < n) → f subs = g subs) :
    optimiseStep linear f ms = optimiseStep linear g ms := by
  unfold optimiseStep
  refine bind_congr fun _ => bind_congr_of_yields (yields_optimalAtomics atomics_ne_nil_of_active) fun common covers => ?_
  rw [factoriseWith_eq covers, factoriseWith_eq covers]
  have same : (shares common (ms.filter fun m => !m.atomics.isEmpty)).mapM (refactor f linear
      (((ms.filter fun m => !m.atomics.isEmpty).head?.map sumIndices).getD [])) =
      (shares common (ms.filter fun m => !m.atomics.isEmpty)).mapM (refactor g linear
        (((ms.filter fun m => !m.atomics.isEmpty).head?.map sumIndices).getD [])) := by
    refine mapM_congr fun group hg => ?_
    obtain ⟨nonempty, members⟩ := (shares_spec covers).2 group hg
    rw [refactor, refactor, agree _ (by simpa using nonempty) fun m hm => ?_]
    obtain ⟨m, hmem, rfl⟩ := mem_map.1 hm
    obtain ⟨mem, has⟩ := members m hmem
    -- the common atomic is taken out once
    have fewer : (m.atomics.erase group.1).length = m.atomics.length - 1 := length_erase_of_mem has
    have := length_pos_of_mem has
    have := short m (mem_filter.1 mem).1
    show (m.atomics.erase group.1).length < n
    omega
  rw [same]

/-- As many steps as there are atomics, and one more, do not depend on what they start from. -/
theorem iterate_optimiseStep_congr [StrictSame K] (f g : List (Monomial K) → Build (List (Monomial K)))
    (short : ∀ m ∈ ms, m.atomics.length ≤ n) :
    (optimiseStep linear)^[n + 1] f ms = (optimiseStep linear)^[n + 1] g ms := by
  induction n generalizing ms with
  | zero =>
    refine optimiseStep_congr short fun subs nonempty fewer => ?_
    obtain ⟨m, hm⟩ := exists_mem_of_ne_nil subs nonempty
    exact absurd (fewer m hm) (Nat.not_lt_zero _)
  | succ n ih =>
    rw [Function.iterate_succ_apply' _ (n + 1) f, Function.iterate_succ_apply' _ (n + 1) g]
    exact optimiseStep_congr short fun subs _ fewer => ih fun m hm => Nat.le_of_lt_succ (fewer m hm)

theorem optimiseWithin_eq_iterate (n : Nat) :
    optimiseWithin (K := K) linear n = (optimiseStep linear)^[n] (optimiseWithin linear 0) := by
  induction n with
  | zero => rw [Function.iterate_zero_apply]
  | succ n ih =>
    rw [Function.iterate_succ_apply', ← ih]
    exact funext fun ms => optimiseWithin_succ n ms

omit [Scalar K] in
theorem length_le_depth : ∀ m ∈ ms, m.atomics.length ≤ depth ms := by
  have fold : ∀ (ms : List (Monomial K)) (n : Nat), n ≤ ms.foldl (fun acc m => max acc m.atomics.length) n ∧
      ∀ m ∈ ms, m.atomics.length ≤ ms.foldl (fun acc m => max acc m.atomics.length) n := by
    intro ms
    induction ms with
    | nil => exact fun n => ⟨Nat.le_refl n, fun _ hm => absurd hm not_mem_nil⟩
    | cons k ms ih =>
      intro n
      obtain ⟨start, members⟩ := ih (max n k.atomics.length)
      refine ⟨(Nat.le_max_left _ _).trans start, forall_mem_cons.2 ⟨(Nat.le_max_right _ _).trans start, members⟩⟩
  exact (fold ms 0).2

omit [Scalar K] in
theorem depth_le (short : ∀ m ∈ ms, m.atomics.length ≤ n) : depth ms ≤ n :=
  foldlRecOn (motive := (· ≤ n)) ms _ (Nat.zero_le n) fun _ hb m hm => Nat.max_le.2 ⟨hb, short m hm⟩

/-- The factorisation is what enough steps come to, whatever they start from. -/
theorem iterate_optimiseStep_eq [StrictSame K] (bottom : List (Monomial K) → Build (List (Monomial K)))
    (short : ∀ m ∈ ms, m.atomics.length ≤ n) : (optimiseStep linear)^[n + 1] bottom ms = optimise ms linear := by
  obtain ⟨k, rfl⟩ := Nat.exists_eq_add_of_le (depth_le short)
  rw [optimise, optimiseWithin_eq_iterate, Nat.add_right_comm, Function.iterate_add_apply]
  exact iterate_optimiseStep_congr _ _ length_le_depth

/-- The factorisation solves its recursive equation. -/
theorem optimise_eq [StrictSame K] (ms : List (Monomial K)) :
    optimise ms linear = optimiseStep linear (fun subs => optimise subs linear) ms := by
  rw [optimise, optimiseWithin_succ, optimiseWithin_eq_iterate]
  refine optimiseStep_congr length_le_depth fun subs nonempty fewer => ?_
  obtain ⟨m, hm⟩ := exists_mem_of_ne_nil subs nonempty
  obtain ⟨n, hn⟩ : ∃ n, depth ms = n + 1 := Nat.exists_eq_succ_of_ne_zero (Nat.ne_zero_of_lt (fewer m hm))
  rw [hn] at fewer ⊢
  exact iterate_optimiseStep_eq _ fun m hm => Nat.le_of_lt_succ (fewer m hm)

end Iterate

/-! ## No monomial without a chosen atomic -/

/-- The error is not that a monomial has none of the chosen atomics. -/
def NotUncovered (e : Error) : Prop := e ≠ .requirement "Expect at least one optimal atomic per monomial."

/-- A computation that is not refused for a monomial without a chosen atomic. -/
def Covering {α : Type} (x : Build α) : Prop := Meets (fun _ => True) NotUncovered x fun _ => True

theorem covering_mapM {β : Type} {f : α → Build β} (h : ∀ a ∈ as, Covering (f a)) : Covering (as.mapM f) :=
  (meets_mapM h).mono fun _ _ => trivial

theorem suits_notUncovered : Suits (fun _ => True) NotUncovered where
  plain h eq := by
    subst eq
    simp [Error.Plain] at h
  extent _ _ _ := trivial
  serial _ := trivial

section Covering

omit [Field K] [Exact K]

variable [StrictSame K]

theorem covering_toExpr : Covering (toExpr ms) := by
  have all {es : List (Expr K)} : ∀ e ∈ es, True := fun _ _ => trivial
  refine (covering_mapM fun g _ => ?_).bind fun _ _ => suits_notUncovered.makeSum inherited_true all
  refine (covering_mapM fun m _ => suits_notUncovered.sumFactorise inherited_true all).bind fun _ _ => ?_
  refine (suits_notUncovered.makeSum inherited_true all).bind fun _ _ => ?_
  exact suits_notUncovered.sumOver inherited_true (fun _ _ => trivial) trivial

omit [StrictSame K] in
theorem covering_optimalAtomics : Covering (optimalAtomics ms linear) := by
  have cost (cover : List (Expr K)) : Covering (coverCost linear cover) :=
    (covering_mapM fun _ _ => Rewrite.meets_pointCount suits_notUncovered.plain).bind fun _ _ => meets_pure trivial
  have search (ms : List (Monomial K)) : ∀ chosen s, Covering (searchCovers linear chosen ms s) := by
    induction ms with
    | nil =>
      intro chosen s
      refine (cost _).bind fun _ _ => (cost _).bind fun _ _ => ?_
      exact meets_ite (fun _ => meets_pure trivial) fun _ => meets_pure trivial
    | cons m ms ih =>
      intro chosen s
      refine meets_ite (fun _ => ih _ _) fun _ => meets_ite (fun _ => ?_) fun _ => meets_pure trivial
      exact meets_foldlM trivial fun s a _ _ => meets_ite (fun _ => meets_pure trivial) fun _ => ih _ _
  exact (search _ _ _).bind fun _ _ => meets_pure trivial

theorem covering_refactor {g : Expr K × List (Monomial K)} (h : ∀ subs, Covering (treat subs)) :
    Covering (refactor treat linear is g) := by
  refine (h _).bind fun subs _ => ?_
  split
  · exact meets_pure trivial
  · exact covering_toExpr.bind fun e _ => meets_ite (fun _ => meets_pure trivial) fun _ => meets_pure trivial

theorem covering_optimiseStep (h : ∀ subs, Covering (treat subs)) : Covering (optimiseStep linear treat ms) := by
  refine Meets.bind (Q := fun _ => True) ?_ fun _ _ => ?_
  · exact meets_ite (fun _ => meets_pure trivial) fun _ => meets_throw (by simp [NotUncovered])
  refine (covering_optimalAtomics.yields (yields_optimalAtomics atomics_ne_nil_of_active)).bind fun common covers => ?_
  rw [factoriseWith_eq covers]
  refine Meets.bind (Q := fun _ => True) (meets_ite (fun _ => meets_pure trivial) fun _ => ?_) fun _ _ => meets_pure trivial
  exact covering_mapM fun g _ => covering_refactor h

theorem covering_optimisedExpr : Covering (optimisedExpr ms linear) := by
  have within (n : Nat) : ∀ ms : List (Monomial K), Covering ((optimiseStep linear)^[n] (fun _ => pure []) ms) := by
    induction n with
    | zero => exact fun _ => meets_pure trivial
    | succ n ih =>
      intro ms
      rw [Function.iterate_succ_apply']
      exact covering_optimiseStep ih
  refine (covering_mapM fun g _ => ?_).bind fun _ _ => covering_toExpr
  change Covering (optimise g.2 linear)
  rw [← iterate_optimiseStep_eq (fun _ => pure []) length_le_depth]
  exact within _ _

end Covering

/-! ## The factorised sum -/

/-- Factorisation keeps the sum of the values of the monomials. Its recursion comes to an end after as many levels as a monomial
has atomics, and solves its equation; at each level every monomial is in the group of one of its atomics, and none is refused for
having no chosen one. -/
theorem optimisedExpr_preserves_sum (ms : List (Monomial K)) (linear : List Index) (s : Session)
    (proper : ∀ m ∈ ms, Proper s.extents m) :
    (∀ r s', (optimisedExpr ms linear).run.run s = (.ok r, s') →
      r.shape = [] ∧ ∀ (env : Environment K) (ρ : Valuation), r.value env ρ [] = (ms.map (value env s.extents ρ)).sum) ∧
    (∀ group : List (Monomial K), optimise group linear = optimiseStep linear (fun subs => optimise subs linear) group ∧
      ∀ n bottom, (∀ m ∈ group, m.atomics.length ≤ n) → (optimiseStep linear)^[n + 1] bottom group = optimise group linear) ∧
    (∀ active : List (Monomial K), (∀ m ∈ active, m.atomics ≠ []) → Yields (optimalAtomics active linear) fun common =>
      ((shares common active).flatMap Prod.snd).Perm active ∧ (∀ g ∈ shares common active, ∀ m ∈ g.2, g.1 ∈ m.atomics) ∧
      ∀ treat, factoriseWith treat active common linear = if common.isEmpty || active.length ≤ 1 then pure active
        else (shares common active).mapM (refactor treat linear ((active.head?.map sumIndices).getD []))) ∧
    ∀ s' s'', (optimisedExpr ms linear).run.run s' ≠
      (.error (.requirement "Expect at least one optimal atomic per monomial."), s'') := by
  refine ⟨fun r s' run => ?_, fun group => ⟨optimise_eq group, fun n bottom => iterate_optimiseStep_eq bottom⟩, ?_, ?_⟩
  · have denotes := (ensures_optimisedExpr proper s rfl r s' run).2
    exact ⟨denotes.scalar, denotes.value⟩
  · intro active atomics_ne_nil
    refine (yields_optimalAtomics atomics_ne_nil).mono fun common covers => ?_
    obtain ⟨perm, groups⟩ := shares_spec covers
    exact ⟨perm, fun g hg m hm => ((groups g hg).2 m hm).2, fun treat => factoriseWith_eq covers⟩
  · intro s' s'' run
    exact covering_optimisedExpr s' _ s'' trivial run rfl

theorem wellFormed_entryOf (name : String) : (entryOf name).WellFormed (oneIndex 2).extents :=
  wellFormed_indexed (wellFormed_leaf trivial rfl) ⟨.cons (.inr rfl) .nil, by simp⟩ (by simp)

theorem proper_sharedFactor : ∀ m ∈ sharedFactor, Proper (oneIndex 2).extents m := by
  have entries (name name' : String) : Proper (oneIndex 2).extents ⟨[], [entryOf name, entryOf name'], one⟩ := by
    refine ⟨fun t ht => ?_, fun hi => absurd hi not_mem_nil⟩
    simp only [parts, cons_append, nil_append, mem_cons, not_mem_nil, or_false] at ht
    rcases ht with rfl | rfl | rfl
    · exact ⟨wellFormed_entryOf name, rfl⟩
    · exact ⟨wellFormed_entryOf name', rfl⟩
    · exact ⟨wellFormed_leaf trivial rfl, rfl⟩
  exact forall_mem_cons.2 ⟨entries "u" "w", forall_mem_singleton.2 (entries "v" "w")⟩

/-- Two products with a common factor, of which the atomics are used up after two levels. -/
theorem optimisedExpr_preserves_sum_sharedFactor :
    (∀ r s', (optimisedExpr sharedFactor [⟨0⟩]).run.run (oneIndex 2) = (.ok r, s') → ∀ (env : Environment ℚ) (ρ : Valuation),
      r.value env ρ [] = env.tensor "u" [some 2] [ρ ⟨0⟩] * env.tensor "w" [some 2] [ρ ⟨0⟩] +
        env.tensor "v" [some 2] [ρ ⟨0⟩] * env.tensor "w" [some 2] [ρ ⟨0⟩]) ∧
    ∀ bottom, (optimiseStep [⟨0⟩])^[3] bottom sharedFactor = optimise sharedFactor [⟨0⟩] := by
  obtain ⟨values, recursion, -⟩ := optimisedExpr_preserves_sum sharedFactor [⟨0⟩] (oneIndex 2) proper_sharedFactor
  refine ⟨fun r s' run env ρ => ?_, fun bottom => (recursion sharedFactor).2 2 bottom (by decide)⟩
  have entry : ∀ name, (entryOf name).value env ρ [] = env.tensor name [some 2] [ρ ⟨0⟩] := fun name => by
    simp [entryOf, Expr.position]
  rw [(values r s' run).2]
  simp [sharedFactor, Monomial.value, Valuation.runs_nil, entry, Build.value_one]

end Monomial

end FormCompiler
