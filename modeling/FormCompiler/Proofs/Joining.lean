import FormCompiler.Proofs.Association

/-!
# Sums and products of many operands

Operands are joined by an associative operator, those with the same indices first and then the cheapest pairs. Whatever
the order, an expression that is returned has the total of the operands as its value, at all points: sums, products and
sums over indices are only ever folded where nothing can be undefined. Of the extents of the indices nothing has to be
known for that, since sums over indices without an extent or without positions are refused.
-/

namespace FormCompiler

open FormCompiler.Expr List Build

namespace Expr

variable {K : Type} [Scalar K] [Field K]

/-- Well-formed scalars. -/
def Scalars (extent : Index → Extent) (ts : List (Expr K)) : Prop := ∀ t ∈ ts, WellFormed extent t ∧ t.shape = []

/-- A well-formed scalar that has the given value in each environment. -/
structure Denotes (extent : Index → Extent) (f : Environment K → Valuation → K) (r : Expr K) : Prop where
  fits : WellFormed extent r
  scalar : r.shape = []
  value (env : Environment K) (ρ : Valuation) : r.value env ρ [] = f env ρ

variable {extent : Index → Extent} {f g : Environment K → Valuation → K} {r : Expr K}

theorem Denotes.congr (h : Denotes extent f r) (same : ∀ env ρ, f env ρ = g env ρ) : Denotes extent g r :=
  ⟨h.fits, h.scalar, fun env ρ => (h.value env ρ).trans (same env ρ)⟩

omit [Field K] in
theorem Scalars.append {ts us : List (Expr K)} (ht : Scalars extent ts) (hu : Scalars extent us) : Scalars extent (ts ++ us) :=
  forall_mem_append.2 ⟨ht, hu⟩

omit [Field K] in
theorem Scalars.sub {ts us : List (Expr K)} (h : Scalars extent ts) (sub : us ⊆ ts) : Scalars extent us :=
  fun u hu => h u (sub hu)

theorem Denotes.scalars (h : Denotes extent f r) : Scalars extent [r] :=
  forall_mem_singleton.2 ⟨h.fits, h.scalar⟩

end Expr

namespace Build

variable {K : Type} [Scalar K] [Field K] [Exact K] {extent : Index → Extent} {a b body : Expr K}

theorem ensures_sum_denotes (ha : WellFormed extent a) (hb : WellFormed extent b) :
    Ensures extent (sum a b) (Denotes extent fun env ρ => a.value env ρ [] + b.value env ρ []) :=
  (ensures_sum (w := fun _ => True) ha hb).mono fun _ hr => ⟨hr.fits, hr.shape, fun env ρ => (hr.value env ρ).trans (value_binary ..)⟩

/-! ## Sums over indices -/

variable {is : List Index}

omit [Field K] [Exact K] in
/-- A sum over an index without positions is refused, unless there is nothing to sum. -/
theorem ensures_sumOver_empty {i : Index} (hi : i ∈ is) (empty : ∀ n, extent i = some n → n = 0) :
    Ensures extent (sumOver body is) fun r => body.isZero = true ∧ body.shape = [] ∧ r = body := by
  unfold sumOver indexSum
  refine ensures_requireScalar.bind fun _ scalar => ?_
  refine ensures_ite (fun zero => ensures_pure ⟨zero, scalar, rfl⟩) fun _ => ?_
  rw [mapM_map]
  refine (ensures_mapM (S := fun i b => b.1 = i ∧ extent i = some b.2) fun i _ => ?_).bind fun bs hbs => ?_
  · exact ensures_knownExtent.bind fun n hn => ensures_pure ⟨rfl, hn⟩
  obtain ⟨b, hb, -, known⟩ := exists_of_forall₂ hbs hi
  have zero : b.2 = 0 := empty b.2 known
  have single : b ∈ bs.filter fun b => decide (b.2 ≤ 1) := mem_filter.2 ⟨hb, by simp [zero]⟩
  refine ensures_ite (fun _ => ensures_require.bind fun _ one => ?_) fun none => ?_
  · have product : ((bs.filter fun b => decide (b.2 ≤ 1)).map Prod.snd).prod = 0 :=
      prod_eq_zero (mem_map.2 ⟨b, single, zero⟩)
    rw [prod_eq_foldl, foldl_map] at product
    rw [product] at one
    cases one
  · simp [ne_nil_of_mem single] at none

omit [Exact K] in
/-- A sum over indices that is returned has the sum of the values of its body. -/
theorem ensures_sumOver_denotes (hb : WellFormed extent body) (nonneg : ∀ i ∈ is, ∀ n, extent i = some n → 0 ≤ n) :
    Ensures extent (sumOver body is)
      (Denotes extent fun env ρ => ((ρ.runs extent is).map fun σ => body.value env σ []).sum) := by
  by_cases positive : ∀ i ∈ is, ∃ n, extent i = some n ∧ 0 < n
  · have bounds : Bounds extent (bindersOf (Bounds.sizes extent) is) := by
      refine ⟨fun hb => ?_, fun hb => ?_⟩ <;>
      · obtain ⟨i, hi, rfl⟩ := mem_map.1 hb
        obtain ⟨n, known, pos⟩ := positive i hi
        simp only [Bounds.sizes, known, Option.getD_some]
        first
        | omega
        | exact congrArg some (by simp; omega)
    have sum : Ensures extent (sumOver body _) _ := ensures_sumOver (w := fun _ => True) hb bounds
    rw [map_fst_bindersOf] at sum
    exact sum.mono fun r hr => ⟨hr.fits, hr.shape, fun env ρ => (hr.value env ρ).trans (value_indexSum ..)⟩
  · obtain ⟨i, hi, empty⟩ := by simpa only [not_forall] using positive
    refine (ensures_sumOver_empty hi fun n known => ?_).mono fun r hr => ?_
    · have := nonneg i hi n known
      have : ¬ 0 < n := fun pos => empty ⟨n, known, pos⟩
      omega
    · obtain ⟨zero, scalar, rfl⟩ := hr
      obtain ⟨shape, rfl⟩ := isZero_iff.1 zero
      exact ⟨hb, scalar, fun env ρ => by simp⟩

end Build

/-! ## Many operands -/

namespace Rewrite

variable {K : Type} [Scalar K] [Field K] {extent : Index → Extent} {ts : List (Expr K)}

/-- The sum of the values of operands. -/
def sumAt (ts : List (Expr K)) (env : Environment K) (ρ : Valuation) : K := (ts.map fun t => t.value env ρ []).sum

/-- Groups of operands may be replaced by the sums of their members. -/
theorem sumAt_flatten {gs : List (List (Expr K))} {rs : List (Expr K)} (made : Forall₂ (fun g r => Denotes extent (sumAt g) r) gs rs)
    (env : Environment K) (ρ : Valuation) : sumAt gs.flatten env ρ = sumAt rs env ρ := by
  induction made with
  | nil => rfl
  | cons here _ ih =>
    simp only [sumAt, flatten_cons, map_append, sum_append, map_cons, sum_cons] at ih ⊢
    rw [ih, here.value, sumAt]

variable [Exact K]

theorem joins_sum {t : Session} (size : t.extents = extent) : Joins (K := K) (fun s => s.indices = t.indices) (fun _ => True)
    Build.sum (fun a => WellFormed extent a ∧ a.shape = []) fun ts r => Denotes extent (sumAt ts) r where
  plain _ := trivial
  single good := ⟨good.1, good.2, fun _ _ => (sum_singleton).symm⟩
  perm same made := made.congr fun env ρ => (same.map _).sum_eq
  pair ha hb := ensures_iff_meets.1 ((ensures_sum_denotes ha.1 hb.1).mono fun c hc => ⟨⟨hc.fits, hc.scalar⟩, fun made =>
    made.congr fun env ρ => by simp only [sumAt, map_cons, sum_cons, hc.value, add_assoc]⟩) t size

theorem ensures_makeSum (scalars : Scalars extent ts) :
    Ensures extent (makeSum ts) (Denotes extent fun env ρ => (ts.map fun t => t.value env ρ []).sum) := by
  refine ensures_iff_meets.2 fun t size => ((joins_sum size).meets_joinGroups scalars).bind fun us grouped => ?_
  obtain ⟨good, gs, perm, made⟩ := grouped
  refine ((joins_sum size).meets_associate good).bind fun p total => meets_pure (total.2.congr fun env ρ => ?_)
  rw [← sumAt_flatten made]
  exact (perm.map _).sum_eq

/-- A product that is not summed over. -/
theorem ensures_makeProduct (scalars : Scalars extent ts) :
    Ensures extent (makeProduct ts) (Denotes extent fun env ρ => (ts.map fun t => t.value env ρ []).prod) := by
  have within : Within (fun _ => True) extent ts := ⟨fun ht => (scalars _ ht).1, fun ht => (scalars _ ht).2, fun _ _ => trivial⟩
  refine (ensures_sumFactorise within nodup_nil nofun).mono fun r made => ?_
  refine ⟨made.within.fits mem_cons_self, made.within.scalar mem_cons_self, fun env ρ => ?_⟩
  simpa [productAt, Valuation.runs_nil] using made.total env ρ

end Rewrite

end FormCompiler
