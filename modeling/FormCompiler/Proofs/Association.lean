import FormCompiler.Rewrite.Association
import FormCompiler.Proofs.Amounts

/-!
# Products at low cost

Whatever order the operations are arranged in, an expression that is made of factors and indices is the product of the
factors, summed over the indices. What does not depend on an index is taken out of the sum over it.
-/

namespace FormCompiler

open FormCompiler.Expr List Build

/-! ## Members of lists -/

section Lists

variable {α κ : Type}

theorem perm_insertGroup [BEq κ] (k : κ) (a : α) (groups : List (κ × List α)) :
    ((insertGroup k a groups).flatMap Prod.snd).Perm (groups.flatMap Prod.snd ++ [a]) := by
  induction groups with
  | nil => simp [insertGroup]
  | cons g groups ih =>
    obtain ⟨l, members⟩ := g
    rw [insertGroup]
    split
    · simp only [flatMap_cons, append_assoc]
      exact perm_append_comm.append_left members
    · simp only [flatMap_cons, append_assoc]
      exact ih.append_left members

/-- Each member is in one group. -/
theorem perm_groupBy [BEq κ] (key : α → κ) (items : List α) : ((groupBy key items).flatMap Prod.snd).Perm items := by
  induction items using List.reverseRecOn with
  | nil => exact .nil
  | append_singleton items a ih =>
    rw [groupBy, foldl_append]
    exact (perm_insertGroup _ _ _).trans (ih.append_right [a])

variable {a b : α} {as : List α}

theorem perm_of_mem_selections {rest : List α} (h : (a, rest) ∈ selections as) : as.Perm (a :: rest) := by
  induction as generalizing a rest with
  | nil => cases h
  | cons b as ih =>
    rcases mem_cons.1 h with eq | h
    · cases eq
      exact .refl _
    · obtain ⟨⟨c, cs⟩, hc, eq⟩ := mem_map.1 h
      cases eq
      exact ((ih hc).cons b).trans (.swap _ _ _)

theorem perm_of_mem_arrangements {order : List α} (h : order ∈ arrangements as.length as) : as.Perm order := by
  suffices ∀ n (as order : List α), as.length = n → order ∈ arrangements n as → as.Perm order from this _ as order rfl h
  intro n
  induction n with
  | zero =>
    intro as order length h
    rw [length_eq_zero_iff.1 length, mem_singleton.1 h]
  | succ n ih =>
    intro as order length h
    obtain ⟨⟨a, rest⟩, selected, h⟩ := mem_flatMap.1 h
    obtain ⟨later, arranged, rfl⟩ := mem_map.1 h
    have perm := perm_of_mem_selections selected
    have shorter : rest.length = n := by
      have := perm.length_eq
      rw [length, length_cons] at this
      omega
    exact perm.trans ((ih rest later shorter arranged).cons a)

theorem sublist_of_mem_pairs (h : (a, b) ∈ pairs as) : [a, b].Sublist as := by
  induction as with
  | nil => cases h
  | cons c as ih =>
    rcases mem_append.1 h with h | h
    · obtain ⟨d, hd, eq⟩ := mem_map.1 h
      cases eq
      exact (singleton_sublist.2 hd).cons_cons _
    · exact (ih h).cons _

theorem perm_of_mem_pairs [BEq α] [LawfulBEq α] (h : (a, b) ∈ pairs as) : as.Perm (a :: b :: (as.erase a).erase b) := by
  have sub := sublist_of_mem_pairs h
  have first : a ∈ as := sub.subset mem_cons_self
  have second : b ∈ as.erase a := by
    have := sub.erase a
    rw [erase_cons_head] at this
    exact this.subset mem_cons_self
  exact (perm_cons_erase first).trans ((perm_cons_erase second).cons a)

end Lists

/-! ## Terms in the place of others -/

namespace Expr

variable {K : Type} [Scalar K] [Field K]

/-- Terms of which the product is that of others, summed over indices. They depend on none of those indices, and are defined if
the others are. -/
structure Contracts (extent : Index → Extent) (is : List Index) (ts us : List (Expr K)) : Prop where
  within : Within (fun i => i ∉ is ∧ ∃ t ∈ ts, i ∈ t.freeIndices) extent us
  total (env : Environment K) (ρ : Valuation) : productAt env ρ us = ((ρ.runs extent is).map fun σ => productAt env σ ts).sum
  defined {env : Environment K} {ρ : Valuation} : (∀ σ ∈ ρ.runs extent is, ∀ t ∈ ts, Defined env t σ []) → ∀ u ∈ us, Defined env u ρ []

omit [Field K] in
theorem Within.single {F : Index → Prop} {extent : Index → Extent} {t : Expr K} (fits : WellFormed extent t) (scalar : t.shape = [])
    (free : ∀ i ∈ t.freeIndices, F i) : Within F extent [t] :=
  ⟨fun ht => mem_singleton.1 ht ▸ fits, fun ht => mem_singleton.1 ht ▸ scalar, fun ht hi => free _ (mem_singleton.1 ht ▸ hi)⟩

theorem productAt_append (env : Environment K) (σ : Valuation) (ts us : List (Expr K)) :
    productAt env σ (ts ++ us) = productAt env σ ts * productAt env σ us := by
  rw [productAt, map_append, prod_append, productAt, productAt]

namespace Contracts

variable {extent : Index → Extent} {is js : List Index} {ts us vs : List (Expr K)} {a b c r : Expr K} {w : Index → Prop}

/-- What one term amounts to. -/
theorem of_amounts {env : Environment K} {ρ : Valuation} {x : K} (h : Contracts extent is ts [r]) (amounts : Amounts env extent ρ is ts x) :
    Defined env r ρ [] ∧ value env r ρ [] = x := by
  refine ⟨h.defined (fun σ hσ => amounts.defined hσ) r mem_cons_self, ?_⟩
  rw [← amounts.value, ← h.total, productAt, map_singleton, prod_singleton]

theorem refl (within : Within (fun _ => True) extent ts) : Contracts extent [] ts ts :=
  ⟨⟨within.fits, within.scalar, fun ht hi => ⟨not_mem_nil, _, ht, hi⟩⟩, fun env ρ => by simp [Valuation.runs_nil],
    fun defined => defined _ mem_cons_self⟩

theorem trans (first : Contracts extent is ts us) (second : Contracts extent js us vs) (apart : ∀ j ∈ js, j ∉ is) :
    Contracts extent (js ++ is) ts vs := by
  refine ⟨⟨second.within.fits, second.within.scalar, fun hv hi => ?_⟩, fun env ρ => ?_, fun defined => second.defined fun σ hσ =>
    first.defined fun τ hτ => defined τ ?_⟩
  · obtain ⟨out, u, hu, hi⟩ := second.within.free hv hi
    obtain ⟨outer, t, ht, hi⟩ := first.within.free hu hi
    exact ⟨by simp [out, outer], t, ht, hi⟩
  · rw [second.total, Valuation.runs_append apart, map_flatMap, flatMap_def, sum_flatten, map_map]
    exact congrArg List.sum (map_congr_left fun σ _ => first.total env σ)
  · rw [Valuation.runs_append apart]
    exact mem_flatMap.2 ⟨σ, hσ, hτ⟩

theorem perm (h : Contracts extent is ts us) (indices : ∀ i, i ∈ is ↔ i ∈ js) (terms : ts.Perm vs) : Contracts extent js vs us := by
  have runs : ∀ ρ : Valuation, (ρ.runs extent is).Perm (ρ.runs extent js) := fun ρ => Valuation.runs_perm indices
  refine ⟨h.within.mono fun i hi => ?_, fun env ρ => ?_, fun defined => h.defined fun σ hσ t ht => ?_⟩
  · obtain ⟨out, t, ht, hi⟩ := hi
    exact ⟨fun mem => out ((indices i).2 mem), t, terms.mem_iff.1 ht, hi⟩
  · rw [h.total, ((runs ρ).map _).sum_eq]
    exact congrArg List.sum (map_congr_left fun σ _ => (terms.map _).prod_eq)
  · exact defined σ ((runs _).mem_iff.1 hσ) t (terms.mem_iff.1 ht)

/-- Some of the terms may be put in the place of others first. -/
theorem before {rs : List (Expr K)} (first : Contracts extent [] ts us) (h : Contracts extent is (us ++ vs) rs) :
    Contracts extent is (ts ++ vs) rs := by
  refine ⟨h.within.mono fun i hi => ?_, fun env ρ => ?_, fun defined => h.defined fun σ hσ => forall_mem_append.2 ⟨?_, fun v hv => ?_⟩⟩
  · obtain ⟨out, t, ht, hi⟩ := hi
    rcases mem_append.1 ht with ht | ht
    · obtain ⟨-, t, ht, hi⟩ := first.within.free ht hi
      exact ⟨out, t, mem_append_left _ ht, hi⟩
    · exact ⟨out, t, mem_append_right _ ht, hi⟩
  · rw [h.total]
    refine congrArg List.sum (map_congr_left fun σ _ => ?_)
    rw [productAt_append, productAt_append, first.total, Valuation.runs_nil, map_singleton, sum_singleton]
  · refine first.defined fun τ hτ t ht => ?_
    rw [Valuation.runs_nil, mem_singleton] at hτ
    exact hτ ▸ defined σ hσ t (mem_append_left _ ht)
  · exact defined σ hσ v (mem_append_right _ hv)

/-- Terms that depend on none of the indices are taken out of the sum. -/
theorem frame (h : Contracts extent is ts us) (known : ∀ i ∈ is, ∃ n, extent i = some n ∧ 0 < n) (others : Within (· ∉ is) extent vs) :
    Contracts extent is (vs ++ ts) (vs ++ us) := by
  have fixed : ∀ {ρ σ : Valuation}, σ ∈ ρ.runs extent is → ∀ i, i ∉ is → σ i = ρ i := fun hσ _ => Valuation.eq_of_mem_runs hσ
  refine ⟨.append ⟨others.fits, others.scalar, fun hv hi => ⟨others.free hv hi, _, mem_append_left _ hv, hi⟩⟩ (h.within.mono fun i hi => ?_),
    fun env ρ => ?_, fun {env ρ} defined => forall_mem_append.2 ⟨?_, ?_⟩⟩
  · obtain ⟨out, t, ht, hi⟩ := hi
    exact ⟨out, t, mem_append_right _ ht, hi⟩
  · rw [productAt_append, h.total, ← sum_map_mul_left]
    refine congrArg List.sum (map_congr_left fun σ hσ => ?_)
    rw [productAt_append, others.productAt_congr (fixed hσ)]
  · obtain ⟨start, hstart⟩ := Valuation.exists_run known ρ
    exact others.defined_congr (fixed hstart) fun v hv => defined start hstart v (mem_append_left _ hv)
  · exact h.defined fun σ hσ t ht => defined σ hσ t (mem_append_right _ ht)

/-- Groups of terms may be replaced by the products of their members. -/
theorem flatten {gs : List (List (Expr K))} {rs : List (Expr K)} (joined : Forall₂ (fun g r => Contracts extent [] g [r]) gs rs) :
    Contracts extent [] gs.flatten rs := by
  induction joined with
  | nil => exact refl ⟨nofun, nofun, nofun⟩
  | @cons g r gs rs here _ ih =>
    have single : Within (· ∉ []) extent [r] := here.within.mono fun _ _ => not_mem_nil
    exact here.before (ih.frame nofun single)

/-- The product of two terms. -/
theorem product (h : Replaces w extent (.binary .product a b) c) : Contracts extent [] [a, b] [c] := by
  refine ⟨.single h.fits h.shape fun i hi => ⟨not_mem_nil, ?_⟩, fun env ρ => ?_, fun {env ρ} defined => ?_⟩
  · rcases mem_freeIndices_binary.1 (h.free hi) with hi | hi
    · exact ⟨a, by simp, hi⟩
    · exact ⟨b, by simp, hi⟩
  · simp [productAt, Valuation.runs_nil, h.value, BinaryOp.apply]
  · have operands := defined ρ mem_cons_self
    exact forall_mem_singleton.2 ((h.carries env ρ).scalar rfl (defined_binary.2 ⟨operands a (by simp), operands b (by simp), by simp⟩)).1

/-- The sum of a term over indices. -/
theorem sum {bs : List Binder} (bounds : Bounds extent bs) (h : Replaces w extent (.indexSum a bs) r) :
    Contracts extent (bs.map Prod.fst) [a] [r] := by
  have runs : ∀ ρ : Valuation, ρ.runs extent (bs.map Prod.fst) = ρ.ranging bs := fun ρ => by
    rw [Valuation.runs, ← bounds.eq_bindersOf]
  refine ⟨.single h.fits h.shape fun i hi => ?_, fun env ρ => ?_, fun {env ρ} defined => ?_⟩
  · obtain ⟨free, out⟩ := mem_freeIndices_indexSum.1 (h.free hi)
    exact ⟨out, a, mem_cons_self, free⟩
  · simp [productAt, runs, h.value]
  · refine forall_mem_singleton.2 ((h.carries env ρ).scalar rfl (defined_indexSum.2 fun σ hσ => ?_)).1
    exact defined σ (runs ρ ▸ hσ) a mem_cons_self

end Contracts

end Expr

/-! ## Pairs and groups -/

namespace Rewrite

section Joins

variable {K : Type} {I : Session → Prop} {E : Error → Prop} {op : Expr K → Expr K → Build (Expr K)} {Good : Expr K → Prop}
  {Made : List (Expr K) → Expr K → Prop} {ts : List (Expr K)} {a : Expr K}

/-- An operator that joins good operands: what is made of one is the operand itself, the order of operands does not matter, and two
of them may be joined first. -/
structure Joins (I : Session → Prop) (E : Error → Prop) (op : Expr K → Expr K → Build (Expr K)) (Good : Expr K → Prop)
    (Made : List (Expr K) → Expr K → Prop) : Prop where
  plain {e : Error} : e.Plain → E e
  single {a : Expr K} : Good a → Made [a] a
  perm {ts us : List (Expr K)} {r : Expr K} : ts.Perm us → Made ts r → Made us r
  pair {a b : Expr K} : Good a → Good b →
    Meets I E (op a b) fun c => Good c ∧ ∀ {us : List (Expr K)} {r : Expr K}, Made (c :: us) r → Made (a :: b :: us) r

theorem meets_pointCount (plain : ∀ {e : Error}, e.Plain → E e) {is : List Index} : Meets I E (pointCount is) fun _ => True :=
  (meets_mapM (R := fun _ => True) fun _ _ => (meets_knownExtent plain).mono fun _ _ => trivial).bind fun _ _ => meets_pure trivial

theorem meets_cheapestPair (plain : ∀ {e : Error}, e.Plain → E e) : Meets I E (cheapestPair ts) fun best => ∀ p ∈ best, p.2 ∈ pairs ts := by
  refine meets_foldlM (by simp) fun best p hp inv => (meets_pointCount plain).bind fun cost _ => ?_
  cases best with
  | none => exact meets_pure (by simpa using hp)
  | some least =>
    refine meets_pure ?_
    split
    · simpa using hp
    · exact inv

namespace Joins

variable (h : Joins I E op Good Made)

include h

/-- Operands joined pair by pair. -/
theorem meets_joinCheapest [Scalar K] [LawfulBEq (Expr K)] (n : Nat) {cost : Int} (good : ∀ t ∈ ts, Good t) :
    Meets I E (joinCheapest op n ts cost) fun p => Good p.1 ∧ Made ts p.1 := by
  fun_induction joinCheapest op n ts cost with
  | case1 => exact meets_pure ⟨good _ mem_cons_self, h.single (good _ mem_cons_self)⟩
  | case2 => exact meets_throw (h.plain trivial)
  | case3 n ts cost _ ih =>
    refine (meets_cheapestPair h.plain).bind fun best found => ?_
    cases best with
    | none => exact meets_throw (h.plain trivial)
    | some p =>
      obtain ⟨least, a, b⟩ := p
      have perm := perm_of_mem_pairs (found _ rfl)
      refine (h.pair (good a (perm.mem_iff.2 (by simp))) (good b (perm.mem_iff.2 (by simp)))).bind fun c hc => ?_
      refine (ih least a b c ?_).mono fun q made => ⟨made.1, h.perm perm.symm (hc.2 ?_)⟩
      · refine forall_mem_append.2 ⟨fun t ht => ?_, forall_mem_singleton.2 hc.1⟩
        exact good t (mem_of_mem_erase (mem_of_mem_erase ht))
      · exact h.perm (perm_append_singleton c _) made.2

theorem meets_associate [Scalar K] [LawfulBEq (Expr K)] (good : ∀ t ∈ ts, Good t) :
    Meets I E (associate op ts) fun p => Good p.1 ∧ Made ts p.1 :=
  meets_ite (fun _ => meets_throw (h.plain trivial)) fun _ => h.meets_joinCheapest _ good

/-- An operand joined with others, one after the other. -/
theorem meets_foldJoin (good : ∀ t ∈ a :: ts, Good t) : Meets I E (ts.foldlM op a) fun r => Good r ∧ Made (a :: ts) r := by
  induction ts generalizing a with
  | nil => exact meets_pure ⟨good a mem_cons_self, h.single (good a mem_cons_self)⟩
  | cons b ts ih =>
    obtain ⟨ha, hb, rest⟩ := by simpa only [forall_mem_cons] using good
    rw [foldlM_cons]
    refine (h.pair ha hb).bind fun c hc => ?_
    exact (ih (forall_mem_cons.2 ⟨hc.1, rest⟩)).mono fun r made => ⟨made.1, hc.2 made.2⟩

/-- Operands with the same indices are joined first. -/
theorem meets_joinGroups (good : ∀ t ∈ ts, Good t) : Meets I E (joinGroups op ts) fun rs =>
    (∀ r ∈ rs, Good r) ∧ ∃ gs : List (List (Expr K)), gs.flatten.Perm ts ∧ Forall₂ Made gs rs := by
  have all : ((groupBy (fun e : Expr K => e.freeIndices) ts).map Prod.snd).flatten.Perm ts := by
    rw [← flatMap_def]
    exact perm_groupBy _ ts
  refine (meets_mapM_forall₂ (S := fun g r => Good r ∧ Made g.2 r) fun g hg => ?_).mono fun rs made => ⟨fun r hr => ?_, _, all, ?_⟩
  · obtain ⟨key, members⟩ := g
    cases members with
    | nil => exact meets_throw (h.plain trivial)
    | cons t members =>
      exact h.meets_foldJoin fun u hu => good u (all.mem_iff.1 (mem_flatten.2 ⟨_, mem_map.2 ⟨_, hg, rfl⟩, hu⟩))
  · obtain ⟨g, -, here⟩ := exists_of_forall₂ made.flip hr
    exact here.1
  · exact forall₂_map_left_iff.2 (made.imp fun _ _ => And.right)

end Joins

end Joins

/-! ## Sums over indices -/

variable {K : Type} [Scalar K] [Field K] [Exact K] {extent : Index → Extent} {ts : List (Expr K)}

variable {is order : List Index} {F : Index → Prop} {cost : Int}

omit [Scalar K] [Field K] [Exact K] in
theorem ensures_pointCount : Ensures extent (pointCount is) fun _ => True :=
  ensures_iff_meets.2 fun _ _ => meets_pointCount fun _ => trivial

/-- Terms joined by products are their product. -/
theorem joins_product {t : Session} (size : t.extents = extent) : Joins (K := K) (fun s => s.indices = t.indices) (fun _ => True)
    Build.product (fun a => WellFormed extent a ∧ a.shape = []) fun ts r => Contracts extent [] ts [r] where
  plain _ := trivial
  single good := .refl (.single good.1 good.2 fun _ _ => trivial)
  perm same made := made.perm (fun _ => Iff.rfl) same
  pair ha hb := ensures_iff_meets.1 ((ensures_product (w := fun _ => True) ha.1 hb.1).mono fun _ hc =>
    ⟨⟨hc.fits, hc.shape⟩, fun made => (Contracts.product hc).before made⟩) t size

theorem ensures_associate (within : Within (fun _ => True) extent ts) :
    Ensures extent (associate Build.product ts) fun p => Contracts extent [] ts [p.1] :=
  ensures_iff_meets.2 fun _ size => ((joins_product size).meets_associate fun _ ht => ⟨within.fits ht, within.scalar ht⟩).mono
    fun _ => And.right

/-- Groups of terms with the same indices are multiplied. -/
theorem ensures_joinGroups (within : Within (fun _ => True) extent ts) :
    Ensures extent (joinGroups Build.product ts) (Contracts extent [] ts) := by
  refine ensures_iff_meets.2 fun _ size => ((joins_product size).meets_joinGroups fun _ ht => ⟨within.fits ht, within.scalar ht⟩).mono ?_
  rintro us ⟨-, gs, perm, made⟩
  exact (Contracts.flatten made).perm (fun _ => Iff.rfl) perm

/-- Contracting an index leaves terms that do not depend on it. -/
theorem ensures_contractIndex {i : Index} (within : Within (fun _ => True) extent ts) (known : ∃ n, extent i = some n ∧ 0 < n) :
    Ensures extent (contractIndex (ts, cost) i) fun p => Contracts extent [i] ts p.1 := by
  obtain ⟨n, size, pos⟩ := known
  have bounds : Bounds extent [(i, n)] := ⟨fun hb => mem_singleton.1 hb ▸ size, fun hb => mem_singleton.1 hb ▸ pos⟩
  have parts : ((ts.filter fun t => !t.freeIndices.contains i) ++ ts.filter fun t => t.freeIndices.contains i).Perm ts :=
    perm_append_comm.trans (filter_append_perm _ ts)
  have sub : ∀ {p : Expr K → Bool} {t}, t ∈ ts.filter p → t ∈ ts := fun ht => (mem_filter.1 ht).1
  have others : Within (· ∉ [i]) extent (ts.filter fun t => !t.freeIndices.contains i) := by
    refine ⟨fun ht => within.fits (sub ht), fun ht => within.scalar (sub ht), fun {u j} hu free mem => ?_⟩
    rw [mem_singleton.1 mem] at free
    simpa [free] using (mem_filter.1 hu).2
  unfold contractIndex
  refine (ensures_associate ⟨fun ht => within.fits (sub ht), fun ht => within.scalar (sub ht), fun _ _ => trivial⟩).bind
    fun p product => ?_
  refine (ensures_sumOver (w := fun _ => True) (product.within.fits mem_cons_self) bounds).bind fun t sum => ?_
  refine ensures_pointCount.bind fun _ _ => ensures_pure ?_
  have dependent : Contracts extent [i] (ts.filter fun t => t.freeIndices.contains i) [t] :=
    product.trans (.sum bounds sum) fun _ _ => not_mem_nil
  exact (dependent.frame (forall_mem_singleton.2 ⟨n, size, pos⟩) others).perm (fun _ => Iff.rfl) parts

/-- Contracting indices one after the other. -/
theorem ensures_contract (within : Within (fun _ => True) extent ts) (distinct : order.Nodup)
    (known : ∀ i ∈ order, ∃ n, extent i = some n ∧ 0 < n) :
    Ensures extent (order.foldlM contractIndex (ts, cost)) fun p => Contracts extent order ts p.1 := by
  induction order generalizing ts cost with
  | nil => exact ensures_pure (.refl within)
  | cons i order ih =>
    obtain ⟨out, distinct⟩ := nodup_cons.1 distinct
    obtain ⟨here, known⟩ := forall_mem_cons.1 known
    rw [foldlM_cons]
    refine (ensures_contractIndex within here).bind fun p step => ?_
    refine (ih (step.within.mono fun _ _ => trivial) distinct known).mono fun q rest => ?_
    refine (step.trans rest fun j hj mem => out (mem_singleton.1 mem ▸ hj)).perm (fun j => ?_) (.refl ts)
    simp [or_comm]

/-- The product of factors, summed over indices, at the least cost that was found. -/
theorem ensures_sumFactorise (within : Within (fun _ => True) extent ts) (distinct : is.Nodup)
    (known : ∀ i ∈ is, ∃ n, extent i = some n ∧ 0 < n) : Ensures extent (sumFactorise is ts) fun r => Contracts extent is ts [r] := by
  unfold sumFactorise
  refine ensures_ite (fun none => ensures_pure ?_) fun _ => ?_
  · obtain ⟨noTerms, noIndices⟩ := Bool.and_eq_true_iff.1 none
    obtain rfl := isEmpty_iff.1 noTerms
    obtain rfl := isEmpty_iff.1 noIndices
    refine ⟨.single (wellFormed_leaf trivial rfl) rfl ?_, fun env ρ => ?_, fun _ => ?_⟩
    · simp [Build.one, freeIndices]
    · simp [productAt, Valuation.runs_nil, value_one]
    · simp [Build.one, Defined]
  -- too many indices are refused
  refine (fun all : Ensures extent _ _ =>
    ensures_ite (fun _ => Ensures.bind (Q := fun _ => True) ensures_throw fun _ _ => all) fun _ => all) ?_
  refine (ensures_joinGroups within).bind fun terms grouped => ?_
  -- whatever was found so far is the product
  refine Ensures.bind (Q := fun best : Option (Expr K × Int) => ∀ p ∈ best, Contracts extent is ts [p.1]) ?_ fun best found => ?_
  · refine ensures_foldlM (by simp) fun best order horder found => ?_
    have arranged := perm_of_mem_arrangements horder
    have here : Ensures extent (contractInOrder terms order) fun p => Contracts extent is ts [p.1] := by
      refine (ensures_contract (grouped.within.mono fun _ _ => trivial) (arranged.nodup_iff.1 distinct)
        fun i hi => known i (arranged.mem_iff.2 hi)).bind fun p contracted => ?_
      refine (ensures_associate (contracted.within.mono fun _ _ => trivial)).bind fun q product => ensures_pure ?_
      exact (grouped.trans (contracted.trans product (by simp)) fun _ _ => not_mem_nil).perm
        (fun i => by simp [arranged.mem_iff]) (.refl ts)
    refine here.bind fun p product => ?_
    cases best with
    | none => exact ensures_pure (by simpa using product)
    | some least =>
      refine ensures_pure ?_
      split
      · simpa using product
      · exact found
  · cases best with
    | none => exact ensures_throw
    | some p => exact ensures_pure (found p rfl)

end Rewrite

end FormCompiler
