import FormCompiler.Proofs.Assigned
import FormCompiler.Proofs.Factors
import FormCompiler.Proofs.Occurrences
import FormCompiler.Proofs.Placement

/-!
# Contraction

A product is taken apart, the sums against deltas are carried out, and what is left is summed in another order. Each step
has the value of what it started from, as long as indices are bound once and stand in their ranges. Where listed tensors
are read at free indices, the entries are treated one by one, and the expression is the entry at which the indices stand.
-/

namespace FormCompiler

open FormCompiler.Expr List Build

namespace Build

/-- What a computation that keeps the indices ensures, and what it leads to in each session. -/
theorem Ensures.and_leads {α : Type} {extent : Index → Extent} {x : Build α} {P : α → Prop} {Q : Session → α → Session → Prop}
    (h : Ensures extent x P) (leads : ∀ s, s.extents = extent → Leads s x (Q s)) :
    Ensures extent x fun a => P a ∧ ∃ s s', s'.extents = extent ∧ Q s a s' := by
  intro s hs a s' run
  obtain ⟨same, ha⟩ := h s hs a s' run
  exact ⟨same, ha, s, s', (Session.extents_congr same).trans hs, (leads s hs a s' run).2⟩

end Build

namespace Rewrite

variable {K : Type} {extent : Index → Extent} {inside : Int → Expr K → Prop} {w : Index → Prop} {e r : Expr K}

/-! ## Reads in range -/

/-- A delta whose sides are not paired, or an indexing out of the range of a dimension. -/
def Strays (extent : Index → Extent) (inside : Int → Expr K → Prop) : Expr K → Prop
  | .delta i j => ¬ Paired extent inside i j
  | .indexed t slots =>
    ¬ Forall₂ (fun (n : Extent) slot => ∀ m, n = some m → 0 < m → Fills extent inside m slot) t.shape slots
  | _ => False

/-- The sides of deltas are paired, and tensors are read in range. -/
def InRange (extent : Index → Extent) (inside : Int → Expr K → Prop) : Expr K → Prop := Lacks (Strays extent inside)

theorem rare_strays : Rare (Strays extent inside) := by
  refine ⟨fun {e} here => ?_, fun here => here.elim, fun {t ks} positions => not_not.2 ?_⟩
  · cases e with
    | delta i j => exact .inr (.inl ⟨i, j, rfl⟩)
    | indexed t slots => exact .inr (.inr ⟨t, slots, rfl⟩)
    | _ => exact here.elim
  · exact forall₂_map_right_iff.2 positions

/-- Rules whose slots fill the ranges of their indices keep reads in range. -/
theorem guards_strays [Scalar K] : Guards extent (Strays extent inside) fun _ rules => Filling extent inside rules where
  restrict h p hp := h p (mem_of_mem_filter hp)
  delta pair h ne := not_not.2 ((not_not.1 pair).applySlot h ne)
  read {t t' slots rules} read h shape := by
    refine not_not.2 ?_
    rw [shape]
    exact forall₂_map_right_iff.2 ((not_not.1 read).imp fun n slot fills m size pos => (fills m size pos).applySlot h)
  inline {body bs slots rules} fits read h := by
    have node := (fits.child mem_cons_self).here
    have fills : Forall₂ (fun (b : Binder) slot => ∀ m, some b.2 = some m → 0 < m → Fills extent inside m slot) bs slots :=
      forall₂_map_left_iff.1 (not_not.1 read)
    refine h.insertAll node.extent (forall₂_iff_zip.2 ⟨fills.length_eq, fun {b slot} mem => ?_⟩)
    exact forall₂_zip fills mem b.2 rfl (node.pos (of_mem_zip mem).1)
  child h _ := h

theorem InRange.paired {i j : Slot (Expr K)} (h : InRange extent inside (.delta i j)) : Paired extent inside i j := not_not.1 h.here

/-! ## What is contracted -/

/-- A scalar that can be contracted: it binds its indices once, reads are in range, and free indices have positions. -/
structure Contractible [Scalar K] (extent : Index → Extent) (inside : Int → Expr K → Prop) (e : Expr K) : Prop where
  fits : WellFormed extent e
  scalar : e.shape = []
  unique : Unique e
  ranged : InRange extent inside e
  known {i : Index} : i ∈ e.freeIndices → ∃ n, extent i = some n ∧ 0 < n

namespace Contractible

section Parts

variable [Scalar K] {op : BinaryOp} {a b c body : Expr K} {bs : List Binder}

theorem operand (h : Contractible extent inside (.binary op a b)) (hc : c ∈ [a, b]) : Contractible extent inside c := by
  have shape : a.shape = [] ∧ b.shape = [] := h.fits.here
  have free : c.freeIndices ⊆ (Expr.binary op a b).freeIndices := fun i hi =>
    mem_freeIndices_iff.2 (.inr ⟨⟨c, hc, hi⟩, not_mem_nil⟩)
  refine ⟨h.fits.child hc, ?_, h.unique.mono (bound_child hc) free, h.ranged.child hc, fun hi => h.known (free hi)⟩
  rcases mem_pair.1 hc with rfl | rfl
  · exact shape.1
  · exact shape.2

theorem summand (h : Contractible extent inside (.indexSum body bs)) : Contractible extent inside body := by
  have node := h.fits.here
  have once := h.unique.once
  rw [bound_indexSum] at once
  obtain ⟨-, own, apart⟩ := Multiset.nodup_add.1 once
  have cases_ : ∀ {i}, i ∈ body.freeIndices → i ∈ bs.map Prod.fst ∨ i ∈ (indexSum body bs).freeIndices := fun {i} hi =>
    (Classical.em (i ∈ bs.map Prod.fst)).imp id fun out => mem_freeIndices_indexSum.2 ⟨hi, out⟩
  refine ⟨h.fits.child mem_cons_self, node.scalar, ⟨own, fun hi mem => ?_⟩, h.ranged.child mem_cons_self, fun hi => ?_⟩
  · rcases cases_ hi with bound | free
    · exact Multiset.disjoint_left.1 apart (Multiset.mem_coe.2 bound) mem
    · exact h.unique.free free (Multiset.mem_of_le (bound_child mem_cons_self) mem)
  · rcases cases_ hi with bound | free
    · obtain ⟨b, hb, rfl⟩ := mem_map.1 bound
      exact ⟨b.2, node.extent hb, node.pos hb⟩
    · exact h.known free

end Parts

variable [Scalar K] [Field K]

theorem refine (h : Contractible extent inside e) (refines : Refines w extent e r) (less : r.bound ≤ e.bound)
    (ranged : InRange extent inside r) : Contractible extent inside r :=
  ⟨refines.fits, refines.shape.trans h.scalar, h.unique.mono less refines.free, ranged, fun hi => h.known (refines.free hi)⟩

end Contractible

variable [Scalar K] [Field K] [Exact K]

theorem ensures_inlineComponents_contractible {es : List (Expr K)} (h : ∀ e ∈ es, Contractible extent inside e) :
    Ensures extent (inlineComponents es) fun rs =>
      Forall₂ (fun e r => Refines w extent e r ∧ r.bound ≤ e.bound ∧ Contractible extent inside r) es rs := by
  have fits : ∀ e ∈ es, e.WellFormed extent := fun e he => (h e he).fits
  have scopes : ∀ e ∈ es, e.Unshadowed := fun e he => (h e he).unique.unshadowed
  have guards : Guards extent (Strays extent inside) _ := guards_strays
  refine ((ensures_inlineComponents_lacks (w := w) rare_strays guards fits scopes).both
    (ensures_inlineComponents_bound (w := w) fits scopes)).mono fun rs hrs => ?_
  refine forall₂_iff_zip.2 ⟨hrs.1.length_eq, fun {e r} mem => ?_⟩
  obtain ⟨refines, ranged⟩ := forall₂_zip hrs.1 mem
  have less := (forall₂_zip hrs.2 mem).2
  have pre := h e (of_mem_zip mem).1
  exact ⟨refines, less, pre.refine refines less (ranged ⟨pre.ranged, by rintro p ⟨⟩⟩)⟩

theorem ensures_inlineComponent_contractible (h : Contractible extent inside e) :
    Ensures extent (inlineComponent e) fun r => Refines w extent e r ∧ r.bound ≤ e.bound ∧ Contractible extent inside r := by
  have each : ∀ c ∈ [e], Contractible extent inside c := fun c hc => mem_singleton.1 hc ▸ h
  unfold inlineComponent
  refine (ensures_inlineComponents_contractible (w := w) each).bind fun rs hrs => ?_
  obtain _ | ⟨hr, _ | _⟩ := hrs
  exact ensures_pure hr

/-! ## Factors that bind their indices once -/

/-- What is taken apart from an expression, added to what there was: no index is renamed, and no more is bound than was. -/
def Splits (extent : Index → Extent) (inside : Int → Expr K → Prop) (e : Expr K) (acc : Factors K) (r : Renamer)
    (p : Factors K × Renamer) : Prop :=
  ∃ f : Factors K, p = (⟨acc.sumIndices ++ f.sumIndices, acc.terms ++ f.terms⟩, ⟨r.names, r.inUse ++ f.sumIndices⟩) ∧
    (f.sumIndices : Multiset Index) + boundIn f.terms ≤ e.bound ∧ ∀ t ∈ f.terms, InRange extent inside t

theorem ensures_collectFactors (stopAt : Expr K → Bool) (n : Nat) {acc : Factors K} {r : Renamer} (h : Contractible extent inside e)
    (unused : ∀ i ∈ e.bound, i ∉ r.inUse) :
    Ensures extent ((collectFactors stopAt n e acc).run r) (Splits extent inside e acc r) := by
  have whole : ∀ {r : Renamer} {e acc}, Contractible extent inside e →
      Ensures extent (pure (({ acc with terms := acc.terms ++ [e] } : Factors K), r)) (Splits extent inside e acc r) := by
    intro r e acc h
    exact ensures_pure ⟨⟨[], [e]⟩, by simp, by simp, fun t ht => mem_singleton.1 ht ▸ h.ranged⟩
  induction n generalizing e acc r with
  | zero => exact whole h
  | succ n ih =>
    by_cases stop : stopAt e = true
    · rw [run_collectFactors_whole _ _ _ _ (.inl stop)]
      exact whole h
    have go : stopAt e = false := by simpa using stop
    cases e with
    | indexSum body bs =>
      rw [run_collectFactors_indexSum _ _ _ _ _ _ go]
      have once := h.unique.once
      rw [bound_indexSum] at once unused
      obtain ⟨own, -, apart⟩ := Multiset.nodup_add.1 once
      rw [run_takeNames_of_unused (Multiset.coe_nodup.1 own) fun i hi => unused i (Multiset.mem_add.2 (.inl hi)), pure_bind]
      have plain : applyNames [] body = pure body := rfl
      rw [plain, pure_bind, bind_assoc]
      refine (ensures_inlineComponent_contractible (w := fun _ => True) h.summand).bind fun c hc => ?_
      obtain ⟨-, less, inner⟩ := hc
      rw [pure_bind]
      refine (ih inner fun i hi mem => ?_).mono fun p found => ?_
      · have hi := Multiset.mem_of_le less hi
        rcases mem_append.1 mem with mem | mem
        · exact unused i (Multiset.mem_add.2 (.inr hi)) mem
        · exact Multiset.disjoint_left.1 apart (Multiset.mem_coe.2 mem) hi
      · obtain ⟨f, rfl, bound, ranged⟩ := found
        refine ⟨⟨bs.map Prod.fst ++ f.sumIndices, f.terms⟩, by simp, ?_, ranged⟩
        rw [bound_indexSum, ← Multiset.coe_add, add_assoc]
        exact add_le_add_right (bound.trans less) _
    | binary op a b =>
      have left : a ∈ (Expr.binary op a b).children := mem_cons_self
      have right : b ∈ (Expr.binary op a b).children := mem_cons_of_mem _ mem_cons_self
      rw [bound_binary] at unused
      have first (acc : Factors K) (r' : Renamer) (same : r' = r) :
          Ensures extent ((collectFactors stopAt n a acc).run r') (Splits extent inside a acc r') :=
        ih (h.operand left) fun i hi => same ▸ unused i (Multiset.mem_add.2 (.inl hi))
      cases op with
      | product =>
        rw [run_collectFactors_product _ _ _ _ _ _ go]
        refine (first acc r rfl).bind fun p found => ?_
        obtain ⟨f, rfl, bound, ranged⟩ := found
        have once := h.unique.once
        rw [bound_binary] at once
        refine (ih (h.operand right) fun i hi mem => ?_).mono fun p found => ?_
        · rcases mem_append.1 mem with mem | mem
          · exact unused i (Multiset.mem_add.2 (.inr hi)) mem
          · have hi' : i ∈ a.bound := Multiset.mem_of_le ((Multiset.le_add_right _ _).trans bound) (Multiset.mem_coe.2 mem)
            exact Multiset.disjoint_left.1 (Multiset.nodup_add.1 once).2.2 hi' hi
        · obtain ⟨g, rfl, bound', ranged'⟩ := found
          refine ⟨⟨f.sumIndices ++ g.sumIndices, f.terms ++ g.terms⟩, by simp, ?_, fun t ht => ?_⟩
          · rw [bound_binary, ← Multiset.coe_add, boundIn_append, add_add_add_comm]
            exact add_le_add bound bound'
          · exact (mem_append.1 ht).elim (ranged t) (ranged' t)
      | quotient =>
        by_cases one : (a == Build.one) = true
        · rw [run_collectFactors_reciprocal _ _ _ _ _ _ one]
          exact whole h
        rw [run_collectFactors_quotient _ _ _ _ _ _ go (by simpa using one)]
        have leaf : InRange extent inside (Build.one : Expr K) := .leaf (rare_strays.spares.node rfl nofun nofun nofun) rfl
        refine ((ensures_quotient (w := fun _ => True) wellFormed_one (h.fits.child right)).and
          (Build.Suits.any.made_binary .quotient)).bind
          fun c (hc : _ ∧ Made (fun t slots => ¬ Strays extent inside (.indexed t slots)) _ [] c) => ?_
        have ranged' : InRange extent inside c :=
          hc.2.lacks rare_strays.spares (fun _ _ => id) (by simpa using ⟨leaf, (h.operand right).ranged⟩) nofun
        have less : c.bound ≤ b.bound := by simpa [bound_leaf (e := (Build.one : Expr K)) rfl] using hc.2.bound_le
        refine (first acc r rfl).bind fun p found => ?_
        obtain ⟨f, rfl, bound, ranged⟩ := found
        refine ensures_pure ⟨⟨f.sumIndices, f.terms ++ [c]⟩, by simp, ?_, fun t ht => ?_⟩
        · rw [bound_binary, boundIn_append, ← add_assoc]
          exact add_le_add bound (by simpa using less)
        · rcases mem_append.1 ht with ht | ht
          · exact ranged t ht
          · exact mem_singleton.1 ht ▸ ranged'
      | _ =>
        rw [run_collectFactors_whole _ _ _ _ (.inr (by simp))]
        exact whole h
    | _ =>
      rw [run_collectFactors_whole _ _ _ _ (.inr (by simp))]
      exact whole h

omit [Field K] [Exact K] in
theorem known_of_binds {i : Index} (fits : WellFormed extent e) (bound : Binds i e) : ∃ n, extent i = some n ∧ 0 < n := by
  have node : ∀ {d : Expr K}, NodeFits extent d → ∀ b ∈ d.ownBinders, extent b.1 = some b.2 ∧ 0 < b.2 := by
    intro d here b hb
    cases d with
    | componentTensor body bs => exact ⟨here.extent hb, here.pos hb⟩
    | indexSum body bs => exact ⟨here.extent hb, here.pos hb⟩
    | _ => cases hb
  induction bound with
  | here own =>
    obtain ⟨b, hb, rfl⟩ := mem_map.1 own
    exact ⟨b.2, node fits.here b hb⟩
  | child hc _ ih => exact ih (fits.child hc)

/-- The indices and terms that an expression is taken apart into. -/
structure Parts (extent : Index → Extent) (inside : Int → Expr K → Prop) (e : Expr K) (f : Factors K) : Prop where
  distinct : f.sumIndices.Nodup
  known : ∀ i ∈ f.sumIndices, ∃ n, extent i = some n ∧ 0 < n
  within : Within (fun i => i ∈ e.freeIndices ∨ i ∈ f.sumIndices) extent f.terms
  bound : (f.sumIndices : Multiset Index) + boundIn f.terms ≤ e.bound
  ranged {t : Expr K} : t ∈ f.terms → InRange extent inside t
  amounts {env : Environment K} {ρ : Valuation} : Defined env e ρ [] → Amounts env extent ρ f.sumIndices f.terms (value env e ρ [])

theorem ensures_factors (h : Contractible extent inside e) : Ensures extent (factors e) (Parts extent inside e) := by
  have splits : Ensures extent (factors e) fun f =>
      (f.sumIndices : Multiset Index) + boundIn f.terms ≤ e.bound ∧ ∀ t ∈ f.terms, InRange extent inside t := by
    have run : factors e = (collectFactors (fun _ => false) (e.height + 1) e {}).run { names := [] } >>= fun p => pure p.1 := rfl
    rw [run]
    refine (ensures_collectFactors _ _ h fun _ _ => not_mem_nil).bind fun p found => ensures_pure ?_
    obtain ⟨f, rfl, bound, ranged⟩ := found
    exact ⟨bound, ranged⟩
  have leads : ∀ s : Session, s.extents = extent →
      Leads s (factors e) fun f s' => Factored (fun _ => True) s.Has s' e f := by
    rintro s rfl
    refine leads_factors ⟨h.fits, h.scalar, h.unique.unshadowed, fun bound => ?_, fun hi => .inl (Session.Knows.has (h.known hi))⟩
    exact Session.Knows.has (known_of_binds h.fits bound)
  refine (splits.and_leads leads).mono fun f hf => ?_
  obtain ⟨⟨bound, ranged⟩, s, s', rfl, factored⟩ := hf
  exact ⟨factored.distinct, fun i hi => factored.known hi, factored.within, bound, fun ht => ranged _ ht, factored.amounts⟩

namespace Parts

variable {f : Factors K}

omit [Exact K]

/-- No term binds an index of another one. -/
theorem separate (h : Parts extent inside e f) (unique : Unique e) : Separate f.terms := by
  have once := Multiset.nodup_of_le h.bound unique.once
  obtain ⟨-, terms, apart⟩ := Multiset.nodup_add.1 once
  refine ⟨fun {t u} ht hu i hi binds => ?_, fun {t} ht => ?_⟩
  · have bound : i ∈ boundIn f.terms := Multiset.mem_of_le (bound_le_boundIn hu) (mem_bound.2 binds)
    rcases h.within.free ht hi with free | mem
    · exact unique.free free (Multiset.mem_of_le h.bound (Multiset.mem_add.2 (.inr bound)))
    · exact Multiset.disjoint_left.1 apart (Multiset.mem_coe.2 mem) bound
  · exact not_nested_of_nodup (Multiset.nodup_of_le (bound_le_boundIn ht) terms)

theorem cancellable (h : Parts extent inside e f) : Cancellable extent inside f.sumIndices f.terms :=
  ⟨h.distinct, h.within.fits, h.within.scalar, fun mem => (h.ranged mem).paired⟩

theorem anchored (h : Parts extent inside e f) {ρ : Valuation} (stands : ρ.Inside extent e.freeIndices) :
    Anchored extent ρ f.sumIndices f.terms := by
  intro t ht k hk out k' hk'
  rw [mem_singleton.1 hk']
  exact stands k ((h.within.free ht hk).resolve_right out)

end Parts

/-! ## Products that are rebuilt -/

variable {env : Environment K}

/-- What factors amount to is kept when sums against deltas are carried out. -/
theorem Cancels.amounts {ρ : Valuation} {is is' : List Index} {fs fs' : List (Expr K)}
    {trace : List (Index × Slot (Expr K))} {x : K} (cancels : Cancels extent is fs trace is' fs')
    (inv : Cancellable extent (Reaches env) is fs) (anchored : Anchored extent ρ is fs) (h : Amounts env extent ρ is fs x) :
    Amounts env extent ρ is' fs' x := by
  have follows : Forall₂ (Follows env "" [] trace) fs fs' := cancels.follows inv
  have anchored : Anchored extent ρ (is ++ []) fs := by rwa [append_nil]
  have back : ∀ {σ}, σ ∈ ρ.runs extent is' → retrace env trace σ ∈ ρ.runs extent is := fun hσ => by
    have before := cancels.retrace_mem inv anchored (by rwa [append_nil])
    rwa [append_nil] at before
  refine ⟨fun {σ} hσ f' hf' => ?_, ?_⟩
  · obtain ⟨f, hf, follow⟩ := Expr.exists_of_forall₂ follows.flip hf'
    exact follow.defined (h.defined (back hσ) f hf)
  · have vanish : ∀ {i j}, .delta i j ∈ fs → ∀ σ, Expr.position env σ i ≠ Expr.position env σ j → Expr.productAt env σ fs = 0 := by
      intro i j mem σ differ
      refine prod_eq_zero (mem_map.2 ⟨_, mem, ?_⟩)
      rw [Expr.value_delta, if_neg differ]
    have total := cancels.sum_eq inv anchored (fun i _ => not_mem_nil) vanish
    rw [append_nil, append_nil] at total
    rw [← h.value, total]
    exact congrArg List.sum (map_congr_left fun σ _ => Expr.productAt_congr (follows.imp fun _ _ follow => follow.value σ))

/-- A scalar with the value of another one wherever the indices stand in their ranges. -/
structure Rebuilds (env : Environment K) (extent : Index → Extent) (e r : Expr K) : Prop where
  fits : WellFormed extent r
  shape : r.shape = []
  value {ρ : Valuation} : ρ.Inside extent e.freeIndices → Defined env e ρ [] →
    Defined env r ρ [] ∧ r.value env ρ [] = e.value env ρ []

theorem ensures_rebuildProduct (h : Contractible extent (Reaches env) e) : Ensures extent (rebuildProduct e) (Rebuilds env extent e) := by
  unfold rebuildProduct
  refine (ensures_factors h).bind fun f parts => ?_
  have natural : ∀ i ∈ f.sumIndices, ∃ n : Nat, extent i = some (n : Int) := fun i hi => by
    obtain ⟨n, known, pos⟩ := parts.known i hi
    exact ⟨n.toNat, by rw [known, Int.toNat_of_nonneg pos.le]⟩
  refine (ensures_eliminateWithin (Nat.le_refl _) parts.cancellable natural).bind fun p found => ?_
  obtain ⟨trace, cancels⟩ := found
  obtain ⟨inv, separate⟩ := cancels.separate parts.cancellable (parts.separate h.unique)
  refine (ensures_inlineComponents (w := fun _ => True) (fun t ht => inv.fits ht) fun t ht => separate.unshadowed ht).bind
    fun ts hts => ?_
  have within : Within (fun _ => True) extent ts := by
    refine ⟨fun ht => ?_, fun ht => ?_, fun _ _ => trivial⟩
    · obtain ⟨t, -, refines⟩ := exists_of_forall₂ hts.flip ht
      exact refines.fits
    · obtain ⟨t, mem, refines⟩ := exists_of_forall₂ hts.flip ht
      exact refines.shape.trans (inv.scalar mem)
  refine (ensures_sumFactorise within inv.distinct fun i hi => parts.known i (cancels.sublist.subset hi)).mono fun r made => ?_
  refine ⟨made.within.fits mem_cons_self, made.within.scalar mem_cons_self, fun stands defined => made.of_amounts ?_⟩
  refine (cancels.amounts parts.cancellable (parts.anchored stands) (parts.amounts defined)).replace ?_
  exact forall₂_iff_zip.2 ⟨hts.length_eq, fun {t u} mem =>
    ⟨inv.scalar (of_mem_zip mem).1, (forall₂_zip hts mem).carries _⟩⟩

omit [Exact K] in
theorem Rebuilds.ofRefines {e₁ : Expr K} (h : Rebuilds env extent e₁ r) (refines : Refines w extent e e₁) (scalar : e.shape = []) :
    Rebuilds env extent e r := by
  refine ⟨h.fits, h.shape, fun {ρ} stands defined => ?_⟩
  obtain ⟨defined₁, value₁⟩ := (refines.carries env ρ).scalar scalar defined
  obtain ⟨defined', value'⟩ := h.value (fun i hi => stands i (refines.free hi)) defined₁
  exact ⟨defined', value'.trans value₁⟩

/-! ## Entries that are contracted one by one -/

section Listed

variable {bs : List Binder}

/-- The entry of the tensor over some indices at a position. -/
abbrev componentAt (e : Expr K) (bs : List Binder) (ks : List Int) : Expr K :=
  .indexed (.componentTensor e bs) (ks.map .fixed)

omit [Field K] [Exact K] in
/-- An entry at a position in range can be contracted. -/
theorem Contractible.componentAt (h : Contractible extent inside e) (bounds : Bounds extent bs) (distinct : (bs.map Prod.fst).Nodup)
    (free : ∀ b ∈ bs, b.1 ∈ e.freeIndices) (nonempty : bs ≠ []) {ks : List Int} (positions : Positions (bs.map fun b => some b.2) ks) :
    Contractible extent inside (componentAt e bs ks) := by
  have inner : ∀ {i}, i ∈ (Rewrite.componentAt e bs ks).freeIndices → i ∈ e.freeIndices ∧ i ∉ bs.map Prod.fst := by
    intro i hi
    rcases mem_freeIndices_indexed.1 hi with slot | body
    · obtain ⟨k, -, eq⟩ := mem_map.1 slot
      cases eq
    · exact mem_freeIndices_componentTensor.1 body
  have bound : (Rewrite.componentAt e bs ks).bound = (bs.map Prod.fst : List Index) + e.bound := by
    rw [bound_indexed, bound_componentTensor]
  refine ⟨?_, rfl, ⟨?_, fun hi mem => ?_⟩, ?_, fun hi => h.known (inner hi).1⟩
  · have slots : SlotsFit (K := K) extent (ks.map .fixed) (componentTensor e bs).shape := by
      refine ⟨forall₂_iff_zip.2 ⟨?_, fun {slot n} mem => ?_⟩, fun hr => ?_⟩
      · simpa [shape] using positions.length_eq.symm
      · obtain ⟨k, -, rfl⟩ := mem_map.1 (of_mem_zip mem).1
        trivial
      · obtain ⟨k, -, eq⟩ := mem_map.1 hr
        cases eq
    refine wellFormed_indexed (wellFormed_node ⟨h.scalar, nonempty, free _, bounds.extent, bounds.pos⟩
      (forall_mem_singleton.2 h.fits) rfl) slots fun none => ?_
    refine nonempty (length_eq_zero_iff.1 ?_)
    simpa [map_eq_nil_iff.1 none] using positions.length_eq
  · rw [bound, Multiset.nodup_add]
    refine ⟨Multiset.coe_nodup.2 distinct, h.unique.once, Multiset.disjoint_left.2 fun {i} hi mem => ?_⟩
    obtain ⟨b, hb, rfl⟩ := mem_map.1 (Multiset.mem_coe.1 hi)
    exact h.unique.free (free b hb) mem
  · rw [bound, Multiset.mem_add, Multiset.mem_coe] at mem
    obtain ⟨outer, out⟩ := inner hi
    exact mem.elim out (h.unique.free outer)
  · refine .node (not_not.2 (forall₂_map_right_iff.2 positions)) (forall_mem_singleton.2 ?_)
    refine .node (rare_strays.spares.node rfl (fun i j same => ?_) (fun t slots same => ?_) fun _ _ => trivial)
      (forall_mem_singleton.2 h.ranged)
    · cases same
    · cases same

omit [Field K] [Exact K] in
theorem ensures_entryAt (nonempty : bs ≠ []) {idx : List Nat} (length : idx.length = bs.length) :
    Ensures extent (Build.entryAt (.componentTensor e bs) idx) fun x => x = componentAt e bs (idx.map Int.ofNat) := by
  have same : (idx.map fun n => (.fixed (Int.ofNat n) : Slot (Expr K))) = (idx.map Int.ofNat).map .fixed := by
    rw [map_map]
    rfl
  unfold Build.entryAt
  rw [same]
  refine (succeeds_componentEntry (fun none => nonempty ?_) (forall₂_iff_zip.2 ⟨by simpa using length, fun {slot n} mem => ?_⟩)).ensures
  · refine length_eq_zero_iff.1 (length.symm.trans ?_)
    simpa using none
  · obtain ⟨k, -, rfl⟩ := mem_map.1 (of_mem_zip mem).1
    trivial

/-- The valuation stays as it is when binders are put where they stand. -/
theorem bind_self (ρ : Valuation) (bs : List Binder) : ρ.bind bs (bs.map fun b => ρ b.1) = ρ := by
  induction bs with
  | nil => rfl
  | cons b bs ih =>
    have same : ρ.set b.1 (ρ b.1) = ρ := by
      funext i
      rw [Valuation.set, ite_eq_right_iff]
      exact fun eq => congrArg ρ eq.symm
    rw [map_cons, Valuation.bind, headD_cons, same]
    exact ih

omit [Exact K] in
/-- The expression is the entry at which its indices stand. -/
theorem Rebuilds.listed {shape : List Nat} {zs : List (Expr K)} {t : Expr K}
    (size : bs.map (fun b => some b.2) = Shape.ofNats shape) (free : ∀ b ∈ bs, b.1 ∈ e.freeIndices) (bounds : Bounds extent bs)
    (entries : Forall₂ (fun idx z => Rebuilds env extent (componentAt e bs (idx.map Int.ofNat)) z) (tuples shape) zs)
    (tensor : Refines w extent (.listTensor shape zs) t)
    (entry : Refines w extent (.indexed t ((bs.map Prod.fst).map .free)) r) : Rebuilds env extent e r := by
  refine ⟨entry.fits, entry.shape, fun {ρ} stands defined => ?_⟩
  -- the position of the entry
  obtain ⟨idx, stand, less⟩ : ∃ idx : List Nat, idx.map Int.ofNat = bs.map (fun b => ρ b.1) ∧ Forall₂ (· < ·) idx shape := by
    refine ⟨bs.map fun b => (ρ b.1).toNat, ?_, ?_⟩
    · rw [map_map]
      exact map_congr_left fun b hb => Int.toNat_of_nonneg (stands b.1 (free b hb)).1
    · have sizes : Forall₂ (fun (b : Binder) n => some b.2 = some (Int.ofNat n)) bs shape := by
        rw [← forall₂_map_left_iff (f := fun b : Binder => some b.2) (R := fun x n => x = some (Int.ofNat n)),
          ← forall₂_map_right_iff (f := fun n => some (Int.ofNat n)) (R := Eq), forall₂_eq_eq_eq]
        exact size
      refine forall₂_map_left_iff.2 (forall₂_iff_zip.2 ⟨sizes.length_eq, fun {b n} mem => ?_⟩)
      have hb := (of_mem_zip mem).1
      have same : b.2 = Int.ofNat n := Option.some.inj (forall₂_zip sizes mem)
      obtain ⟨low, high⟩ := stands b.1 (free b hb)
      have below := high b.2 (bounds.extent hb)
      rw [same] at below
      exact (Int.toNat_lt low).2 below
  obtain ⟨z, found, made⟩ : ∃ z, zs[position shape idx]? = some z ∧ Rebuilds env extent (componentAt e bs (idx.map Int.ofNat)) z := by
    rcases getElem?_of_forall₂ entries (position shape idx) with ⟨none, -⟩ | ⟨idx', z, here, found, made⟩
    · rw [getElem?_tuples less] at none
      cases none
    · rw [getElem?_tuples less] at here
      cases here
      exact ⟨z, found, made⟩
  have slots : ((bs.map Prod.fst).map Slot.free).map (Expr.position (K := K) env ρ) = idx.map Int.ofNat := by
    rw [stand, map_map, map_map]
    rfl
  have fixed : ((idx.map Int.ofNat).map Slot.fixed).map (Expr.position (K := K) env ρ) = idx.map Int.ofNat := by
    rw [map_map]
    exact map_id _
  have entryAt : Expr.entryAt shape zs (idx.map Int.ofNat) = some z := by
    rw [Expr.entryAt, resolveAll_ofNats less]
    exact found
  -- there the entry is the expression
  have here : ρ.bind bs (idx.map Int.ofNat) = ρ := by rw [stand, bind_self]
  obtain ⟨definedZ, valueZ⟩ := made.value (ρ := ρ)
    (fun i hi => stands i ((Expr.mem_freeIndices_indexed.1 hi).elim (fun slot => by simp at slot) fun body =>
      (Expr.mem_freeIndices_componentTensor.1 body).1))
    (by rwa [Expr.defined_indexed, Expr.defined_componentTensor, fixed, here])
  rw [Expr.value_indexed, Expr.value_componentTensor, fixed, here] at valueZ
  obtain ⟨definedT, valueT⟩ := tensor.carries env ρ (idx.map Int.ofNat) (by simp [Expr.shape, Shape.ofNats, less.length_eq])
    (Expr.defined_listTensor.2 fun c hc => by
      rw [entryAt] at hc
      cases hc
      exact definedZ)
  rw [Expr.value_listTensor, entryAt] at valueT
  obtain ⟨definedR, valueR⟩ := (entry.carries env ρ).scalar rfl (by rwa [Expr.defined_indexed, slots])
  refine ⟨definedR, valueR.trans ?_⟩
  rw [Expr.value_indexed, slots, valueT]
  exact valueZ

/-- Entries that are contracted one by one have the value of the expression. -/
theorem ensures_listed (h : Contractible extent (Reaches env) e) {is : List Index} (distinct : is.Nodup)
    (free : ∀ i ∈ is, i ∈ e.freeIndices) (nonempty : is ≠ []) :
    Ensures extent (do
      let tensor ← tensorOver e is
      let some shape := Shape.toNats? tensor.shape | throw .unsupported
      let entries ← inlineComponents (← (tuples shape).mapM (entryAt tensor))
      indexedAt (← listTensor shape (← entries.mapM rebuildProduct)) is) (Rebuilds env extent e) := by
  obtain ⟨bs, rfl, bounds⟩ : ∃ bs : List Binder, bs.map Prod.fst = is ∧ Bounds extent bs := by
    refine ⟨is.map fun i => (i, (extent i).getD 0), by simp [Function.comp_def], fun {b} hb => ?_, fun {b} hb => ?_⟩
    all_goals
      obtain ⟨i, hi, rfl⟩ := mem_map.1 hb
      obtain ⟨n, known, pos⟩ := h.known (free i hi)
      simp [known, pos]
  have free : ∀ b ∈ bs, b.1 ∈ e.freeIndices := fun b hb => free b.1 (mem_map_of_mem hb)
  have nonempty : bs ≠ [] := fun none => nonempty (by rw [none, map_nil])
  refine (ensures_tensorOver_cases bounds).bind fun tensor ht => ?_
  obtain ⟨-, ht⟩ := ht
  cases ht with
  | body none => exact absurd none nonempty
  | zero zero =>
    obtain ⟨shape, rfl⟩ := isZero_iff.1 zero
    obtain ⟨b, hb⟩ := exists_mem_of_ne_nil bs nonempty
    have := free b hb
    rw [freeIndices] at this
    cases this
  | node _ _ =>
    cases found : Shape.toNats? (componentTensor e bs).shape with
    | none => exact ensures_throw
    | some shape =>
      have size : bs.map (fun b => some b.2) = Shape.ofNats shape := eq_ofNats_of_toNats? found
      refine (ensures_mapM (S := fun idx x => x = componentAt e bs (idx.map Int.ofNat)) fun idx mem => ?_).bind fun xs hxs => ?_
      · have length := (positions_tuple mem).length_eq
        rw [← size] at length
        exact ensures_entryAt nonempty (by simpa using length.symm)
      have contractible : ∀ x ∈ xs, Contractible extent (Reaches env) x := fun x hx => by
        obtain ⟨idx, mem, rfl⟩ := exists_of_forall₂ hxs.flip hx
        exact h.componentAt bounds distinct free nonempty (size ▸ positions_tuple mem)
      refine (ensures_inlineComponents_contractible (w := fun _ => True) contractible).bind fun ys hys => ?_
      refine (ensures_mapM (S := Rebuilds env extent) fun y hy => ?_).bind fun zs hzs => ?_
      · obtain ⟨x, -, -, -, pre⟩ := exists_of_forall₂ hys.flip hy
        exact ensures_rebuildProduct pre
      have entries : Forall₂ (fun idx z => Rebuilds env extent (componentAt e bs (idx.map Int.ofNat)) z) (tuples shape) zs := by
        have read : Forall₂ (fun x y => x.shape = [] ∧ Refines (fun _ => True) extent x y) xs ys :=
          forall₂_iff_zip.2 ⟨hys.length_eq, fun {x y} mem =>
            ⟨(contractible x (of_mem_zip mem).1).scalar, (forall₂_zip hys mem).1⟩⟩
        have rebuilt : Forall₂ (Rebuilds env extent) xs zs :=
          forall₂_trans (S := Rebuilds env extent) (T := Rebuilds env extent) (fun hy hz => hz.ofRefines hy.2 hy.1) read hzs
        exact forall₂_trans (fun eq rebuilds => eq ▸ rebuilds) hxs rebuilt
      have made : ∀ z ∈ zs, WellFormed extent z ∧ z.shape = [] := fun z hz => by
        obtain ⟨y, -, rebuilds⟩ := exists_of_forall₂ hzs.flip hz
        exact ⟨rebuilds.fits, rebuilds.shape⟩
      refine (ensures_listTensor (w := fun _ => True) (fun z hz => (made z hz).1) (fun z hz => (made z hz).2) ?_).bind fun t ht => ?_
      · rw [← entries.length_eq, length_tuples]
      refine (ensures_indexed (w := fun _ => True) ht.fits ⟨?_, fun hr => ?_⟩).mono fun r hr =>
        Rebuilds.listed size free bounds entries ht hr
      · rw [ht.shape]
        show Forall₂ _ _ (Shape.ofNats shape)
        rw [← size, map_map, forall₂_map_left_iff, forall₂_map_right_iff]
        exact forall₂_same.2 fun b hb => .inr (bounds.extent hb)
      · obtain ⟨i, -, eq⟩ := mem_map.1 hr
        cases eq

end Listed

/-- A contracted expression has the value of the expression. -/
theorem ensures_contraction (h : Contractible extent (Reaches env) e) : Ensures extent (contraction e) (Rebuilds env extent e) := by
  unfold contraction
  refine (ensures_inlineComponent_contractible (w := fun _ => True) h).bind fun e₁ found => ?_
  obtain ⟨refines, -, h₁⟩ := found
  refine (ensures_ite (fun _ => ensures_rebuildProduct h₁) fun some => ?_).mono fun r hr => hr.ofRefines refines h.scalar
  refine ensures_listed h₁ ?_ (fun i hi => ?_) (by simpa using some)
  · exact (Program.nodup_distinct _).filter _
  · simpa using (mem_filter.1 hi).2

/-- **Contraction keeps the value.** Of a scalar that binds each index once, and none that is free, in which deltas stand
and tensors are read in range: whatever the contraction returns has the value of the expression, wherever the free indices
stand in their ranges and no zero is raised to the power zero. -/
theorem contraction_correct (fits : WellFormed extent e) (scalar : e.shape = []) (once : e.bound.Nodup)
    (apart : ∀ i ∈ e.freeIndices, i ∉ e.bound) (ranged : InRange extent (Reaches env) e)
    (known : ∀ i ∈ e.freeIndices, (extent i).isSome = true) {ρ : Valuation} (stands : ρ.Inside extent e.freeIndices)
    (defined : Defined env e ρ []) :
    Ensures extent (contraction e) fun r => r.shape = [] ∧ Defined env r ρ [] ∧ r.value env ρ [] = e.value env ρ [] := by
  have positions : ∀ {i}, i ∈ e.freeIndices → ∃ n, extent i = some n ∧ 0 < n := by
    intro i hi
    obtain ⟨n, size⟩ := Option.isSome_iff_exists.1 (known i hi)
    obtain ⟨low, high⟩ := stands i hi
    exact ⟨n, size, lt_of_le_of_lt low (high n size)⟩
  refine (ensures_contraction ⟨fits, scalar, ⟨once, fun hi => apart _ hi⟩, ranged, positions⟩).mono fun r rebuilds => ?_
  exact ⟨rebuilds.shape, rebuilds.value stands defined⟩

/-! ## A sum against a delta -/

/-- The entry `w[i₀, i₂]`, as a sum against a delta. -/
def selectedEntry : Expr ℚ :=
  .indexSum (.binary .product (.delta (.free ⟨0⟩) (.free ⟨1⟩)) (matrixEntry ⟨1⟩ ⟨2⟩)) [(⟨1⟩, 2)]

theorem bound_selectedEntry : selectedEntry.bound = {⟨1⟩} := by
  rw [selectedEntry, bound_indexSum, bound_binary, matrixEntry, bound_indexed, bound_leaf rfl,
    bound_leaf rfl]
  rfl

theorem mem_freeIndices_selectedEntry {i : Index} : i ∈ selectedEntry.freeIndices ↔ i = ⟨0⟩ ∨ i = ⟨2⟩ := by
  rw [selectedEntry, mem_freeIndices_indexSum, mem_freeIndices_binary, mem_freeIndices_delta,
    mem_freeIndices_matrixEntry]
  simp only [Slot.free.injEq, map_cons, map_nil, mem_singleton]
  grind

theorem wellFormed_selectedEntry : WellFormed threeIndices.extents selectedEntry := by
  have delta : WellFormed threeIndices.extents (.delta (.free ⟨0⟩) (.free ⟨1⟩) : Expr ℚ) :=
    wellFormed_leaf ⟨.inl rfl, .inl rfl⟩ rfl
  have entry : WellFormed threeIndices.extents (matrixEntry ⟨1⟩ ⟨2⟩) := wellFormed_matrixEntry rfl rfl
  have body : WellFormed threeIndices.extents (.binary .product (.delta (.free ⟨0⟩) (.free ⟨1⟩)) (matrixEntry ⟨1⟩ ⟨2⟩)) :=
    wellFormed_binary delta entry rfl rfl
  refine wellFormed_node ⟨rfl, by simp, ?_, ?_, ?_⟩ (forall_mem_singleton.2 body) rfl
  · rw [forall_mem_singleton, mem_freeIndices_binary, mem_freeIndices_delta]
    exact .inl (.inr rfl)
  · intro b hb
    rw [mem_singleton.1 hb]
    rfl
  · intro b hb
    rw [mem_singleton.1 hb]
    decide

theorem inRange_selectedEntry {inside : Int → Expr ℚ → Prop} : InRange threeIndices.extents inside selectedEntry := by
  refine .node id (forall_mem_singleton.2 (.node id (forall_mem_cons.2 ⟨?_, forall_mem_singleton.2 ?_⟩)))
  · exact .leaf (not_not.2 paired_threeIndices) rfl
  refine .node (not_not.2 ?_) (forall_mem_singleton.2 (.leaf id rfl))
  refine .cons (fun m size _ => ?_) (.cons (fun m size _ => ?_) .nil)
  all_goals
    cases size
    rfl

/-- The contraction of the sum has the value of the entry. -/
theorem contraction_selectedEntry :
    Ensures threeIndices.extents (contraction selectedEntry) fun r => r.value entrySums (fun _ => 1) [] = 3 := by
  refine (contraction_correct wellFormed_selectedEntry rfl ?_ ?_ inRange_selectedEntry ?_ ?_ ?_).mono fun r hr => hr.2.2.trans ?_
  · rw [bound_selectedEntry]
    exact Multiset.nodup_singleton _
  · intro i hi
    rw [bound_selectedEntry, Multiset.mem_singleton]
    rcases mem_freeIndices_selectedEntry.1 hi with rfl | rfl <;> decide
  · intro i hi
    rcases mem_freeIndices_selectedEntry.1 hi with rfl | rfl <;> rfl
  · intro i hi
    have size : threeIndices.extents i = some 2 := by rcases mem_freeIndices_selectedEntry.1 hi with rfl | rfl <;> rfl
    refine ⟨Int.one_nonneg, fun n known => ?_⟩
    cases size.symm.trans known
    exact one_lt_two
  · simp [selectedEntry, matrixEntry, Defined]
  · simp [selectedEntry, matrixEntry, entrySums, Valuation.ranging, Expr.position, Valuation.set, BinaryOp.apply,
      show List.range 2 = [0, 1] from rfl]
    norm_num

/-! ## A delta to the power zero -/

theorem rebuildProduct_zero : rebuildProduct (Build.zero : Expr ℚ) = pure Build.zero := by
  have taken : factors (Build.zero : Expr ℚ) = pure ⟨[], [Build.zero]⟩ := by
    simp [factors, collectFactors, Build.zero]
  have single : sumFactorise [] [(Build.zero : Expr ℚ)] = pure Build.zero := by
    simp [sumFactorise, joinGroups, groupBy, insertGroup, arrangements, contractInOrder, associate, joinCheapest]
  rw [rebuildProduct, taken, pure_bind]
  simp only [eliminateDeltas, length_nil, eliminateWithin, pure_bind, inlineComponents_zero (.inl rfl), single]

theorem contractible_deltaRead {inside : Int → Expr ℚ → Prop} : Contractible threeIndices.extents inside deltaRead := by
  have body : Contractible threeIndices.extents inside deltaPower := by
    have bound : deltaPower.bound = 0 := by
      rw [deltaPower, bound_binary, bound_leaf rfl, bound_leaf rfl]
      rfl
    refine ⟨wellFormed_deltaPower, rfl, ⟨?_, fun _ => ?_⟩, ?_, fun hi => ?_⟩
    · rw [bound]
      exact Multiset.nodup_zero
    · rw [bound]
      exact Multiset.notMem_zero _
    · exact .node id (forall_mem_cons.2 ⟨.leaf (not_not.2 paired_deltaPower) rfl, forall_mem_singleton.2 (.leaf id rfl)⟩)
    · rw [freeIndices_deltaPower, mem_singleton] at hi
      exact ⟨2, hi ▸ rfl, by decide⟩
  have bounds : Bounds threeIndices.extents [(⟨0⟩, 2)] := by
    refine ⟨fun hb => ?_, fun hb => ?_⟩ <;> rw [mem_singleton.1 hb]
    · rfl
    · decide
  have first : Positions (([(⟨0⟩, 2)] : List Binder).map fun b => some b.2) [0] := positions_zero rfl
  exact body.componentAt bounds (by simp) (by simp [freeIndices_deltaPower]) (by simp) first

/-- Zero to the power zero is one, but a power of what has become zero is folded to zero. -/
theorem contraction_deltaRead_confused : ∃ (env : Environment ℚ) (ρ : Valuation) (r : Expr ℚ),
    Contractible threeIndices.extents (Reaches env) deltaRead ∧ contraction deltaRead = pure r ∧
      r.value env ρ [] ≠ deltaRead.value env ρ [] := by
  refine ⟨⟨fun _ _ _ => 0, fun _ _ => 0, fun _ _ => 0, fun _ => 0⟩, fun _ => 0, Build.zero, contractible_deltaRead, ?_, ?_⟩
  · have none : (Build.zero : Expr ℚ).freeIndices = [] := by rw [Build.zero, Expr.freeIndices]
    simp [contraction, inlineComponent, inlineComponents_deltaRead (.inl rfl), none, rebuildProduct_zero]
  · have power : (Scalar.power 0 0 : ℚ) = 1 := by decide
    simp [deltaRead, deltaPower, Build.zero, Expr.position, BinaryOp.apply, Valuation.bind, Valuation.set, power]

end Rewrite

end FormCompiler
