import FormCompiler.Proofs.Substituting

/-!
# Products taken apart

A product is taken apart into indices and terms: it is the product of the terms, summed over the indices. Indices that clash
get names that are not visible. Free indices are not in use, so that an index which is bound next to them has to be another one.
-/

namespace FormCompiler

open FormCompiler.Expr List Build

namespace Rewrite

variable {K : Type} {w V : Index → Prop} {s : Session}

/-! ## What can be taken apart -/

/-- A product that can be taken apart while some indices are in use: what it binds is visible, and its other indices are
visible or in use. -/
structure Factorable [Scalar K] (V : Index → Prop) (inUse : List Index) (s : Session) (e : Expr K) : Prop where
  fits : WellFormed s.extents e
  scalar : e.shape = []
  scopes : Unshadowed e
  bound {i : Index} : Binds i e → V i
  free {i : Index} : i ∈ e.freeIndices → V i ∨ i ∈ inUse

namespace Factorable

variable [Scalar K] {inUse : List Index} {e : Expr K}

theorem grows {s' : Session} (h : Factorable V inUse s e) (grows : s.Grows s') : Factorable V inUse s' e :=
  { h with fits := grows.wellFormed h.fits }

theorem mono {inUse' : List Index} (h : Factorable V inUse s e) (sub : inUse ⊆ inUse') : Factorable V inUse' s e :=
  { h with free := fun hi => (h.free hi).imp id (fun mem => sub mem) }

theorem operand {op : BinaryOp} {a b c : Expr K} (h : Factorable V inUse s (.binary op a b)) (hc : c ∈ [a, b]) :
    Factorable V inUse s c := by
  have shape : a.shape = [] ∧ b.shape = [] := h.fits.here
  refine ⟨h.fits.child hc, ?_, h.scopes.child hc, fun bound => h.bound (.child hc bound),
    fun hi => h.free (mem_freeIndices_iff.2 (.inr ⟨⟨c, hc, hi⟩, not_mem_nil⟩))⟩
  rcases mem_pair.1 hc with rfl | rfl
  · exact shape.1
  · exact shape.2

end Factorable

variable [Scalar K] [Field K]

/-- Indices and terms that a product was taken apart into. -/
structure Factored (w V : Index → Prop) (s : Session) (e : Expr K) (f : Factors K) : Prop where
  distinct : f.sumIndices.Nodup
  known {i : Index} : i ∈ f.sumIndices → s.Knows i
  own {i : Index} : i ∈ f.sumIndices → Binds i e ∨ ¬ V i
  within : Within (fun i => i ∈ e.freeIndices ∨ i ∈ f.sumIndices) s.extents f.terms
  simpler {t : Expr K} : t ∈ f.terms → Simpler w t e
  scopes {t : Expr K} : t ∈ f.terms → Unshadowed t
  amounts {env : Environment K} {ρ : Valuation} : Defined env e ρ [] →
    Amounts env s.extents ρ f.sumIndices f.terms (value env e ρ [])

namespace Factored

variable {e a b c : Expr K} {f g : Factors K}

/-- An expression is the product of itself. -/
theorem single (fits : WellFormed s.extents e) (scalar : e.shape = []) (scopes : Unshadowed e) : Factored w V s e ⟨[], [e]⟩ where
  distinct := .nil
  known h := absurd h not_mem_nil
  own h := absurd h not_mem_nil
  within := ⟨fun h => mem_singleton.1 h ▸ fits, fun h => mem_singleton.1 h ▸ scalar,
    fun h hi => .inl (mem_singleton.1 h ▸ hi)⟩
  simpler {t} h := by
    rw [mem_singleton.1 h]
    exact .refl e
  scopes h := mem_singleton.1 h ▸ scopes
  amounts defined := .single defined

theorem grows {s' : Session} (h : Factored w V s e f) (grows : s.Grows s') : Factored w V s' e f :=
  { h with
    known := fun hi => grows.knows (h.known hi)
    within := h.within.grows grows
    amounts := fun defined => (h.amounts defined).grows grows fun _ hi => h.known hi }

/-- Factors of the first operand and of what the second one is a factor of, with their indices kept apart, are factors of the
operation. -/
theorem append {op : BinaryOp} {inUse : List Index} (pre : Factorable V inUse s (.binary op a b)) (first : Factored w V s a f)
    (second : Factored w V s c g) (unused : ∀ i ∈ f.sumIndices, i ∉ inUse) (unused' : ∀ i ∈ g.sumIndices, i ∉ inUse ++ f.sumIndices)
    (simpler : Simpler w c b) (within : c.freeIndices ⊆ b.freeIndices) (mul : ∀ env ρ, Defined env b ρ [] →
      Defined env c ρ [] ∧ ∀ x, op.apply x (Expr.value env b ρ []) = x * Expr.value env c ρ []) :
    Factored w V s (.binary op a b) ⟨f.sumIndices ++ g.sumIndices, f.terms ++ g.terms⟩ := by
  have left : a ∈ (Expr.binary op a b).children := mem_cons_self
  have right : b ∈ (Expr.binary op a b).children := mem_cons_of_mem _ mem_cons_self
  have visible : ∀ {i c}, c ∈ (Expr.binary op a b).children → i ∈ c.freeIndices → i ∈ (Expr.binary op a b).freeIndices := by
    intro i c hc hi
    exact mem_freeIndices_iff.2 (.inr ⟨⟨c, hc, hi⟩, not_mem_nil⟩)
  -- no index that is bound in an operand, or was taken for it, is free in an operand
  have clear : ∀ {i c d}, c ∈ (Expr.binary op a b).children → d ∈ (Expr.binary op a b).children → i ∉ inUse →
      Binds i c ∨ ¬ V i → i ∉ d.freeIndices := by
    intro i c d hc hd out own free
    rcases own with bound | hidden
    · exact pre.scopes.free i (visible hd free) (.child hc bound)
    · exact (pre.free (visible hd free)).elim hidden out
  have outer : ∀ j ∈ g.sumIndices, ¬ (j ∈ a.freeIndices ∨ j ∈ f.sumIndices) := by
    rintro j hj (free | mem)
    · exact clear right left (fun h => unused' j hj (mem_append_left _ h)) ((second.own hj).imp simpler.binds id) free
    · exact unused' j hj (mem_append_right _ mem)
  have inner : ∀ i ∈ f.sumIndices, ¬ (i ∈ c.freeIndices ∨ i ∈ g.sumIndices) := by
    rintro i hi (free | mem)
    · exact clear left right (unused i hi) (first.own hi) (within free)
    · exact unused' i mem (mem_append_right _ hi)
  have disjoint : ∀ i ∈ f.sumIndices, i ∉ g.sumIndices := fun i hi hj => inner i hi (.inr hj)
  constructor
  · exact nodup_append.2 ⟨first.distinct, second.distinct, fun i hi j hj same => disjoint i hi (same ▸ hj)⟩
  · exact fun hi => (mem_append.1 hi).elim first.known second.known
  · exact fun hi => (mem_append.1 hi).elim (fun hi => (first.own hi).imp (.child left) id)
      fun hi => (second.own hi).imp (fun bound => .child right (simpler.binds bound)) id
  · refine .append (first.within.mono fun i hi => ?_) (second.within.mono fun i hi => ?_)
    · exact hi.imp (visible left) (mem_append_left _)
    · exact hi.imp (fun free => visible right (within free)) (mem_append_right _)
  · exact fun ht => (mem_append.1 ht).elim (fun ht => (first.simpler ht).trans (.child left))
      fun ht => ((second.simpler ht).trans simpler).trans (.child right)
  · exact fun ht => (mem_append.1 ht).elim first.scopes second.scopes
  · intro env ρ defined
    obtain ⟨da, db, -⟩ := defined_binary.1 defined
    obtain ⟨dc, product⟩ := mul env ρ db
    refine ((first.amounts da).mul (second.amounts dc) first.within second.within disjoint outer inner).of_eq ?_
    rw [value_binary, product]

end Factored

/-! ## Sums under new names -/

section Names

variable {body : Expr K} {bs : List Binder} {inUse js : List Index}

omit [Field K] in
theorem Factorable.bounds (pre : Factorable V inUse s (.indexSum body bs)) : Bounds s.extents bs :=
  ⟨pre.fits.here.extent, pre.fits.here.pos⟩

variable {extent : Index → Extent}

section

omit [Field K]

omit [Scalar K] in
/-- The binders of renamed indices are among those of the sum. -/
theorem sublist_nameBinders (bounds : Bounds extent bs) (length : bs.length = js.length) :
    (nameBinders extent (relevant (changes (bs.map Prod.fst) js) body)).Sublist bs := by
  have all : nameBinders extent ((bs.map Prod.fst).zip js) = bs := by
    have split : nameBinders extent ((bs.map Prod.fst).zip js) =
        (((bs.map Prod.fst).zip js).map Prod.fst).map fun i => (i, (extent i).getD 0) := by
      rw [nameBinders, map_map]
      rfl
    rw [split, map_fst_zip (by simp [length]), map_map]
    refine (map_congr_left fun b hb => ?_).trans (map_id bs)
    simp [bounds.extent hb]
  have sub : (nameBinders extent (relevant (changes (bs.map Prod.fst) js) body)).Sublist
      (nameBinders extent ((bs.map Prod.fst).zip js)) := (filter_sublist.trans filter_sublist).map _
  rwa [all] at sub

omit [Scalar K] in
/-- Renaming the indices of a sum adds no scope. -/
theorem simpler_atNames (bounds : Bounds extent bs) (length : bs.length = js.length) :
    Simpler w (atNames extent (changes (bs.map Prod.fst) js) body) (.indexSum body bs) := by
  have child : Simpler w body (.indexSum body bs) := .child mem_cons_self
  rw [atNames]
  split
  · exact child
  · refine Simpler.entry.trans (.indexSum (.child mem_cons_self) (nil_sublist bs)
      (sublist_nameBinders bounds length) ?_)
    simp

/-- Under names that are its own or not visible, the summand stays unshadowed. -/
theorem Factorable.unshadowed_atNames (pre : Factorable V inUse s (.indexSum body bs))
    (taken : Taken V inUse (bs.map Prod.fst) js) :
    Unshadowed (atNames s.extents (changes (bs.map Prod.fst) js) body) := by
  have once : (bs.map Prod.fst).Nodup := pre.scopes.nodup_binders
  have length : bs.length = js.length := by simpa using taken.own.length_eq
  have simpler : Simpler (fun _ => True) (atNames s.extents (changes (bs.map Prod.fst) js) body) (.indexSum body bs) :=
    simpler_atNames pre.bounds length
  refine ⟨fun i hi bound => ?_, fun nested => pre.scopes.nested (simpler.nested nested)⟩
  obtain ⟨j, hj, rfl⟩ := (mem_freeIndices_atNames (nodup_changes once)).1 hi
  have seen : V (renamed (changes (bs.map Prod.fst) js) j) := pre.bound (simpler.binds bound)
  by_cases mem : j ∈ bs.map Prod.fst
  · have same := (taken.name once mem).2.resolve_right (not_not_intro seen)
    rcases binds_atNames bound with changed | below
    · exact renamed_changes_ne once (same ▸ changed) same
    · exact pre.scopes.nested (.here (.inr ⟨j, mem, body, mem_cons_self, same ▸ below⟩))
  · have same : renamed (changes (bs.map Prod.fst) js) j = j := renamed_changes_of_not_mem mem
    rw [same] at bound
    exact pre.scopes.free j (mem_freeIndices_indexSum.2 ⟨hj, mem⟩) (simpler.binds bound)

end

end Names

/-! ## Sums opened -/

/-- A sum without its binders: the summand, under names that were taken for the indices. -/
structure Opened (w V : Index → Prop) (inUse : List Index) (s : Session) (e : Expr K) (js : List Index) (body : Expr K) : Prop where
  factorable : Factorable V (inUse ++ js) s body
  simpler : Simpler w body e
  distinct : js.Nodup
  unused {j : Index} : j ∈ js → j ∉ inUse
  known {j : Index} : j ∈ js → s.Knows j
  own {j : Index} : j ∈ js → Binds j e ∨ ¬ V j
  free {i : Index} : i ∈ body.freeIndices → i ∈ e.freeIndices ∨ i ∈ js
  amounts {env : Environment K} {ρ : Valuation} : Defined env e ρ [] →
    Amounts env s.extents ρ js [body] (value env e ρ [])

variable {inUse js : List Index} {e body : Expr K} {s' : Session} {bs : List Binder} {extent : Index → Extent} {r : Renamer}
  {i j : Index}

/-- Factors of the summand are factors of the sum, with its indices. -/
theorem Opened.factored {f : Factors K} (h : Opened w V inUse s e js body)
    (grows : s.Grows s') (inner : Factored w V s' body f) (unused : ∀ i ∈ f.sumIndices, i ∉ inUse ++ js) :
    Factored w V s' e ⟨js ++ f.sumIndices, f.terms⟩ := by
  have disjoint : ∀ j ∈ js, j ∉ f.sumIndices := fun j hj mem => unused j mem (mem_append_right _ hj)
  constructor
  · exact nodup_append.2 ⟨h.distinct, inner.distinct, fun j hj i hi same => disjoint j hj (same ▸ hi)⟩
  · exact fun hi => (mem_append.1 hi).elim (fun hj => grows.knows (h.known hj)) inner.known
  · exact fun hi => (mem_append.1 hi).elim h.own fun hi => (inner.own hi).imp h.simpler.binds id
  · refine inner.within.mono fun i hi => ?_
    rcases hi with free | mem
    · exact (h.free free).imp id (mem_append_left _)
    · exact .inr (mem_append_right _ mem)
  · exact fun ht => (inner.simpler ht).trans h.simpler
  · exact inner.scopes
  · intro env ρ defined
    have outer := (h.amounts defined).grows grows fun j hj => h.known hj
    have each : ∀ σ ∈ ρ.runs s'.extents js, Amounts env s'.extents σ f.sumIndices f.terms (value env body σ []) := fun σ hσ =>
      inner.amounts (outer.defined hσ body mem_cons_self)
    refine (Amounts.nest disjoint each).of_eq ?_
    rw [← outer.value]
    exact congrArg List.sum (map_congr_left fun σ _ => by simp [productAt])

/-- What stands for the renamed summand opens the sum, if the names have the extents of the indices. -/
theorem Factorable.opened {c : Expr K}
    (pre : Factorable V inUse s (.indexSum body bs)) (grows : s.Grows s') (taken : Taken V inUse (bs.map Prod.fst) js)
    (sizes : ∀ p ∈ (bs.map Prod.fst).zip js, s'.extents p.2 = s.extents p.1)
    (refines : Refines w s'.extents (atNames s.extents (changes (bs.map Prod.fst) js) body) c) :
    Opened w V inUse s' (.indexSum body bs) js c := by
  have once : (bs.map Prod.fst).Nodup := pre.scopes.nodup_binders
  have length : (bs.map Prod.fst).length = js.length := taken.own.length_eq
  have scalar : body.shape = [] := pre.fits.here.scalar
  have body_fits : WellFormed s.extents body := pre.fits.child mem_cons_self
  have scopes := pre.unshadowed_atNames taken
  have simpler : Simpler w c (.indexSum body bs) := refines.simpler.trans (simpler_atNames pre.bounds (by simpa using length))
  have free : ∀ {i}, i ∈ c.freeIndices → i ∈ (indexSum body bs).freeIndices ∨ i ∈ js := by
    intro i hi
    obtain ⟨j, hj, rfl⟩ := (mem_freeIndices_atNames (nodup_changes once)).1 (refines.free hi)
    by_cases mem : j ∈ bs.map Prod.fst
    · exact .inr (taken.name once mem).1
    · rw [renamed_changes_of_not_mem mem]
      exact .inl (mem_freeIndices_indexSum.2 ⟨hj, mem⟩)
  have origin : ∀ {j}, j ∈ js → ∃ i ∈ bs.map Prod.fst, s'.extents j = s.extents i ∧ (j = i ∨ ¬ V j) := by
    intro j hj
    obtain ⟨i, hp, own⟩ := taken.origin hj
    exact ⟨i, (of_mem_zip hp).1, sizes _ hp, own⟩
  refine ⟨⟨refines.fits, refines.shape.trans (shape_atNames scalar), scopes.of_simpler refines.simpler refines.free,
    fun bound => pre.bound (simpler.binds bound), fun hi => ?_⟩, simpler,
    taken.distinct, taken.unused, fun hj => ?_, fun hj => ?_, free, fun {env ρ} defined => ?_⟩
  · rcases free hi with outside | mem
    · exact (pre.free outside).imp id (mem_append_left _)
    · exact .inr (mem_append_right _ mem)
  · obtain ⟨i, hi, same, -⟩ := origin hj
    obtain ⟨b, hb, rfl⟩ := mem_map.1 hi
    exact ⟨b.2, same.trans (pre.bounds.extent hb), pre.bounds.pos hb⟩
  · obtain ⟨i, hi, -, rfl | hidden⟩ := origin hj
    · exact .inl (.here hi)
    · exact .inr hidden
  · have knows : ∀ i ∈ bs.map Prod.fst, s.Knows i := by
      intro i hi
      obtain ⟨b, hb, rfl⟩ := mem_map.1 hi
      exact ⟨b.2, pre.bounds.extent hb, pre.bounds.pos hb⟩
    have within : Within (fun i => i ∈ (indexSum body bs).freeIndices ∨ i ∈ bs.map Prod.fst) s'.extents [body] := by
      refine ⟨fun h => ?_, fun h => ?_, fun {t i} h hi => ?_⟩ <;> rw [mem_singleton.1 h] at *
      · exact grows.wellFormed body_fits
      · exact scalar
      · exact (Classical.em (i ∈ bs.map Prod.fst)).symm.imp (fun out => mem_freeIndices_indexSum.2 ⟨hi, out⟩) id
    have renamed : Amounts env s'.extents ρ js [atNames s.extents (changes (bs.map Prod.fst) js) body]
        (value env (.indexSum body bs) ρ []) := by
      refine ((Amounts.ofSum pre.bounds defined).grows grows knows).rename once taken.distinct length
        (fun p hp => renamed_changes once hp) (fun i hi => renamed_changes_of_not_mem hi) (fun p hp => ?_) within
        (fun j hj outside => ?_) (.cons (fun σ => carries_atNames body_fits scalar (nodup_changes once) env σ) .nil)
      · obtain ⟨n, known⟩ := (knows _ (of_mem_zip hp).1).known
        rw [grows.sizes known, Bounds.sizes, Bounds.sizes, sizes p hp]
      · obtain ⟨i, hi, -, rfl | hidden⟩ := origin hj
        · exact hi
        · exact absurd (pre.free outside) (not_or_intro hidden (taken.unused hj))
    exact renamed.replace (.cons ⟨shape_atNames scalar, fun σ => refines.carries env σ⟩ .nil)

variable [Exact K]

theorem ensures_inlineComponent (fits : WellFormed extent e) (scopes : Unshadowed e) :
    Ensures extent (inlineComponent e) (Refines w extent e) := by
  unfold inlineComponent
  have each : ∀ c ∈ [e], WellFormed extent c := fun c hc => mem_singleton.1 hc ▸ fits
  refine (ensures_inlineComponents (w := w) each fun c hc => mem_singleton.1 hc ▸ scopes).bind fun rs hrs => ?_
  obtain _ | ⟨hr, _ | _⟩ := hrs
  exact ensures_pure hr

/-- A sum is opened: names are taken for its indices, and its summand is put under them. -/
theorem leads_opened (reserved : Reserved V r.names s) (visible : Visible V s)
    (pre : Factorable V r.inUse s (.indexSum body bs)) :
    Leads s ((takeNames (bs.map Prod.fst)).run r >>= fun p =>
        (applyNames p.1.2 body >>= inlineComponent) >>= fun c => pure (p, c)) fun q s' =>
      Opened w V r.inUse s' (.indexSum body bs) q.1.1.1 q.2 ∧ q.1.2.inUse = r.inUse ++ q.1.1.1 ∧
        Reserved V q.1.2.names s' := by
  have once : (bs.map Prod.fst).Nodup := pre.scopes.nodup_binders
  have bounds := pre.bounds
  have node := pre.fits.here
  have body_fits : WellFormed s.extents body := pre.fits.child mem_cons_self
  have knows : ∀ i ∈ bs.map Prod.fst, s.Knows i := by
    intro i hi
    obtain ⟨b, hb, rfl⟩ := mem_map.1 hi
    exact ⟨b.2, bounds.extent hb, bounds.pos hb⟩
  refine (arrives_takeNames reserved visible fun i hi => (knows i hi).has).leads.bind fun p s₁ grows₁ found => ?_
  obtain ⟨⟨⟨js, names⟩, r'⟩, rfl⟩ : ∃ q, q = p := ⟨p, rfl⟩
  obtain ⟨⟨taken, has, eq⟩, ⟨inUse, steady⟩, -⟩ := found
  simp only at taken has eq inUse steady ⊢
  subst eq
  have length : (bs.map Prod.fst).length = js.length := taken.own.length_eq
  have known₁ : ∀ q ∈ changes (bs.map Prod.fst) js, q.1 ∈ body.freeIndices → s₁.Knows q.1 ∧ s₁.Has q.2 := by
    intro q hq _
    obtain ⟨first, second⟩ := of_mem_zip (mem_of_mem_changes hq)
    exact ⟨grows₁.knows (knows _ first), has _ second⟩
  refine Leads.bind (Leads.bind (leads_applyNames (grows₁.wellFormed body_fits) node.scalar known₁) fun c s₂ grows₂ made => ?_)
    (Q := fun c s₂ => Opened w V r.inUse s₂ (.indexSum body bs) js c ∧ Reserved V r'.names s₂) fun c s₂ grows₂ opened =>
      leads_pure ⟨opened.1, inUse, opened.2⟩
  obtain ⟨rfl, fits, set⟩ := made
  rw [steady.extents] at fits ⊢
  have grown := grows₁.trans grows₂
  have sizes : ∀ q ∈ (bs.map Prod.fst).zip js, s₂.extents q.2 = s.extents q.1 := by
    intro q hq
    have mem := (of_mem_zip hq).1
    by_cases same : q.1 = q.2
    · obtain ⟨n, known, -⟩ := knows _ mem
      rw [← same, known, grown.extent known]
    · obtain ⟨b, hb, eq⟩ := mem_map.1 mem
      rw [set q (mem_filter.2 ⟨hq, by simpa using same⟩) (eq ▸ node.free hb), steady.extents]
  refine (ensures_inlineComponent (w := w) fits (pre.unshadowed_atNames taken)).leads.mono fun c s₃ grows₃ made => ?_
  obtain ⟨same, refines⟩ := made
  have extents := Session.extents_congr same
  refine ⟨pre.opened (grown.trans grows₃) taken (fun q hq => ?_) (extents ▸ refines), steady.reserved.grows (grows₂.trans grows₃)⟩
  rw [extents, sizes q hq]

/-! ## Taking products apart -/

omit [Field K] [Exact K] in
theorem wellFormed_one : WellFormed extent (one : Expr K) := wellFormed_leaf trivial rfl

omit [Field K] [Exact K] in
/-- A reciprocal has the scopes of its denominator. -/
theorem simpler_reciprocal (b : Expr K) : Simpler w (.binary .quotient one b) b := by
  have none : ∀ {P : Expr K → Prop}, ¬ P one → ¬ Somewhere P one := by
    intro P out here
    rcases somewhere_iff.1 here with here | ⟨c, hc, -⟩
    · exact out here
    · cases hc
  refine .gather rfl (by rintro ⟨⟩) (fun c hc => ?_) fun p hp i spreads binds => ?_
  · rcases mem_pair.1 hc with rfl | rfl
    · exact .leaf rfl _
    · exact .refl _
  · rcases mem_pair.1 hp with rfl | rfl
    · exact absurd spreads (none (by simp [SpreadsHere, one, ownBinders]))
    · exact absurd binds (none (by simp [one, ownBinders]))

section Run

variable (stopAt : Expr K → Bool) (n : Nat) (acc : Factors K) (r : Renamer)

section

omit [Field K] [Exact K]

attribute [local simp] collectFactors

theorem run_collectFactors_indexSum (body : Expr K) (bs : List Binder) (go : stopAt (.indexSum body bs) = false) :
    (collectFactors stopAt (n + 1) (.indexSum body bs) acc).run r =
      ((takeNames (bs.map Prod.fst)).run r >>= fun p => (applyNames p.1.2 body >>= inlineComponent) >>= fun c => pure (p, c)) >>=
        fun q => (collectFactors stopAt n q.2 { acc with sumIndices := acc.sumIndices ++ q.1.1.1 }).run q.1.2 := by
  simp [go]

theorem run_collectFactors_product (a b : Expr K) (go : stopAt (.binary .product a b) = false) :
    (collectFactors stopAt (n + 1) (.binary .product a b) acc).run r =
      (collectFactors stopAt n a acc).run r >>= fun p => (collectFactors stopAt n b p.1).run p.2 := by
  simp [go]

theorem run_collectFactors_quotient (a b : Expr K) (go : stopAt (.binary .quotient a b) = false) (ne : (a == one) = false) :
    (collectFactors stopAt (n + 1) (.binary .quotient a b) acc).run r =
      quotient one b >>= fun c => (collectFactors stopAt n a acc).run r >>= fun p =>
        pure ({ p.1 with terms := p.1.terms ++ [c] }, p.2) := by
  simp [go, ne]

theorem run_collectFactors_reciprocal (a b : Expr K) (one : (a == one) = true) :
    (collectFactors stopAt (n + 1) (.binary .quotient a b) acc).run r =
      pure ({ acc with terms := acc.terms ++ [.binary .quotient a b] }, r) := by
  by_cases stop : stopAt (.binary .quotient a b) = true <;> simp [stop, one]

theorem run_collectFactors_whole {e : Expr K} (h : stopAt e = true ∨ (∀ a b, e ≠ .binary .quotient a b) ∧
    (∀ a b, e ≠ .binary .product a b) ∧ ∀ body bs, e ≠ .indexSum body bs) :
    (collectFactors stopAt (n + 1) e acc).run r = pure ({ acc with terms := acc.terms ++ [e] }, r) := by
  rcases h with stop | ⟨quotient, product, sum⟩
  · simp [stop]
  · rw [collectFactors]
    · simp
    · exact sum
    · exact product
    · exact quotient

end

end Run

/-- What has been taken apart is added to what there was; its indices were not in use, and now are. -/
def Gathers (w V : Index → Prop) (inUse : List Index) (e : Expr K) (acc : Factors K) (p : Factors K × Renamer) (s : Session) : Prop :=
  ∃ f : Factors K, p.1 = ⟨acc.sumIndices ++ f.sumIndices, acc.terms ++ f.terms⟩ ∧ Factored w V s e f ∧
    p.2.inUse = inUse ++ f.sumIndices ∧ (∀ i ∈ f.sumIndices, i ∉ inUse) ∧ Reserved V p.2.names s

theorem leads_collectFactors (stopAt : Expr K → Bool) (n : Nat) {acc : Factors K}
    (reserved : Reserved V r.names s) (visible : Visible V s) (pre : Factorable V r.inUse s e) :
    Leads s ((collectFactors stopAt n e acc).run r) (Gathers w V r.inUse e acc) := by
  -- an expression that is left whole
  have whole : ∀ {r : Renamer} {s e acc}, Reserved V r.names s → Factorable V r.inUse s e →
      Leads s (pure (({ acc with terms := acc.terms ++ [e] } : Factors K), r)) (Gathers w V r.inUse e acc) := by
    intro r s e acc reserved pre
    exact leads_pure ⟨⟨[], [e]⟩, by simp, .single pre.fits pre.scalar pre.scopes, by simp, by simp, reserved⟩
  induction n generalizing s e acc r with
  | zero => exact whole reserved pre
  | succ n ih =>
    by_cases stop : stopAt e = true
    · rw [run_collectFactors_whole _ _ _ _ (.inl stop)]
      exact whole reserved pre
    have go : stopAt e = false := by simpa using stop
    cases e with
    | indexSum body bs =>
      rw [run_collectFactors_indexSum _ _ _ _ _ _ go]
      refine (leads_opened (w := w) reserved visible pre).bind fun q s₁ grows₁ found => ?_
      obtain ⟨opened, inUse, reserved₁⟩ := found
      refine (ih reserved₁ (visible.grows grows₁) (inUse ▸ opened.factorable)).mono fun p s₂ grows₂ gathered => ?_
      obtain ⟨f, eq, factored, inUse', unused, reserved₂⟩ := gathered
      rw [inUse] at inUse' unused
      refine ⟨⟨q.1.1.1 ++ f.sumIndices, f.terms⟩, by simp [eq], opened.factored grows₂ factored unused, by simp [inUse'],
        fun i hi => ?_, reserved₂⟩
      rcases mem_append.1 hi with hi | hi
      · exact opened.unused hi
      · exact fun mem => unused i hi (mem_append_left _ mem)
    | binary op a b =>
      have left : a ∈ (Expr.binary op a b).children := mem_cons_self
      cases op with
      | product =>
        rw [run_collectFactors_product _ _ _ _ _ _ go]
        refine (ih reserved visible (pre.operand left)).bind fun p s₁ grows₁ first => ?_
        obtain ⟨f, eq, factored, inUse, unused, reserved₁⟩ := first
        have pre₁ := (pre.grows grows₁).operand (mem_cons_of_mem _ mem_cons_self)
        refine (ih reserved₁ (visible.grows grows₁) (inUse ▸ pre₁.mono (subset_append_left _ _))).mono
          fun q s₂ grows₂ second => ?_
        obtain ⟨g, eq', factored', inUse', unused', reserved₂⟩ := second
        rw [inUse] at inUse' unused'
        refine ⟨⟨f.sumIndices ++ g.sumIndices, f.terms ++ g.terms⟩, by simp [eq', eq], ?_, by simp [inUse'], fun i hi => ?_, reserved₂⟩
        · exact .append (pre.grows (grows₁.trans grows₂)) (factored.grows grows₂) factored' unused unused' (.refl b) (Subset.refl _) fun env ρ defined => ⟨defined, fun x => rfl⟩
        · rcases mem_append.1 hi with hi | hi
          · exact unused i hi
          · exact fun mem => unused' i hi (mem_append_left _ mem)
      | quotient =>
        by_cases one : (a == Build.one) = true
        · rw [run_collectFactors_reciprocal _ _ _ _ _ _ one]
          exact whole reserved pre
        rw [run_collectFactors_quotient _ _ _ _ _ _ go (by simpa using one)]
        have shape : a.shape = [] ∧ b.shape = [] := pre.fits.here
        have right : b ∈ (Expr.binary .quotient a b).children := mem_cons_of_mem _ mem_cons_self
        refine (ensures_quotient (w := w) wellFormed_one (pre.fits.child right)).leads.bind fun c s₁ grows₁ made => ?_
        obtain ⟨same, made⟩ := made
        refine (ih (reserved.grows grows₁) (visible.grows grows₁) ((pre.grows grows₁).operand left)).bind fun p s₂ grows₂ first => ?_
        obtain ⟨f, eq, factored, inUse, unused, reserved₂⟩ := first
        have free : c.freeIndices ⊆ b.freeIndices := fun i hi =>
          (mem_freeIndices_binary.1 (made.free hi)).resolve_left (by simp [Build.one, freeIndices])
        have simpler : Simpler w c b := made.simpler.trans (simpler_reciprocal b)
        have single : Factored w V s₂ c ⟨[], [c]⟩ := .single ((grows₁.trans grows₂).wellFormed made.fits) made.shape
          ((pre.scopes.child right).of_simpler simpler free)
        refine leads_pure ⟨⟨f.sumIndices ++ [], f.terms ++ [c]⟩, by simp [eq], ?_, by simp [inUse], by simpa using unused, reserved₂⟩
        refine .append (pre.grows (grows₁.trans grows₂)) factored single unused (by simp) simpler free fun env ρ defined => ?_
        obtain ⟨here, value⟩ := (made.carries env ρ).scalar rfl
          (defined_binary.2 ⟨by simp [Build.one, Defined], defined, by simp⟩)
        refine ⟨here, fun x => ?_⟩
        rw [value, value_binary, value_one]
        exact div_eq_mul_one_div x _
      | _ =>
        rw [run_collectFactors_whole _ _ _ _ (.inr (by simp))]
        exact whole reserved pre
    | _ =>
      rw [run_collectFactors_whole _ _ _ _ (.inr (by simp))]
      exact whole reserved pre

/-- A product is taken apart into factors, in a session of which everything is visible. -/
theorem leads_factors {stopAt : Expr K → Bool} (pre : Factorable s.Has [] s e) :
    Leads s (factors e stopAt) (fun f s' => Factored w s.Has s' e f) := by
  have run : factors e stopAt = (collectFactors stopAt (e.height + 1) e {}).run { names := [] } >>= fun p => pure p.1 := rfl
  rw [run]
  have reserved : Reserved s.Has [] s := ⟨by simp, by simp, by simp⟩
  refine (leads_collectFactors (w := w) stopAt _ reserved (fun i hi => hi) pre).bind fun p s' _ gathered => leads_pure ?_
  obtain ⟨f, eq, factored, -⟩ := gathered
  rw [eq]
  simpa using factored

/-- Where no index is both free and bound, and no binder is nested in a binder of the same index, a product is the product of
its factors, summed over indices that are all different. -/
theorem factors_correct {stopAt : Expr K → Bool} {e : Expr K} (fits : WellFormed s.extents e) (scalar : e.shape = [])
    (scopes : Unshadowed e) (bound : ∀ i, Binds i e → s.Has i) (free : ∀ i ∈ e.freeIndices, s.Has i) :
    Leads s (factors e stopAt) fun f s' => f.sumIndices.Nodup ∧ ∀ (env : Environment K) (ρ : Valuation), Defined env e ρ [] →
      Amounts env s'.extents ρ f.sumIndices f.terms (Expr.value env e ρ []) := by
  have pre : Factorable s.Has [] s e := ⟨fits, scalar, scopes, fun {i} => bound i, fun hi => .inl (free _ hi)⟩
  exact (leads_factors (w := fun _ => True) pre).mono fun f s' _ factored => ⟨factored.distinct, fun _ _ => factored.amounts⟩

/-! ## Rows that are multiplied -/

/-- Nothing is bound in an entry. -/
theorem not_somewhere_matrixEntry {P : Expr ℚ → Prop} (plain : ∀ e : Expr ℚ, e.ownBinders = [] → ¬ P e) :
    ¬ Somewhere P (matrixEntry i j) := by
  intro somewhere
  rcases somewhere_iff.1 somewhere with here | ⟨c, hc, below⟩
  · exact plain _ rfl here
  · obtain rfl := mem_singleton.1 hc
    rcases somewhere_iff.1 below with here | ⟨c, hc, -⟩
    · exact plain _ rfl here
    · cases hc

theorem not_binds_matrixEntry {k : Index} : ¬ Binds k (matrixEntry i j) :=
  not_somewhere_matrixEntry fun e none => by simp [none]

theorem binds_rowTotals (bound : Binds i (.binary .product (rowTotal ⟨0⟩) (rowTotal ⟨2⟩))) : i = ⟨1⟩ := by
  have each : ∀ j, Binds i (rowTotal j) → i = ⟨1⟩ := fun j bound =>
    (binds_indexSum.1 bound).elim (by simp) fun below => absurd below not_binds_matrixEntry
  rcases somewhere_iff.1 bound with here | ⟨c, hc, below⟩
  · cases here
  · rcases mem_pair.1 hc with rfl | rfl <;> exact each _ below

theorem mem_freeIndices_rowTotals :
    i ∈ (Expr.binary .product (rowTotal ⟨0⟩) (rowTotal ⟨2⟩)).freeIndices ↔ i = ⟨0⟩ ∨ i = ⟨2⟩ := by
  simp only [mem_freeIndices_binary, rowTotal, mem_freeIndices_indexSum, mem_freeIndices_matrixEntry]
  grind

theorem unshadowed_rowTotals : Unshadowed (.binary .product (rowTotal ⟨0⟩) (rowTotal ⟨2⟩)) := by
  refine ⟨fun i free bound => ?_, fun nested => ?_⟩
  · rw [mem_freeIndices_rowTotals, binds_rowTotals bound] at free
    simp at free
  · have each : ∀ j, ¬ Nested (rowTotal j) := by
      intro j nested
      rcases nested_indexSum.1 nested with (twice | ⟨i, -, below⟩) | below
      · simp at twice
      · exact not_binds_matrixEntry below
      · exact not_somewhere_matrixEntry (fun e none => by simp [none]) below
    rcases somewhere_iff.1 nested with here | ⟨c, hc, below⟩
    · simp [ownBinders] at here
    · rcases mem_pair.1 hc with rfl | rfl <;> exact each _ below

/-- The sums of two rows, both over index 1, are multiplied. -/
theorem factors_rowTotals :
    Leads threeIndices (factors (.binary .product (rowTotal ⟨0⟩) (rowTotal ⟨2⟩)) fun _ => false) fun f s' => f.sumIndices.Nodup ∧
      ∀ (env : Environment ℚ) (ρ : Valuation), Amounts env s'.extents ρ f.sumIndices f.terms
        (Expr.value env (rowTotal ⟨0⟩) ρ [] * Expr.value env (rowTotal ⟨2⟩) ρ []) := by
  have first : WellFormed threeIndices.extents (rowTotal ⟨0⟩) := wellFormed_rowTotal rfl
  have second : WellFormed threeIndices.extents (rowTotal ⟨2⟩) := wellFormed_rowTotal rfl
  refine (factors_correct (Build.wellFormed_binary first second rfl rfl) rfl unshadowed_rowTotals ?_ ?_).mono
    fun f s' _ found => ⟨found.1, fun env ρ => (found.2 env ρ ?_).of_eq ?_⟩
  · intro i bound
    rw [binds_rowTotals bound]
    exact (by decide : 1 < 3)
  · intro i free
    rcases mem_freeIndices_rowTotals.1 free with rfl | rfl
    · exact (by decide : 0 < 3)
    · exact (by decide : 2 < 3)
  · simp [rowTotal, matrixEntry, Expr.Defined]
  · rw [Expr.value_binary]
    rfl

/-- The sum of a row is multiplied with an entry of it, which is read at the index that is summed over. -/
theorem run_factors_rowEntry :
    (factors (.binary .product (matrixEntry ⟨0⟩ ⟨1⟩) (rowTotal ⟨0⟩)) fun _ => false).run.run threeIndices =
      (.ok ⟨[⟨1⟩], [matrixEntry ⟨0⟩ ⟨1⟩, matrixEntry ⟨0⟩ ⟨1⟩]⟩, threeIndices) := by
  have entry : (matrixEntry ⟨0⟩ ⟨1⟩).freeIndices = [⟨0⟩, ⟨1⟩] := by
    simp [matrixEntry, freeIndices, Indices.union, Indices.insert, Slot.index?]
  have inline : (inlineComponent (matrixEntry ⟨0⟩ ⟨1⟩)).run.run threeIndices = (.ok (matrixEntry ⟨0⟩ ⟨1⟩), threeIndices) := by
    have bind {α β : Type} (x : Id α) (f : α → Id β) : (x >>= f) = f x := rfl
    have map {α β : Type} (x : Id α) (f : α → β) : (f <$> x) = f x := rfl
    simp only [matrixEntry] at *
    unfold inlineComponent inlineComponents substitute mapMemoArg
    rw [mapM_cons, mapM_nil, memoiseArg]
    simp [substituteStep, Substitution.restrict, entry, Substitution.applySlot, Substitution.apply]
    rw [memoiseArg]
    simp [substituteStep, Substitution.restrict, reuse, mapChildren, children, attach, attachWith,
      sameAll, freeIndices]
    rfl
  have height : (Expr.binary .product (matrixEntry ⟨0⟩ ⟨1⟩) (rowTotal ⟨0⟩)).height = 3 := by
    simp [rowTotal, matrixEntry, height]
  have run : factors (.binary .product (matrixEntry ⟨0⟩ ⟨1⟩) (rowTotal ⟨0⟩)) (fun _ => false) =
      (collectFactors (fun _ => false) 4 (.binary .product (matrixEntry ⟨0⟩ ⟨1⟩) (rowTotal ⟨0⟩)) {}).run { names := [] } >>=
        fun p => pure p.1 := by
    rw [factors, height]
    rfl
  -- index 1 is not in use when the sum is met
  have sum : ((takeNames [⟨1⟩]).run { names := [] } >>= fun p =>
      (applyNames p.1.2 (matrixEntry ⟨0⟩ ⟨1⟩) >>= inlineComponent) >>= fun c => pure (p, c)).run.run threeIndices =
        (.ok ((([⟨1⟩], []), ⟨[], [⟨1⟩]⟩), matrixEntry ⟨0⟩ ⟨1⟩), threeIndices) := by
    have named : ((takeNames [⟨1⟩]).run { names := [] }).run.run threeIndices =
        (.ok (([⟨1⟩], []), ⟨[], [⟨1⟩]⟩), threeIndices) := rfl
    have same : (applyNames [] (matrixEntry ⟨0⟩ ⟨1⟩)).run.run threeIndices = (.ok (matrixEntry ⟨0⟩ ⟨1⟩), threeIndices) := rfl
    rw [run_bind_ok named, run_bind_ok ((run_bind_ok same).trans inline)]
    rfl
  rw [run, run_collectFactors_product _ _ _ _ _ _ rfl, run_collectFactors_whole _ _ _ _ (.inr (by simp [matrixEntry])), pure_bind,
    rowTotal, run_collectFactors_indexSum _ _ _ _ _ _ rfl, bind_assoc, map_singleton, run_bind_ok sum,
    run_collectFactors_whole _ _ _ _ (.inr (by simp [matrixEntry]))]
  rfl

/-- The sum of the row is taken for the sum of the squares. -/
theorem factors_rowEntry_confused : ∃ f, (factors (.binary .product (matrixEntry ⟨0⟩ ⟨1⟩) (rowTotal ⟨0⟩)) fun _ => false).run.run
      threeIndices = (.ok f, threeIndices) ∧
    ∃ (env : Environment ℚ) (ρ : Valuation), ((ρ.runs threeIndices.extents f.sumIndices).map fun σ => Expr.productAt env σ f.terms).sum ≠
      (Expr.binary .product (matrixEntry ⟨0⟩ ⟨1⟩) (rowTotal ⟨0⟩)).value env ρ [] := by
  refine ⟨_, run_factors_rowEntry, ⟨fun _ _ idx => idx.sum, fun _ _ => 0, fun _ _ => 0, fun _ => 0⟩, fun _ => 1, ?_⟩
  have size : Bounds.sizes threeIndices.extents ⟨1⟩ = 2 := rfl
  simp [rowTotal, matrixEntry, Valuation.runs, Expr.productAt, bindersOf, Valuation.ranging, size, Valuation.set, Expr.position,
    show List.range 2 = [0, 1] from rfl, BinaryOp.apply]
  norm_num

end Rewrite

end FormCompiler
