import FormCompiler.Proofs.Passes

/-!
# Indices replaced by slots

Replacing free indices by slots reads an expression where the slots stand, as long as no index that is put in is bound
where it comes to stand. The pass does not rename binders, so this has to hold of the expression.
-/

namespace FormCompiler

open FormCompiler.Expr List Build

namespace Rewrite

variable {K : Type}

/-! ## Rules -/

variable {i j : Index}

theorem eq_of_number_eq (h : i.number = j.number) : i = j := by
  cases i
  cases j
  exact congrArg Index.mk h

namespace Substitution

theorem apply_cons (p : Index × Slot (Expr K)) (s : Substitution K) (i : Index) :
    apply (p :: s) i = if i = p.1 then p.2 else apply s i := by
  rw [apply, find?_cons]
  by_cases same : i = p.1
  · simp [same]
  · have differ : (p.1 == i) = false := by simpa using Ne.symm same
    rw [differ, if_neg same]
    rfl

theorem apply_insert (s : Substitution K) (i j : Index) (slot : Slot (Expr K)) :
    (insert i slot s).apply j = if j = i then slot else s.apply j := by
  induction s with
  | nil => rw [insert, apply_cons]
  | cons p s ih =>
    rw [insert]
    split
    · rw [apply_cons]
    · split
      · rename_i same
        obtain rfl : i = p.1 := eq_of_number_eq same
        rw [apply_cons, apply_cons]
        split <;> rfl
      · rename_i differ
        rw [apply_cons, ih, apply_cons]
        split
        · rename_i here
          rw [if_neg fun eq => differ (congrArg Index.number (eq.symm.trans here))]
        · rfl

variable {s : Substitution K} {i : Index} {slot : Slot (Expr K)} {p : Index × Slot (Expr K)}
  {rules : List (Index × Slot (Expr K))} {e : Expr K}

theorem mem_insert (h : p ∈ insert i slot s) : p = (i, slot) ∨ p ∈ s := by
  induction s with
  | nil => exact .inl (mem_singleton.1 h)
  | cons q s ih =>
    rw [insert] at h
    split at h
    · exact (mem_cons.1 h)
    · split at h
      · exact (mem_cons.1 h).imp id (mem_cons_of_mem _)
      · rcases mem_cons.1 h with rfl | h
        · exact .inr mem_cons_self
        · exact (ih h).imp id (mem_cons_of_mem _)

theorem mem_insertAll (h : p ∈ s.insertAll rules) : p ∈ rules ∨ p ∈ s := by
  induction rules generalizing s with
  | nil => exact .inr h
  | cons q rules ih =>
    rcases ih h with h | h
    · exact .inl (mem_cons_of_mem _ h)
    · refine (mem_insert h).imp (fun same => ?_) id
      rw [same]
      exact mem_cons_self

/-- What an index becomes by later rules, or by earlier ones where no later one is for it. -/
theorem apply_insertAll
    (h : (s.insertAll rules).apply i = slot) : (∃ p ∈ rules, p.2 = slot) ∨ s.apply i = slot ∧ ∀ p ∈ rules, p.1 ≠ i := by
  induction rules generalizing s with
  | nil => exact .inr ⟨h, by simp⟩
  | cons q rules ih =>
    rcases ih h with ⟨p, hp, eq⟩ | ⟨eq, out⟩
    · exact .inl ⟨p, mem_cons_of_mem _ hp, eq⟩
    · rw [apply_insert] at eq
      split at eq
      · exact .inl ⟨q, mem_cons_self, eq⟩
      · rename_i differ
        exact .inr ⟨eq, forall_mem_cons.2 ⟨Ne.symm differ, out⟩⟩

/-- A rule that is found is one of the rules. -/
theorem apply_mem (h : s.apply i ≠ .free i) : (i, s.apply i) ∈ s := by
  induction s with
  | nil => exact absurd rfl h
  | cons p s ih =>
    rw [apply_cons] at h ⊢
    split
    · rename_i same
      rw [same]
      exact mem_cons_self
    · rename_i differ
      rw [if_neg differ] at h
      exact mem_cons_of_mem _ (ih h)

theorem apply_restrict_of_mem (h : i ∈ e.freeIndices) : (s.restrict e).apply i = s.apply i := by
  induction s with
  | nil => rfl
  | cons p s ih =>
    rw [restrict] at ih ⊢
    by_cases free : p.1 ∈ e.freeIndices
    · rw [filter_cons_of_pos (by simpa using free), apply_cons, apply_cons, ih]
    · rw [filter_cons_of_neg (by simpa using free), ih, apply_cons, if_neg]
      rintro rfl
      exact free h

theorem apply_restrict_of_not_mem (h : i ∉ e.freeIndices) : (s.restrict e).apply i = .free i := by
  by_contra ruled
  have := (mem_filter.1 (apply_mem ruled)).2
  exact h (by simpa using this)

/-! ## Positions under rules -/

variable [Scalar K] [Field K]

/-- The positions at which indices are read once they are replaced. -/
def under (s : Substitution K) (env : Environment K) (ρ : Valuation) : Valuation :=
  fun i => Expr.position env ρ (s.apply i)

theorem under_nil (env : Environment K) (ρ : Valuation) : under [] env ρ = ρ := rfl

/-- Rules for binders read the binders where the slots stand. -/
theorem under_insertAll (s : Substitution K) (env : Environment K) (ρ : Valuation) (bs : List Binder)
    (slots : List (Slot (Expr K))) (length : slots.length = bs.length) :
    (s.insertAll ((bs.map Prod.fst).zip slots)).under env ρ = (s.under env ρ).bind bs (slots.map (Expr.position env ρ)) := by
  induction bs generalizing s slots with
  | nil => rfl
  | cons b bs ih =>
    cases slots with
    | nil => cases length
    | cons slot slots =>
      rw [map_cons, zip_cons_cons, map_cons, Valuation.bind, headD_cons, tail_cons]
      refine (ih (insert b.1 slot s) slots (Nat.succ.inj length)).trans (congrArg (fun σ => Valuation.bind σ bs _) (funext fun i => ?_))
      rw [under, apply_insert, Valuation.set]
      split <;> rfl

/-- Rules whose slots fit the indices that they stand for. -/
structure Fit (extent : Index → Extent) (s : Substitution K) : Prop where
  slot {p : Index × Slot (Expr K)} : p ∈ s → SlotFits extent p.2 (extent p.1)
  runtime {p : Index × Slot (Expr K)} {r : Expr K} : p ∈ s → p.2 = .runtime r → WellFormed extent r

namespace Fit

variable {extent : Index → Extent} {s : Substitution K}

omit [Field K]

theorem nil : Fit extent ([] : Substitution K) := ⟨fun h => absurd h not_mem_nil, fun h => absurd h not_mem_nil⟩

theorem restrict (h : Fit extent s) (e : Expr K) : Fit extent (s.restrict e) :=
  ⟨fun hp => h.slot (mem_of_mem_filter hp), fun hp => h.runtime (mem_of_mem_filter hp)⟩

variable {n : Extent} {slot : Slot (Expr K)} {bs : List Binder} {slots : List (Slot (Expr K))}

theorem apply (h : Fit extent s) {i : Index} (fits : n = none ∨ extent i = n) : SlotFits extent (s.apply i) n := by
  by_cases ruled : s.apply i = .free i
  · rw [ruled]
    exact fits
  · have fit := h.slot (apply_mem ruled)
    rcases fits with rfl | rfl
    · cases kind : s.apply i with
      | fixed n => exact trivial
      | free j => exact .inl rfl
      | runtime r =>
        rw [kind] at fit
        exact fit
    · exact fit

theorem applySlot (h : Fit extent s) (fits : SlotFits extent slot n) : SlotFits extent (s.applySlot slot) n := by
  cases slot with
  | free i => exact h.apply fits
  | fixed n => exact fits
  | runtime r => exact fits

/-- An expression that stands in a slot after replacement stood in one before, or is one of those put in. -/
theorem runtime_applySlot (h : Fit extent s) {r : Expr K} (eq : s.applySlot slot = .runtime r) :
    slot = .runtime r ∨ WellFormed extent r := by
  cases slot with
  | free i =>
    have ruled : s.apply i ≠ .free i := by
      intro free
      rw [Substitution.applySlot, free] at eq
      cases eq
    exact .inr (h.runtime (apply_mem ruled) eq)
  | fixed n => cases eq
  | runtime r' => exact .inl eq

omit [Scalar K] in
theorem eq_or_mem_zip {p : Index × Slot (Expr K)}
    (h : p ∈ (bs.map Prod.fst).zip slots) : ∃ b, (b, p.2) ∈ bs.zip slots ∧ b.1 = p.1 := by
  rw [zip_map_left] at h
  obtain ⟨q, hq, rfl⟩ := mem_map.1 h
  exact ⟨q.1, hq, rfl⟩

/-- Rules for binders fit if the slots fit the dimensions that the binders stand for. -/
theorem insertAll (h : Fit extent s)
    (bounds : ∀ {b}, b ∈ bs → extent b.1 = some b.2) (fits : SlotsFit extent slots (bs.map fun b => some b.2)) :
    Fit extent (s.insertAll ((bs.map Prod.fst).zip slots)) := by
  have dims := (forall₂_map_right_iff.1 fits.dims).flip
  refine ⟨fun hp => ?_, fun {p r} hp eq => ?_⟩
  · rcases mem_insertAll hp with hp | hp
    · obtain ⟨b, hb, same⟩ := eq_or_mem_zip hp
      have fit := forall₂_zip dims hb
      rwa [← bounds (of_mem_zip hb).1, same] at fit
    · exact h.slot hp
  · rcases mem_insertAll hp with hp | hp
    · exact fits.runtime (eq ▸ (of_mem_zip hp).2)
    · exact h.runtime hp eq

end Fit

/-- A replaced slot stands where the slot is read. -/
theorem position_applySlot {extent : Index → Extent} (s : Substitution K) {n : Extent}
    (fits : Expr.SlotFits extent slot n) (closed : ∀ r, slot = .runtime r → Expr.Everywhere Expr.RuntimeClosed r)
    (env : Environment K) (ρ : Valuation) :
    Expr.position env ρ (s.applySlot slot) = Expr.position env (s.under env ρ) slot := by
  cases slot with
  | free i => rfl
  | fixed n => rfl
  | runtime r =>
    refine congrArg env.position (Expr.value_congr (closed r rfl) [] ?_)
    rw [fits.1]
    exact fun i hi => absurd hi not_mem_nil

end Substitution

/-! ## Captures -/

/-- No index that replaces another one comes to stand below a binder of it. -/
def Hygienic (rules : Substitution K) (e : Expr K) : Prop :=
  match e with
  | .indexed (.componentTensor body bs) slots =>
    let own := rules.restrict (.indexed (.componentTensor body bs) slots)
    Hygienic (own.insertAll ((bs.map Prod.fst).zip (slots.map own.applySlot))) body
  | e => (∀ p ∈ rules.restrict e, ∀ b ∈ e.ownBinders, p.2 ≠ .free b.1) ∧
    ∀ c (h : c ∈ e.children), have := sizeOf_lt_of_mem_children h; Hygienic (rules.restrict e) c
termination_by sizeOf e

/-- Is the expression an entry of a tensor made of components? -/
def inlines : Expr K → Bool
  | .indexed (.componentTensor _ _) _ => true
  | _ => false

variable {rules : Substitution K}

theorem hygienic_inline {body : Expr K} {bs : List Binder} {slots : List (Slot (Expr K))} :
    Hygienic rules (.indexed (.componentTensor body bs) slots) ↔
      Hygienic ((rules.restrict (.indexed (.componentTensor body bs) slots)).insertAll ((bs.map Prod.fst).zip
        (slots.map (rules.restrict (.indexed (.componentTensor body bs) slots)).applySlot))) body := by
  rw [Hygienic]

theorem hygienic_node {e : Expr K} (other : inlines e = false) :
    Hygienic rules e ↔ (∀ p ∈ rules.restrict e, ∀ b ∈ e.ownBinders, p.2 ≠ .free b.1) ∧
      ∀ c ∈ e.children, Hygienic (rules.restrict e) c := by
  rw [Hygienic]
  intro body bs slots eq
  rw [eq] at other
  cases other

/-- Nothing is captured where no index is both free and bound and none is bound below itself, as long as no index that is
put in is bound in the expression. -/
theorem hygienic_of_unshadowed {rules : Substitution K} {e : Expr K} (scopes : e.Unshadowed)
    (out : ∀ p ∈ rules, ∀ i, p.2 = .free i → ¬ Binds i e) : Hygienic rules e := by
  have kept : ∀ p ∈ rules.restrict e, ∀ i, p.2 = .free i → ¬ Binds i e := fun p hp =>
    out p (mem_of_mem_filter hp)
  by_cases inline : inlines e = true
  · cases e with
    | indexed t slots =>
      cases t with
      | componentTensor body bs =>
        have inner := (scopes.child mem_cons_self).child mem_cons_self
        have below : ∀ {i}, Binds i body → Binds i (.indexed (.componentTensor body bs) slots) := fun hi =>
          binds_entry.2 (.inr hi)
        have := sizeOf_inlined body bs slots
        rw [hygienic_inline]
        refine hygienic_of_unshadowed inner fun p hp i eq bound => ?_
        rcases Substitution.mem_insertAll hp with hp | hp
        · -- a slot of the node itself: its index is free here, or was put in above
          obtain ⟨s, hs, same⟩ := mem_map.1 (of_mem_zip hp).2
          rw [← same] at eq
          cases s with
          | fixed n => cases eq
          | runtime r => cases eq
          | free j =>
            by_cases ruled : (rules.restrict (.indexed (.componentTensor body bs) slots)).apply j = .free j
            · cases ruled.symm.trans eq
              exact scopes.free i (mem_freeIndices_indexed.2 (.inl hs)) (below bound)
            · exact kept _ (Substitution.apply_mem ruled) i eq (below bound)
        · exact kept p hp i eq (below bound)
      | _ => cases inline
    | _ => cases inline
  · rw [hygienic_node (Bool.eq_false_iff.2 inline)]
    refine ⟨fun p hp b hb eq => ?_, fun c hc => ?_⟩
    · exact kept p hp b.1 eq (.here (mem_map_of_mem hb))
    · have := sizeOf_lt_of_mem_children hc
      refine hygienic_of_unshadowed (scopes.child hc) fun p hp i eq bound => ?_
      exact kept p hp i eq (.child hc bound)
termination_by sizeOf e

/-! ## Replacement of indices -/

section Replacement

variable [Scalar K] [Field K] {w : Index → Prop} {extent : Index → Extent}

/-- What an expression becomes when free indices are replaced: of the same shape, with the indices that were put in, no
further scopes, and the value of the expression where the slots stand. -/
structure Substituted (w : Index → Prop) (extent : Index → Extent) (rules : Substitution K) (e r : Expr K) : Prop where
  fits : WellFormed extent r
  shape : r.shape = e.shape
  free {i : Index} : i ∈ r.freeIndices → ∃ j ∈ e.freeIndices, rules.apply j = .free i
  simpler : Simpler w r e
  carries (env : Environment K) (ρ : Valuation) : Carries env (rules.under env ρ) ρ e r

variable {rules : Substitution K} {e r : Expr K}

/-- Rules for other indices do not matter. -/
theorem Substituted.ofRestrict (he : WellFormed extent e)
    (h : Substituted w extent (rules.restrict e) e r) : Substituted w extent rules e r := by
  refine ⟨h.fits, h.shape, fun hi => ?_, h.simpler,
    fun env ρ => (h.carries env ρ).congr_left he.runtimeClosed fun i hi => ?_⟩
  · obtain ⟨j, hj, same⟩ := h.free hi
    exact ⟨j, hj, Substitution.apply_restrict_of_mem hj ▸ same⟩
  · rw [Substitution.under, Substitution.under, Substitution.apply_restrict_of_mem hi]

theorem Substituted.ofRefines {r' : Expr K} (h : Refines w extent r r') (shape : r.shape = e.shape)
    (free : ∀ i ∈ r.freeIndices, ∃ j ∈ e.freeIndices, rules.apply j = .free i) (simpler : Simpler w r e)
    (carries : ∀ env ρ, Carries env (rules.under env ρ) ρ e r) :
    Substituted w extent rules e r' :=
  ⟨h.fits, h.shape.trans shape, fun hi => free _ (h.free hi), h.simpler.trans simpler,
    fun env ρ => (carries env ρ).trans shape (h.carries env ρ)⟩

/-- Binders stay in their place if none of them is put in below. -/
theorem Substitution.under_bind (fit : rules.Fit extent) {bs : List Binder} {i : Index}
    (bound : i ∈ bs.map Prod.fst → rules.apply i = .free i)
    (apart : i ∉ bs.map Prod.fst → ∀ b ∈ bs, rules.apply i ≠ .free b.1) (env : Environment K) (ρ : Valuation) (vs : List Int) :
    (rules.under env ρ).bind bs vs i = rules.under env (ρ.bind bs vs) i := by
  by_cases mem : i ∈ bs.map Prod.fst
  · rw [under, bound mem]
    have agree : Valuation.Agree [i] ((rules.under env ρ).bind bs vs) (ρ.bind bs vs) :=
      Valuation.Agree.bind vs fun j hj out => absurd (mem_singleton.1 hj ▸ mem) out
    exact agree i mem_cons_self
  · rw [Valuation.bind_of_not_mem mem, under, under]
    cases kind : rules.apply i with
    | fixed n => rfl
    | free j =>
      refine (Valuation.bind_of_not_mem fun hj => ?_).symm
      obtain ⟨b, hb, rfl⟩ := mem_map.1 hj
      exact apart mem b hb kind
    | runtime r =>
      have mem := apply_mem (s := rules) (i := i) (by rw [kind]; nofun)
      rw [kind] at mem
      refine congrArg env.position (Expr.value_congr (fit.runtime mem rfl).runtimeClosed [] ?_)
      rw [(fit.slot mem).1]
      exact fun j hj => absurd hj not_mem_nil

/-- An expression in which indices can be replaced by rules. -/
structure Replaceable (extent : Index → Extent) (e : Expr K) (rules : Substitution K) : Prop where
  fits : WellFormed extent e
  fit : rules.Fit extent
  hygienic : Hygienic rules e

section Nodes

variable {rules : Substitution K}

variable {slots : List (Slot (Expr K))} {shape : Shape} {t r body e : Expr K} {i j : Slot (Expr K)} {bs : List Binder}
  {dims : List DimAccess} {own : Substitution K}

/-- Slots after replacement stand where the slots were read. -/
theorem map_position_applySlot
    (dims : Forall₂ (Expr.SlotFits extent) slots shape) (runtime : ∀ {r : Expr K}, .runtime r ∈ slots → WellFormed extent r)
    (env : Environment K) (ρ : Valuation) :
    (slots.map rules.applySlot).map (Expr.position env ρ) = slots.map (Expr.position env (rules.under env ρ)) := by
  rw [map_map]
  refine map_congr_left fun s hs => ?_
  obtain ⟨n, -, fits⟩ := Expr.exists_of_forall₂ dims hs
  exact rules.position_applySlot fits (fun r hr => (runtime (hr ▸ hs)).runtimeClosed) env ρ

omit [Field K] in
theorem slotsFit_applySlot (fit : rules.Fit extent) {slots : List (Slot (Expr K))} {shape : Shape}
    (h : SlotsFit extent slots shape) : SlotsFit extent (slots.map rules.applySlot) shape := by
  refine ⟨forall₂_map_left_iff.2 (h.dims.imp fun _ _ => fit.applySlot), fun {r} hr => ?_⟩
  obtain ⟨s, hs, eq⟩ := mem_map.1 hr
  rcases fit.runtime_applySlot eq with rfl | fits
  · exact h.runtime hs
  · exact fits

omit [Scalar K] [Field K] in
theorem mem_applySlot {slots : List (Slot (Expr K))} {i : Index} (h : .free i ∈ slots.map rules.applySlot) :
    ∃ j, .free j ∈ slots ∧ rules.apply j = .free i := by
  obtain ⟨s, hs, eq⟩ := mem_map.1 h
  cases s with
  | free j => exact ⟨j, hs, eq⟩
  | fixed n => cases eq
  | runtime r => cases eq

omit [Field K] in
theorem slotsFit_of_wellFormed (h : WellFormed extent (.indexed t slots)) : SlotsFit extent slots t.shape :=
  ⟨h.here.2, fun hr => h.runtime (mem_runtimeSlots_indexed.2 hr)⟩

omit [Field K] in
theorem slotsFit_of_delta (h : WellFormed extent (.delta i j)) : SlotsFit extent [i, j] [none, none] :=
  ⟨.cons h.here.1 (.cons h.here.2 .nil), fun hr => h.runtime (mem_runtimeSlots_delta.2 (by simpa [eq_comm] using hr))⟩

/-- A tensor that is indexed takes the slots with their indices replaced. -/
theorem substituted_indexed {t' : Expr K} (he : WellFormed extent (.indexed t slots))
    (ht : Substituted w extent rules t t') (hr : Refines w extent (.indexed t' (slots.map rules.applySlot)) r) :
    Substituted w extent rules (.indexed t slots) r := by
  have fits := slotsFit_of_wellFormed he
  refine .ofRefines hr rfl (fun i hi => ?_) ?_ fun env ρ => ?_
  · rcases Expr.mem_freeIndices_indexed.1 hi with hi | hi
    · obtain ⟨j, hj, same⟩ := mem_applySlot hi
      exact ⟨j, Expr.mem_freeIndices_indexed.2 (.inl hj), same⟩
    · obtain ⟨j, hj, same⟩ := ht.free hi
      exact ⟨j, Expr.mem_freeIndices_indexed.2 (.inr hj), same⟩
  · refine .node (.refl _) (by rintro ⟨⟩) (fun c hc => ⟨t, mem_cons_self, ?_⟩) (by rintro p ⟨⟩)
    rw [mem_singleton.1 hc]
    exact ht.simpler
  · exact .indexed fits.dims.length_eq (map_position_applySlot fits.dims fits.runtime env ρ) (ht.carries env ρ)

/-- An entry of a tensor made of components is the body where the binders take the slots. -/
theorem substituted_inline (he : WellFormed extent (.indexed (.componentTensor body bs) slots))
    (hr : Substituted w extent (rules.insertAll ((bs.map Prod.fst).zip (slots.map rules.applySlot))) body r) :
    Substituted w extent rules (.indexed (.componentTensor body bs) slots) r := by
  have fits := slotsFit_of_wellFormed he
  have binders : Expr.BindersFit extent body bs := (he.child mem_cons_self).here
  have length : (slots.map rules.applySlot).length = bs.length := by
    rw [length_map, fits.dims.length_eq]
    exact length_map ..
  refine ⟨hr.fits, hr.shape.trans binders.scalar, fun {i} hi => ?_,
    hr.simpler.trans (.trans (.child (e := .componentTensor body bs) mem_cons_self) (.child mem_cons_self)),
    fun env ρ idx _ defined => ?_⟩
  · obtain ⟨j, hj, same⟩ := hr.free hi
    rcases Substitution.apply_insertAll same with ⟨p, hp, eq⟩ | ⟨same, out⟩
    · obtain ⟨j, hj, same⟩ := mem_applySlot (eq ▸ (of_mem_zip hp).2)
      exact ⟨j, Expr.mem_freeIndices_indexed.2 (.inl hj), same⟩
    · refine ⟨j, Expr.mem_freeIndices_indexed.2 (.inr (Expr.mem_freeIndices_componentTensor.2 ⟨hj, fun mem => ?_⟩)), same⟩
      have first : ((bs.map Prod.fst).zip (slots.map rules.applySlot)).map Prod.fst = bs.map Prod.fst :=
        map_fst_zip (by simp [length])
      rw [← first] at mem
      obtain ⟨p, hp, eq⟩ := mem_map.1 mem
      exact out p hp eq
  · have carries := hr.carries env ρ
    rw [Substitution.under_insertAll rules env ρ bs _ length, map_position_applySlot fits.dims fits.runtime env ρ] at carries
    rw [Expr.defined_indexed, Expr.defined_componentTensor] at defined
    rw [Expr.value_indexed, Expr.value_componentTensor]
    obtain rfl : idx = [] := length_eq_zero_iff.1 (by assumption)
    exact carries.scalar binders.scalar defined

theorem substituted_delta (he : WellFormed extent (.delta i j))
    (hr : Refines w extent (.delta (rules.applySlot i) (rules.applySlot j)) r) : Substituted w extent rules (.delta i j) r := by
  have closed : ∀ s, s = i ∨ s = j → ∀ r, s = .runtime r → Expr.Everywhere Expr.RuntimeClosed r := by
    rintro s (rfl | rfl) r rfl
    · exact WellFormed.runtimeClosed (he.runtime (Expr.mem_runtimeSlots_delta.2 (.inl rfl)))
    · exact WellFormed.runtimeClosed (he.runtime (Expr.mem_runtimeSlots_delta.2 (.inr rfl)))
  refine .ofRefines hr rfl (fun k hk => ?_) (.leaf rfl _) fun env ρ idx _ _ => ⟨by simp [Expr.Defined], ?_⟩
  · rcases Expr.mem_freeIndices_delta.1 hk with hk | hk
    · obtain ⟨a, ha, same⟩ := @mem_applySlot K rules [i] k (mem_singleton.2 hk.symm)
      exact ⟨a, Expr.mem_freeIndices_delta.2 (.inl (mem_singleton.1 ha).symm), same⟩
    · obtain ⟨a, ha, same⟩ := @mem_applySlot K rules [j] k (mem_singleton.2 hk.symm)
      exact ⟨a, Expr.mem_freeIndices_delta.2 (.inr (mem_singleton.1 ha).symm), same⟩
  · rw [Expr.value_delta, Expr.value_delta, rules.position_applySlot he.here.1 (closed i (.inl rfl)),
      rules.position_applySlot he.here.2 (closed j (.inr rfl))]

/-- An access of what another one addresses under the rules. -/
def Readdressed (rules : Substitution K) (name : String) (shape : Shape) (dims : List DimAccess) (r : Expr K) : Prop :=
  ∃ dims', r = .access name shape dims' ∧
    ∀ env ρ, dims'.map (·.at ρ) = dims.map (·.at (rules.under env ρ))

theorem readdressed_self (name : String) (shape : Shape)
    (same : ∀ d ∈ dims, ∀ t ∈ d.terms, rules.apply t.1 = .free t.1) : Readdressed rules name shape dims (.access name shape dims) := by
  refine ⟨dims, rfl, fun env ρ => @Expr.access_congr K _ _ name shape dims fun i hi => ?_⟩
  obtain ⟨d, hd, t, ht, rfl⟩ := mem_freeIndices_access.1 hi
  rw [Substitution.under, same d hd t ht]
  rfl

theorem ensures_readdressed (name : String) (shape : Shape) (dims : List DimAccess) :
    Ensures extent
      (access (.var name shape) (dims.map fun d => (d.offset, d.terms.map fun (i, s) => (rules.apply i, s))))
      (Readdressed rules name shape dims) := by
  refine (ensures_access_dims name shape _).mono fun r hr => ?_
  refine ⟨_, hr.1, fun env ρ => ?_⟩
  rw [hr.2 env ρ, map_map]
  refine map_congr_left fun d _ => ?_
  simp only [Function.comp_apply, termsAt, DimAccess.at, map_map]
  rfl

/-- An access none of whose indices is replaced stays as it is. -/
theorem substituted_access {name : String} (same : ∀ d ∈ dims, ∀ t ∈ d.terms, rules.apply t.1 = .free t.1) :
    Substituted w extent rules (.access name shape dims) (.access name shape dims) := by
  refine ⟨wellFormed_access name shape dims, rfl, fun {i} hi => ⟨i, hi, ?_⟩, .refl _, fun env ρ idx _ _ => ⟨by simp [Defined], ?_⟩⟩
  · obtain ⟨d, hd, t, ht, rfl⟩ := mem_freeIndices_access.1 hi
    exact same d hd t ht
  · obtain ⟨_, ⟨⟩, stand⟩ := readdressed_self name shape same
    rw [value_access, value_access, stand env ρ]

theorem ensures_substituteAccess (name : String) (shape : Shape) (dims : List DimAccess) :
    Ensures extent
      (access (.var name shape) (dims.map fun d => (d.offset, d.terms.map fun (i, s) => (rules.apply i, s))))
      (Substituted w extent rules (.access name shape dims)) := by
  refine ((ensures_access (w := w) name shape _).both (ensures_readdressed name shape dims)).mono ?_
  rintro r ⟨⟨fits, scalar, simpler, free, val⟩, dims', rfl, same⟩
  refine ⟨fits, scalar, fun {i} hi => ?_, simpler _, fun env ρ idx entry _ => ?_⟩
  · obtain ⟨d, hd, hi⟩ := free i hi
    obtain ⟨own, mem, rfl⟩ := mem_map.1 hd
    obtain ⟨t, ht, eq⟩ := mem_map.1 hi
    obtain ⟨u, hu, rfl⟩ := mem_map.1 ht
    exact ⟨u.1, mem_freeIndices_access.2 ⟨own, mem, u, hu, rfl⟩, eq⟩
  · obtain rfl : idx = [] := length_eq_zero_iff.1 entry
    exact ⟨(val env ρ).1, by rw [value_access, value_access, same env ρ]⟩

/-- A node that uses no index itself takes what its children become. -/
theorem substituted_children {cs : List (Expr K)} (he : WellFormed extent e) (plain : e.usesIndices = false)
    (fit : rules.Fit extent) (own : ∀ i, i ∉ e.freeIndices → rules.apply i = .free i)
    (apart : ∀ p ∈ rules, ∀ b ∈ e.ownBinders, p.2 ≠ .free b.1)
    (h : Forall₂ (Substituted w extent rules) e.children cs) (hr : Refines w extent (e.withChildren cs) r) :
    Substituted w extent rules e r := by
  have unused : e.ownIndices = [] := by
    cases e with
    | indexed | access | delta => cases plain
    | _ => rfl
  have bound : ∀ i, i ∈ e.ownBinders.map Prod.fst → rules.apply i = .free i := fun i hi => own i fun free => by
    rcases mem_freeIndices_iff.1 free with mem | ⟨-, out⟩
    · rw [unused] at mem
      cases mem
    · exact out hi
  refine .ofRefines hr (shape_withChildren (h.imp fun _ _ hc => hc.shape)) (fun i hi => ?_)
    (.withChildren (h.imp fun _ _ hc => hc.simpler)) fun env ρ => ?_
  · rcases mem_freeIndices_withChildren h.length_eq.symm hi with mem | ⟨⟨c', hc', hi⟩, out⟩
    · rw [unused] at mem
      cases mem
    · obtain ⟨c, hc, sub⟩ := exists_of_forall₂ h.flip hc'
      obtain ⟨j, hj, same⟩ := sub.free hi
      refine ⟨j, mem_freeIndices_iff.2 (.inr ⟨⟨c, hc, hj⟩, fun mem => ?_⟩), same⟩
      -- a bound index stays, and would be bound in the result too
      rw [bound j mem] at same
      cases same
      exact out mem
  · refine .withChildren he.here (fun uses => absurd uses (by simp [plain])) ?_
    refine forall₂_iff_zip.2 ⟨h.length_eq, fun {c c'} hc => ?_⟩
    have sub := forall₂_zip h hc
    have closed := WellFormed.runtimeClosed (he.child (of_mem_zip hc).1)
    refine ⟨sub.shape, fun vs => (sub.carries env _).congr_left closed fun i _ => ?_⟩
    refine Substitution.under_bind fit (bound i) (fun out b hb eq => ?_) env ρ vs
    refine apart (i, rules.apply i) (Substitution.apply_mem ?_) b hb eq
    rw [eq]
    rintro ⟨⟩
    exact out (mem_map_of_mem hb)

omit [Field K] in
/-- The body of an entry that is carried out takes the slots for the binders. -/
theorem Replaceable.inline (h : Replaceable extent (.indexed (.componentTensor body bs) slots) rules)
    (narrowed : rules.restrict (.indexed (.componentTensor body bs) slots) = own) :
    Replaceable extent body (own.insertAll ((bs.map Prod.fst).zip (slots.map own.applySlot))) := by
  subst narrowed
  have tensor := h.fits.child mem_cons_self
  have fit := h.fit.restrict (.indexed (.componentTensor body bs) slots)
  refine ⟨tensor.child mem_cons_self, ?_, hygienic_inline.1 h.hygienic⟩
  exact fit.insertAll tensor.here.extent (slotsFit_applySlot fit (slotsFit_of_wellFormed h.fits))

omit [Field K] in
/-- The children of any other node take the rules that concern the node. -/
theorem Replaceable.child {c : Expr K} (h : Replaceable extent e rules) (other : inlines e = false)
    (narrowed : rules.restrict e = own) (hc : c ∈ e.children) : Replaceable extent c own := by
  subst narrowed
  exact ⟨h.fits.child hc, h.fit.restrict e, ((hygienic_node other).1 h.hygienic).2 c hc⟩

variable [Exact K]

/-- The indices of an access stay as they are if no rule is for one of them. -/
theorem apply_of_none
    (none : ¬ (dims.any fun d => d.terms.any fun t => rules.any fun r => r.1 == t.1 && r.2 != .free r.1) = true) {d : DimAccess}
    (hd : d ∈ dims) {t : Index × Stride} (ht : t ∈ d.terms) : rules.apply t.1 = .free t.1 := by
  by_contra ruled
  refine none (any_eq_true.2 ⟨d, hd, any_eq_true.2 ⟨t, ht, any_eq_true.2 ⟨_, Substitution.apply_mem ruled, ?_⟩⟩⟩)
  simpa using ruled

/-- What one step can make of an expression under rules, where `S` holds between smaller expressions, rules for them, and what is made
of them. -/
inductive Stepped (w : Index → Prop) (extent : Index → Extent) (reads : Expr K → List (Slot (Expr K)) → Prop)
    (S : Expr K → Substitution K → Expr K → Prop) (own : Substitution K) : Expr K → Expr K → Prop where
  | delta {i j : Slot (Expr K)} {r : Expr K} : Refines w extent (.delta (own.applySlot i) (own.applySlot j)) r →
      r = .delta i j ∨ Made reads [] [] r ∨
        own.applySlot i ≠ own.applySlot j ∧ r = .delta (own.applySlot i) (own.applySlot j) →
      Stepped w extent reads S own (.delta i j) r
  | inline {body r : Expr K} {bs : List Binder} {slots : List (Slot (Expr K))} :
      S body (own.insertAll ((bs.map Prod.fst).zip (slots.map own.applySlot))) r →
      Stepped w extent reads S own (.indexed (.componentTensor body bs) slots) r
  | indexed {t t' r : Expr K} {slots : List (Slot (Expr K))} : inlines (.indexed t slots) = false → S t own t' →
      Refines w extent (.indexed t' (slots.map own.applySlot)) r → r = .indexed t slots ∨ Made reads [t'] [] r →
      Stepped w extent reads S own (.indexed t slots) r
  | access {name : String} {shape : Shape} {dims : List DimAccess} {r : Expr K} :
      Substituted w extent own (.access name shape dims) r → Readdressed own name shape dims r →
      Stepped w extent reads S own (.access name shape dims) r
  | node {e r : Expr K} {cs : List (Expr K)} : e.usesIndices = false → Forall₂ (fun c => S c own) e.children cs →
      Refines w extent (e.withChildren cs) r → r = e ∨ cs ≠ [] ∧ Remade reads e cs r → Stepped w extent reads S own e r

variable {reads : Expr K → List (Slot (Expr K)) → Prop} {rules : Substitution K} {es : List (Expr K)}

theorem keeps_substituteStep_cases {S : Expr K → Substitution K → Expr K → Prop} (pre : Replaceable extent e rules) (fixed : Fixes reads)
    (sub : ∀ {c own r}, S c own r → Substituted w extent own c r)
    (read : ∀ {t slots t'}, e = .indexed t slots → t'.shape = t.shape → reads t' (slots.map (rules.restrict e).applySlot))
    {self : (c : Expr K) → sizeOf c < sizeOf e → Substitution K → SubstBuild K (Expr K)} {Inv : StoreArg K (Substitution K) (Expr K) → Prop}
    (h : ∀ c hc own, Replaceable extent c own → Keeps extent Inv (self c hc own) (S c own)) :
    Keeps extent Inv (substituteStep e self rules) (Stepped w extent reads S (rules.restrict e) e) := by
  have fit := pre.fit.restrict e
  generalize narrowed : rules.restrict e = own at *
  unfold substituteStep
  rw [narrowed]
  split
  · rename_i i j self
    refine keeps_ite (fun same => keeps_pure (.delta ?_ (.inl rfl))) fun _ => keeps_lift ?_
    · obtain ⟨left, right⟩ := Bool.and_eq_true_iff.1 same
      rw [eq_of_beq left, eq_of_beq right]
      exact .refl pre.fits
    · refine ((ensures_delta ?_).and Suits.made_delta).mono fun r hr =>
        .delta hr.1 (.inr (hr.2.imp_right (And.imp_left fun differ => by simpa using differ)))
      exact @slotsFit_applySlot K _ extent own fit [i, j] _ (slotsFit_of_delta pre.fits)
  · rename_i body bs slots self
    exact (h body _ _ (pre.inline narrowed)).mono fun r => .inline
  · rename_i t slots self other
    have plain : inlines (.indexed t slots) = false := by
      cases t with
      | componentTensor body bs => exact (other body bs self rfl HEq.rfl).elim
      | _ => rfl
    refine (h t _ own (pre.child plain narrowed mem_cons_self)).bind fun t' ht => ?_
    refine keeps_ite (fun same => keeps_pure (.indexed plain ht ?_ (.inl rfl))) fun _ => keeps_lift ?_
    · obtain ⟨left, right⟩ := Bool.and_eq_true_iff.1 same
      rw [eq_of_beq left, eq_of_beq right]
      exact .refl pre.fits
    · refine ((ensures_indexed (sub ht).fits ?_).and (Suits.any.made_indexed
        (.operand mem_cons_self) fun _ => read rfl (sub ht).shape)).mono fun r hr => .indexed plain ht hr.1 (.inr hr.2)
      rw [(sub ht).shape]
      exact slotsFit_applySlot fit (slotsFit_of_wellFormed pre.fits)
  · rename_i name shape dims self
    refine keeps_ite (fun _ => keeps_lift ?_) fun none => keeps_pure ?_
    · exact ((ensures_substituteAccess name shape dims).both (ensures_readdressed name shape dims)).mono fun r hr => .access hr.1 hr.2
    · have same : ∀ d ∈ dims, ∀ t ∈ d.terms, own.apply t.1 = .free t.1 := fun d hd t ht => apply_of_none none hd ht
      exact .access (substituted_access same) (readdressed_self name shape same)
  · rename_i self notDelta notInline notIndexed notAccess
    have plain : e.usesIndices = false := by
      cases e with
      | delta i j => exact (notDelta i j self rfl HEq.rfl).elim
      | indexed t slots => exact (notIndexed t slots self rfl HEq.rfl).elim
      | access name shape dims => exact (notAccess name shape dims self rfl HEq.rfl).elim
      | _ => rfl
    have other : inlines e = false := by
      cases e with
      | indexed t slots => cases plain
      | _ => rfl
    refine Keeps.mono (keeps_reuse (w := w) fixed pre.fits (fun _ _ hc => (sub hc).shape) (fun _ _ hc => (sub hc).fits) ?_ ?_
      fun c hc => h c _ own (pre.child other narrowed hc)) ?_
    · rintro name shape dims rfl
      cases plain
    · rintro t slots rfl
      cases plain
    · rintro r ⟨cs, hcs, hr, rest⟩
      refine .node plain hcs hr (rest.imp_right fun ⟨differ, remade⟩ => ⟨fun none => differ ?_, remade⟩)
      rw [none] at hcs ⊢
      exact (forall₂_nil_right_iff.1 hcs).symm

omit [Exact K] in
/-- Whatever one step makes is the expression under the rules. -/
theorem Stepped.substituted
    (h : Stepped w extent reads (fun c own => Substituted w extent own c) (rules.restrict e) e r) (pre : Replaceable extent e rules) :
    Substituted w extent rules e r := by
  refine Substituted.ofRestrict pre.fits ?_
  have fit := pre.fit.restrict e
  have unruled : ∀ i, i ∉ e.freeIndices → (rules.restrict e).apply i = .free i := fun i =>
    Substitution.apply_restrict_of_not_mem
  generalize narrowed : rules.restrict e = own at *
  cases h with
  | delta hr => exact substituted_delta pre.fits hr
  | inline hr => exact substituted_inline pre.fits hr
  | indexed _ ht hr => exact substituted_indexed pre.fits ht hr
  | access hr => exact hr
  | node plain hcs hr =>
    have other : inlines e = false := by
      cases e with
      | indexed t slots => cases plain
      | _ => rfl
    have apart := ((hygienic_node other).1 pre.hygienic).1
    rw [narrowed] at apart
    exact substituted_children pre.fits plain fit unruled apart hcs hr

/-- One step replaces the indices of a node. -/
theorem keeps_substituteStep {e : Expr K} {rules : Substitution K} (pre : Replaceable extent e rules)
    {self : (c : Expr K) → sizeOf c < sizeOf e → Substitution K → SubstBuild K (Expr K)} {Inv : StoreArg K (Substitution K) (Expr K) → Prop}
    (h : ∀ c hc own, Replaceable extent c own → Keeps extent Inv (self c hc own) (Substituted w extent own c)) :
    Keeps extent Inv (substituteStep e self rules) (Substituted w extent rules e) :=
  (keeps_substituteStep_cases pre (fun _ => trivial) id (fun _ _ => trivial) h).mono
    fun _ (hr : Stepped w extent (fun _ _ => True) _ _ _ _) => hr.substituted pre

/-- The indices of all expressions are replaced, each where it stands. -/
theorem ensures_substitute {es : List (Expr K)} (pre : ∀ e ∈ es, Replaceable extent e rules) :
    Ensures extent (substitute es rules) fun rs => Forall₂ (Substituted w extent rules) es rs :=
  ensures_mapMemoArg (fun _ _ _ pre h => keeps_substituteStep pre h) pre

omit [Exact K] in
/-- Without rules, an expression in which indices are replaced stands for the expression itself. -/
theorem Substituted.refines (h : Substituted w extent [] e r) : Refines w extent e r := by
  refine ⟨h.fits, h.shape, fun i hi => ?_, h.simpler, fun env ρ => ?_⟩
  · obtain ⟨j, hj, same⟩ := h.free hi
    cases same
    exact hj
  · have carries := h.carries env ρ
    rwa [Substitution.under_nil] at carries

/-- Carrying out the indexings of tensors made of components keeps what expressions mean, and adds no free index, where no
index is captured. -/
theorem inlineComponents_correct {es : List (Expr K)} (fits : ∀ e ∈ es, WellFormed extent e)
    (hygienic : ∀ e ∈ es, Hygienic [] e) :
    Build.Ensures extent (inlineComponents es) fun rs => List.Forall₂ (Refines w extent) es rs := by
  have pre : ∀ e ∈ es, Replaceable extent e [] := fun e he => ⟨fits e he, .nil, hygienic e he⟩
  exact (ensures_substitute pre).mono fun rs hrs => hrs.imp fun _ _ => Substituted.refines

/-- Nothing is captured where no index is both free and bound and none is bound below itself. -/
theorem ensures_inlineComponents (fits : ∀ e ∈ es, WellFormed extent e) (scopes : ∀ e ∈ es, e.Unshadowed) :
    Ensures extent (inlineComponents es) fun rs => Forall₂ (Refines w extent) es rs := by
  have pre : ∀ e ∈ es, Replaceable extent e [] := by
    intro e he
    refine ⟨fits e he, .nil, hygienic_of_unshadowed (scopes e he) ?_⟩
    intro p hp
    cases hp
  exact (ensures_substitute pre).mono fun rs hrs => hrs.imp fun _ _ => Substituted.refines

/-- A property of what expressions become, which each step takes over from the steps below it. -/
theorem ensures_inlineComponents_with {A : Expr K → Substitution K → Prop} {T : Expr K → Substitution K → Expr K → Prop}
    {R : Expr K → List (Slot (Expr K)) → Prop} (fixed : Fixes R)
    (read : ∀ {t t' : Expr K} {slots : List (Slot (Expr K))} {rules : Substitution K}, A (.indexed t slots) rules → t'.shape = t.shape →
      R t' (slots.map (rules.restrict (.indexed t slots)).applySlot))
    (step : ∀ {e r : Expr K} {rules : Substitution K}, Replaceable extent e rules → A e rules →
      Stepped w extent R (fun c own c' => Substituted w extent own c c' ∧ (A c own → T c own c'))
      (rules.restrict e) e r → T e rules r) (fits : ∀ e ∈ es, WellFormed extent e) (scopes : ∀ e ∈ es, e.Unshadowed) :
    Ensures extent (inlineComponents es) fun rs =>
      Forall₂ (fun e r => Refines w extent e r ∧ (A e [] → T e [] r)) es rs := by
  have pre : ∀ e ∈ es, Replaceable extent e [] := fun e he =>
    ⟨fits e he, .nil, hygienic_of_unshadowed (scopes e he) (by rintro p ⟨⟩)⟩
  refine (ensures_mapMemoArg (S := fun e rules r => Substituted w extent rules e r ∧ (A e rules → T e rules r))
    (fun e self rules pre h => ?_) pre).mono fun rs hrs => hrs.imp fun _ _ hr => ⟨hr.1.refines, hr.2⟩
  refine (keeps_substituteStep pre fun c hc own below => (h c hc own below).mono fun _ => And.left).and ?_
  by_cases known : A e rules
  · refine (keeps_substituteStep_cases pre fixed And.left ?_ h).mono fun r hr _ => step pre known hr
    rintro t slots t' rfl same
    exact read known same
  · refine (keeps_substituteStep (w := w) pre fun c hc own below => (h c hc own below).mono fun _ => And.left).mono fun r _ => ?_
    exact fun same => absurd same known

end Nodes

end Replacement

/-! ## Rows of a matrix -/

/-- The entries of a two by two matrix. -/
def matrixEntry (i j : Index) : Expr ℚ := .indexed (.var "w" [some 2, some 2]) [.free i, .free j]

/-- The sum of row `i` over index 1. -/
def rowTotal (i : Index) : Expr ℚ := .indexSum (matrixEntry i ⟨1⟩) [(⟨1⟩, 2)]

/-- The vector of the sums of rows, read at an index. -/
def rowRead (i : Index) : Expr ℚ := .indexed (.componentTensor (rowTotal ⟨0⟩) [(⟨0⟩, 2)]) [.free i]

/-- Three indices of extent two. -/
def threeIndices : Session := { indices := #[⟨none, some 2⟩, ⟨none, some 2⟩, ⟨none, some 2⟩] }

theorem mem_freeIndices_matrixEntry {k : Index} : k ∈ (matrixEntry i j).freeIndices ↔ k = i ∨ k = j := by
  rw [matrixEntry, mem_freeIndices_indexed]
  simp [freeIndices]

theorem wellFormed_matrixEntry (hi : threeIndices.extents i = some 2) (hj : threeIndices.extents j = some 2) :
    WellFormed threeIndices.extents (matrixEntry i j) :=
  wellFormed_indexed (wellFormed_leaf trivial rfl) ⟨.cons (.inr hi) (.cons (.inr hj) .nil), by simp⟩ (by simp)

theorem wellFormed_rowTotal (known : threeIndices.extents i = some 2) : WellFormed threeIndices.extents (rowTotal i) := by
  have entry := wellFormed_matrixEntry known (rfl : threeIndices.extents ⟨1⟩ = some 2)
  refine wellFormed_node ⟨rfl, by simp, ?_, ?_, ?_⟩ (by simpa [rowTotal, children] using entry) rfl
  · simp [mem_freeIndices_matrixEntry]
  · rintro b hb
    obtain rfl := mem_singleton.1 hb
    rfl
  · simp

theorem wellFormed_rowRead (known : threeIndices.extents i = some 2) : WellFormed threeIndices.extents (rowRead i) := by
  have total : WellFormed threeIndices.extents (rowTotal ⟨0⟩) := wellFormed_rowTotal rfl
  have vector : WellFormed threeIndices.extents (.componentTensor (rowTotal ⟨0⟩) [(⟨0⟩, 2)]) := by
    refine wellFormed_node ⟨rfl, by simp, ?_, ?_, ?_⟩ (by simpa [children] using total) rfl
    · simp [rowTotal, mem_freeIndices_indexSum, mem_freeIndices_matrixEntry]
    · rintro b hb
      obtain rfl := mem_singleton.1 hb
      rfl
    · simp
  exact wellFormed_indexed vector ⟨.cons (.inr known) .nil, by simp⟩ (by simp)

/-- A vector of sums that is read at another index than the one summed over keeps its entries. -/
theorem inlineComponents_rowRead : Build.Ensures threeIndices.extents (inlineComponents [rowRead ⟨2⟩]) fun rs =>
    List.Forall₂ (Expr.Refines (fun _ => False) threeIndices.extents) [rowRead ⟨2⟩] rs := by
  refine inlineComponents_correct ?_ ?_
  · intro e he
    obtain rfl := List.mem_singleton.1 he
    exact wellFormed_rowRead rfl
  · intro e he
    obtain rfl := List.mem_singleton.1 he
    rw [rowRead, hygienic_inline]
    change Hygienic [(⟨0⟩, .free ⟨2⟩)] (rowTotal ⟨0⟩)
    refine (hygienic_node rfl).2 ⟨fun p hp b hb => ?_, fun c hc => ?_⟩
    · -- the one rule puts in index 2, the one binder is index 1
      obtain rfl := List.mem_singleton.1 (List.mem_of_mem_filter hp)
      obtain rfl := List.mem_singleton.1 hb
      simp
    · obtain rfl := List.mem_singleton.1 hc
      refine (hygienic_node rfl).2 ⟨fun p hp b hb => absurd hb List.not_mem_nil, fun c hc => ?_⟩
      obtain rfl := List.mem_singleton.1 hc
      exact (hygienic_node rfl).2 ⟨fun p hp b hb => absurd hb List.not_mem_nil, fun c hc => absurd hc List.not_mem_nil⟩

/-- Read at the index that is summed over, the vector of the sums of rows becomes the trace: the index is captured. -/
theorem run_rowRead :
    (inlineComponents [rowRead ⟨1⟩]).run.run threeIndices =
      (.ok [.indexSum (matrixEntry ⟨1⟩ ⟨1⟩) [(⟨1⟩, 2)]], threeIndices) := by
  have entry : (matrixEntry ⟨0⟩ ⟨1⟩).freeIndices = [⟨0⟩, ⟨1⟩] := by
    simp [matrixEntry, freeIndices, Indices.union, Indices.insert, Slot.index?]
  have diagonal : (matrixEntry ⟨1⟩ ⟨1⟩).freeIndices = [⟨1⟩] := by
    simp [matrixEntry, freeIndices, Indices.union, Indices.insert, Slot.index?]
  have total : (indexSum (matrixEntry ⟨0⟩ ⟨1⟩) [(⟨1⟩, 2)]).freeIndices = [⟨0⟩] := by
    rw [freeIndices, entry]
    simp [Indices.diff]
  have read : (indexed (.var "w" [some 2, some 2]) [.free ⟨1⟩, .free ⟨1⟩] : Build (Expr ℚ)).run.run threeIndices =
      (.ok (matrixEntry ⟨1⟩ ⟨1⟩), threeIndices) := rfl
  have closed : (reconstruct (.indexSum (matrixEntry ⟨0⟩ ⟨1⟩) [(⟨1⟩, 2)]) [matrixEntry ⟨1⟩ ⟨1⟩]).run.run threeIndices =
      (.ok (.indexSum (matrixEntry ⟨1⟩ ⟨1⟩) [(⟨1⟩, 2)]), threeIndices) := by
    change ((do
      require (Indices.subset [⟨1⟩] (matrixEntry ⟨1⟩ ⟨1⟩).freeIndices)
      pure (.indexSum (matrixEntry ⟨1⟩ ⟨1⟩) [(⟨1⟩, 2)])) : Build (Expr ℚ)).run.run threeIndices = _
    rw [diagonal]
    rfl
  have bind {α β : Type} (x : Id α) (f : α → Id β) : (x >>= f) = f x := rfl
  have map {α β : Type} (x : Id α) (f : α → β) : (f <$> x) = f x := rfl
  simp only [rowRead, rowTotal, matrixEntry] at *
  -- the four nodes on the way down, one after the other; nothing is met twice
  unfold inlineComponents substitute mapMemoArg
  rw [mapM_cons, mapM_nil, memoiseArg]
  simp [substituteStep, Substitution.restrict, Substitution.applySlot, Substitution.apply, Substitution.insertAll, Substitution.insert]
  rw [memoiseArg]
  simp [substituteStep, Substitution.restrict, reuse, mapChildren, children, total, attach, attachWith]
  rw [memoiseArg]
  simp [substituteStep, Substitution.restrict, entry, Substitution.applySlot, Substitution.apply]
  rw [memoiseArg]
  simp [substituteStep, Substitution.restrict, reuse, mapChildren, children, attach, attachWith,
    sameAll, freeIndices]
  simp [read, closed, bind, map, Except.map]

/-- The trace is not the sum of a row. -/
theorem inlineComponents_rowRead_captured : ∃ r, (inlineComponents [rowRead ⟨1⟩]).run.run threeIndices = (.ok [r], threeIndices) ∧
    ∃ (env : Environment ℚ) (ρ : Valuation), r.value env ρ [] ≠ (rowRead ⟨1⟩).value env ρ [] := by
  refine ⟨_, run_rowRead, ⟨fun _ _ idx => idx.sum, fun _ _ => 0, fun _ _ => 0, fun _ => 0⟩, fun _ => 0, ?_⟩
  simp [rowRead, rowTotal, matrixEntry, Valuation.ranging, Valuation.set, Valuation.bind, Expr.position,
    show List.range 2 = [0, 1] from rfl]

end Rewrite

end FormCompiler
