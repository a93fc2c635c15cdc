import FormCompiler.Mode.Spectral
import FormCompiler.Proofs.Cancellation
import FormCompiler.Proofs.Lacking
import FormCompiler.Proofs.Monomials

/-!
# Deltas of an assignment

A monomial is added to the entries of a tensor that a variable addresses. Cancelling a delta against an index of the
variable reads the variable where the other side of the delta stands: two indices may become one, so that the variable
addresses fewer entries, and those that it no longer addresses are the ones to which nothing was added.
-/

namespace FormCompiler

open FormCompiler.Expr List Build

namespace Rewrite

variable {K : Type} {name : String} {shape : Shape}

/-! ## What a variable addresses -/

/-- A variable, possibly read at slots. -/
inductive Placed (name : String) (shape : Shape) : Expr K → Prop where
  | access (dims : List DimAccess) : Placed name shape (.access name shape dims)
  | entry {body : Expr K} {bs : List Binder} {slots : List (Slot (Expr K))} : Placed name shape body →
    Placed name shape (.indexed (.componentTensor body bs) slots)

variable [Scalar K] [Field K] {env : Environment K} {extent : Index → Extent} {inside : Int → Expr K → Prop}
  {w : Index → Prop} {source : Index} {target : Slot (Expr K)} {e r : Expr K} {rules : Substitution K}

/-- The position of the entry that a variable addresses. -/
def address (env : Environment K) : Expr K → Valuation → List Int
  | .access _ _ dims, σ => dims.map fun d => d.at σ
  | .indexed (.componentTensor body bs) slots, σ => address env body (σ.bind bs (slots.map (Expr.position env σ)))
  | _, _ => []

theorem address_access (env : Environment K) (dims : List DimAccess) (σ : Valuation) :
    address env (.access name shape dims) σ = dims.map fun d => d.at σ := by rw [address]

theorem address_entry (env : Environment K) (body : Expr K) (bs : List Binder) (slots : List (Slot (Expr K))) (σ : Valuation) :
    address env (.indexed (.componentTensor body bs) slots) σ =
      address env body (σ.bind bs (slots.map (Expr.position env σ))) := by rw [address]

variable {σ ρ : Valuation} {i j : Slot (Expr K)} {fs : List (Expr K)}

/-- The entry depends on the free indices alone. -/
theorem Placed.address_congr (h : Placed name shape e) (fits : Expr.WellFormed extent e) {τ : Valuation}
    (same : Valuation.Agree e.freeIndices σ τ) : address env e σ = address env e τ := by
  induction h generalizing σ τ with
  | access dims =>
    rw [address_access, address_access]
    exact Expr.access_congr same
  | @entry body bs slots _ ih =>
    have slotsFit := slotsFit_of_wellFormed fits
    have inner := (fits.child mem_cons_self).child mem_cons_self
    have stand : slots.map (Expr.position env σ) = slots.map (Expr.position env τ) :=
      map_congr_left fun s hs => position_of_agree slotsFit hs fun i eq =>
        same i (Expr.mem_freeIndices_indexed.2 (.inl (eq ▸ hs)))
    rw [address_entry, address_entry, stand]
    refine ih inner (Valuation.Agree.bind _ fun i hi out => same i ?_)
    exact Expr.mem_freeIndices_indexed.2 (.inr (Expr.mem_freeIndices_componentTensor.2 ⟨hi, out⟩))

omit [Field K] in
theorem Redirected.placed (h : Redirected extent source target e r) (placed : Placed name shape e) : Placed name shape r := by
  cases h with
  | same _ => exact placed
  | delta _ _ => cases placed
  | entry _ _ _ _ _ => exact .entry placed

/-- A redirected variable addresses what the variable does where the slot stands. -/
theorem Redirected.address_eq (h : Redirected extent source target e r) (placed : Placed name shape e)
    (fits : WellFormed extent e) (σ : Valuation) : address env r σ = address env e (moved env source target σ) := by
  cases h with
  | same out =>
    refine (placed.address_congr fits fun i hi => Valuation.set_of_ne σ _ ?_).symm
    rintro rfl
    exact out hi
  | delta _ _ => cases placed
  | entry _ _ _ _ _ =>
    rw [address_entry]
    rfl

/-- An access that addresses what a variable does once its indices are replaced. -/
def Addresses (name : String) (shape : Shape) (e : Expr K) (rules : Substitution K) (r : Expr K) : Prop :=
  ∃ dims, r = .access name shape dims ∧
    ∀ env ρ, address env r ρ = address env e (rules.under env ρ)

theorem Addresses.ofRestrict (h : Addresses name shape e (rules.restrict e) r) (placed : Placed name shape e)
    (fits : WellFormed extent e) : Addresses name shape e rules r := by
  obtain ⟨dims, eq, same⟩ := h
  refine ⟨dims, eq, fun env ρ => (same env ρ).trans (placed.address_congr fits fun i hi => ?_)⟩
  rw [Substitution.under, Substitution.under, Substitution.apply_restrict_of_mem hi]

/-- One step makes an access of a variable. -/
theorem Stepped.addresses {reads : Expr K → List (Slot (Expr K)) → Prop} (fits : Expr.WellFormed extent e) (placed : Placed name shape e)
    (h : Stepped w extent reads (fun c own c' => Substituted w extent own c c' ∧ (Placed name shape c → Addresses name shape c own c'))
      rules e r) : Addresses name shape e rules r := by
  cases h with
  | access _ made =>
    cases placed
    obtain ⟨dims', rfl, same⟩ := made
    exact ⟨dims', rfl, fun env ρ => by rw [address_access, address_access, same env ρ]⟩
  | @inline body r bs slots hr =>
    cases placed with
    | entry placed =>
      have slotsFit := slotsFit_of_wellFormed fits
      obtain ⟨dims, eq, same⟩ := hr.2 placed
      have length : (slots.map rules.applySlot).length = bs.length := by
        rw [length_map, slotsFit.dims.length_eq]
        exact length_map ..
      refine ⟨dims, eq, fun env ρ => ?_⟩
      rw [same env ρ, Substitution.under_insertAll _ env ρ bs _ length, map_position_applySlot slotsFit.dims slotsFit.runtime env ρ,
        address_entry]
  | indexed plain =>
    cases placed
    cases plain
  | delta => cases placed
  | node plain => cases placed <;> cases plain

/-! ## Slots in range -/

section Ranged

omit [Scalar K] [Field K]

/-- A delta whose sides are not paired. -/
def Unpaired (extent : Index → Extent) (inside : Int → Expr K → Prop) : Expr K → Prop
  | .delta i j => ¬ Paired extent inside i j
  | _ => False

/-- An entry of a tensor made of components that is read out of the ranges of its indices. -/
def ReadOutside (extent : Index → Extent) (inside : Int → Expr K → Prop) : Expr K → Prop
  | .indexed (.componentTensor _ bs) slots => ¬ Forall₂ (fun b slot => Fills extent inside b.2 slot) bs slots
  | _ => False

/-- The sides of deltas are paired, and tensors made of components are read in range. -/
structure Ranged (extent : Index → Extent) (inside : Int → Expr K → Prop) (e : Expr K) : Prop where
  deltas : Lacks (Unpaired extent inside) e
  entries : Lacks (ReadOutside extent inside) e

theorem rare_unpaired : Rare (Unpaired extent inside) := by
  refine ⟨fun {e} here => ?_, fun here => here.elim, fun _ => id⟩
  cases e with
  | delta i j => exact .inr (.inl ⟨i, j, rfl⟩)
  | _ => exact here.elim

theorem paired_of_lacks {i j : Slot (Expr K)} (h : Lacks (Unpaired extent inside) (.delta i j)) : Paired extent inside i j :=
  not_not.1 h.here

theorem ranged_access (name : String) (shape : Shape) (dims : List DimAccess) :
    Ranged extent inside (.access name shape dims : Expr K) :=
  ⟨.node id (forall_mem_singleton.2 (.leaf id rfl)), .node id (forall_mem_singleton.2 (.leaf id rfl))⟩

theorem Filling.insertAll (filling : Filling extent inside rules) {bs : List Binder} {slots : List (Slot (Expr K))}
    (known : ∀ {b}, b ∈ bs → extent b.1 = some b.2) (fills : Forall₂ (fun b slot => Fills extent inside b.2 slot) bs slots) :
    Filling extent inside (rules.insertAll ((bs.map Prod.fst).zip (slots.map rules.applySlot))) := by
  intro p hp
  rcases Substitution.mem_insertAll hp with hp | hp
  · obtain ⟨b, hb, same⟩ := Substitution.Fit.eq_or_mem_zip hp
    rw [zip_map_right] at hb
    obtain ⟨⟨b, slot⟩, mem, eq⟩ := mem_map.1 hb
    obtain ⟨rfl, stands⟩ := Prod.mk.inj eq
    refine ⟨b.2, same ▸ known (of_mem_zip mem).1, ?_⟩
    rw [← stands]
    exact (forall₂_zip fills mem).applySlot filling
  · exact filling p hp

end Ranged

section

omit [Field K]

theorem guards_unpaired : Guards extent (Unpaired extent inside) fun e rules =>
    Lacks (ReadOutside extent inside) e ∧ Filling extent inside rules where
  restrict h := ⟨h.1, fun p hp => h.2 p (mem_of_mem_filter hp)⟩
  delta pair h ne := not_not.2 ((not_not.1 pair).applySlot h.2 ne)
  read _ _ _ := id
  inline fits _ h := by
    refine ⟨(h.1.child mem_cons_self).child mem_cons_self, h.2.insertAll ?_ (not_not.1 h.1.here)⟩
    exact (fits.child mem_cons_self).here.extent
  child h hc := ⟨h.1.child hc, h.2⟩

theorem DeltaOf.ranged (h : DeltaOf i j r) (pair : i ≠ j → Paired extent inside i j) : Ranged extent inside r := by
  cases h with
  | same => exact ⟨.leaf id rfl, .leaf id rfl⟩
  | fixed _ => exact ⟨.leaf id rfl, .leaf id rfl⟩
  | node ne => exact ⟨.leaf (not_not.2 (pair ne)) rfl, .leaf id rfl⟩

/-- A slot that fills the range of the index leaves a factor in range. -/
theorem Redirected.ranged {n : Int} (h : Redirected extent source target e r) (link : Linked extent inside source target n)
    (ranged : Ranged extent inside e) : Ranged extent inside r := by
  cases h with
  | same _ => exact ranged
  | delta _ made => exact made.ranged fun ne => (paired_of_lacks ranged.deltas).applySlot link.filling ne
  | entry _ _ _ known _ =>
    cases link.known.symm.trans known
    have deltas : Lacks (Unpaired extent inside) (.componentTensor e [(source, n)]) :=
      .node id (forall_mem_singleton.2 ranged.deltas)
    have entries : Lacks (ReadOutside extent inside) (.componentTensor e [(source, n)]) :=
      .node id (forall_mem_singleton.2 ranged.entries)
    refine ⟨.node id (forall_mem_singleton.2 deltas), .node ?_ (forall_mem_singleton.2 entries)⟩
    exact not_not.2 (.cons link.fills .nil)

end

/-! ## Scopes of factors -/

/-- No index that a factor depends on is bound in one of the factors, and none is bound below itself. -/
structure Separate (fs : List (Expr K)) : Prop where
  free {f g : Expr K} : f ∈ fs → g ∈ fs → ∀ i ∈ f.freeIndices, ¬ Binds i g
  nested {f : Expr K} : f ∈ fs → ¬ Nested f

omit [Scalar K] [Field K] in
theorem Separate.unshadowed (h : Separate fs) {f : Expr K} (hf : f ∈ fs) : f.Unshadowed :=
  ⟨h.free hf hf, h.nested hf⟩

/-- What factors stand for is as separate as they are. -/
theorem Separate.refine {fs fs' : List (Expr K)} (h : Separate fs) (each : ∀ f' ∈ fs', ∃ f ∈ fs, Refines w extent f f') :
    Separate fs' := by
  refine ⟨fun {f' g'} hf' hg' i hi bound => ?_, fun {f'} hf' nested => ?_⟩
  · obtain ⟨f, hf, toF⟩ := each f' hf'
    obtain ⟨g, hg, toG⟩ := each g' hg'
    exact h.free hf hg i (toF.free hi) (toG.simpler.binds bound)
  · obtain ⟨f, hf, toF⟩ := each f' hf'
    exact h.nested hf (toF.simpler.nested nested)

section

omit [Field K]

theorem Redirected.binds (h : Redirected extent source target e r) {i : Index} (bound : Binds i r) :
    i = source ∨ Binds i e := by
  cases h with
  | same _ => exact .inr bound
  | delta _ made => exact .inr ((Simpler.leaf (w := fun _ => False) made.leaf _).binds bound)
  | entry _ _ _ _ _ => exact (binds_entry.1 bound).imp mem_singleton.1 id

theorem Redirected.nested (h : Redirected extent source target e r) (scopes : e.Unshadowed) : ¬ Nested r := by
  intro nested
  cases h with
  | same _ => exact scopes.nested nested
  | delta _ made => exact scopes.nested ((Simpler.leaf (w := fun _ => False) made.leaf _).nested nested)
  | entry free _ _ _ _ =>
    rcases nested_entry.1 nested with (twice | ⟨i, hi, bound⟩) | below
    · exact twice (nodup_singleton source)
    · rw [mem_singleton.1 hi] at bound
      exact scopes.free source free bound
    · exact scopes.nested below

/-- An index that is bound by a replacement is free no more. -/
theorem Separate.step {fs' : List (Expr K)} {is : List Index} {n : Int} (h : Separate fs)
    (found : findDelta is fs = some (source, target)) (link : Linked extent inside source target n)
    (redirected : Forall₂ (Redirected extent source target) fs fs') : Separate fs' := by
  have each : ∀ f' ∈ fs', ∃ f ∈ fs, Redirected extent source target f f' := fun f' hf' => exists_of_forall₂ redirected.flip hf'
  refine ⟨fun {f' g'} hf' hg' i hi bound => ?_, fun {f'} hf' => ?_⟩
  · obtain ⟨f, hf, toF⟩ := each f' hf'
    obtain ⟨g, hg, toG⟩ := each g' hg'
    obtain ⟨other, from_⟩ := toF.free link.ne hi
    have below := (toG.binds bound).resolve_left other
    rcases from_ with hi | eq
    · exact h.free hf hg i hi below
    · obtain ⟨a, b, mem, hi⟩ := mem_freeIndices_found found eq
      exact h.free mem hg i hi below
  · obtain ⟨f, hf, toF⟩ := each f' hf'
    exact toF.nested (h.unshadowed hf)

end

/-! ## Factors of an assignment -/

section Factors

omit [Scalar K] [Field K]

theorem forall₂_append_left {α β : Type} {R : α → β → Prop} {as xs : List α} {bs : List β} (h : Forall₂ R (as ++ xs) bs) :
    ∃ as' xs', bs = as' ++ xs' ∧ Forall₂ R as as' ∧ Forall₂ R xs xs' := by
  refine ⟨bs.take as.length, bs.drop as.length, (take_append_drop ..).symm, ?_, ?_⟩
  · simpa using forall₂_take as.length h
  · simpa using forall₂_drop as.length h

end Factors

/-- What a factor becomes by replacements: it is read, and addresses, where the slots stand. -/
structure Follows (env : Environment K) (name : String) (shape : Shape) (trace : List (Index × Slot (Expr K))) (f f' : Expr K) :
    Prop where
  value (σ : Valuation) : f'.value env σ [] = f.value env (retrace env trace σ) []
  defined {σ : Valuation} : Defined env f (retrace env trace σ) [] → Defined env f' σ []
  placed : Placed name shape f → Placed name shape f'
  address_eq (σ : Valuation) : Placed name shape f → address env f' σ = address env f (retrace env trace σ)

variable {is is' ks : List Index} {fs fs' as as' as₁ : List (Expr K)} {t t' t₁ r₁ : Expr K}
  {trace : List (Index × Slot (Expr K))}

theorem Cancels.follows [Exact K] (h : Cancels extent is fs trace is' fs') (inv : Cancellable extent inside is fs) :
    Forall₂ (Follows env name shape trace) fs fs' := by
  refine h.traced inv (S := Follows env name shape) (fun f => ⟨fun _ => rfl, id, id, fun _ _ => rfl⟩) fun hr fits rest => ?_
  refine ⟨fun σ => (rest.value σ).trans (hr.value fits _), fun defined => rest.defined (hr.defined fits defined),
    fun placed => rest.placed (hr.placed placed), fun σ placed => ?_⟩
  exact (rest.address_eq σ (hr.placed placed)).trans (hr.address_eq placed fits _)

/-- What a monomial adds to one entry at a valuation: nothing where the variable addresses another one. -/
def weight (env : Environment K) (p : List Int) (as : List (Expr K)) (t r : Expr K) (σ : Valuation) : K :=
  if address env t σ = p then productAt env σ as * r.value env σ [] else 0

variable {p : List Int}

theorem weight_eq_zero (placed : Placed name shape t) (mem : .delta i j ∈ as ++ [t, r])
    (differ : Expr.position env σ i ≠ Expr.position env σ j) : weight env p as t r σ = 0 := by
  have zero : (Expr.delta i j).value env σ [] = 0 := by rw [Expr.value_delta, if_neg differ]
  have vanish : Expr.productAt env σ as * r.value env σ [] = 0 := by
    rcases mem_append.1 mem with mem | mem
    · rw [Expr.productAt, prod_eq_zero (mem_map.2 ⟨_, mem, zero⟩), zero_mul]
    · rcases mem_pair.1 mem with rfl | rfl
      · cases placed
      · rw [zero, mul_zero]
  rw [weight, vanish, ite_self]

/-- The indices that factors depend on are in range, and the atomics are defined wherever the indices run. -/
structure Accounted (env : Environment K) (extent : Index → Extent) (ρ : Valuation) (is : List Index) (as : List (Expr K))
    (t r : Expr K) : Prop where
  anchored : Anchored extent ρ is (as ++ [t, r])
  defined {σ : Valuation} : σ ∈ ρ.runs extent is → ∀ a ∈ as, Defined env a σ []

theorem Accounted.perm (h : Accounted env extent ρ is as t r) (same : ∀ i, i ∈ is ↔ i ∈ ks) :
    Accounted env extent ρ ks as t r :=
  ⟨fun f hf k hk out => h.anchored f hf k hk fun mem => out ((same k).1 mem),
    fun hσ => h.defined ((Valuation.runs_perm same).mem_iff.2 hσ)⟩

/-- What a round of cancellations leaves: some of the indices, and factors that add the same to each entry over them. -/
structure Round (env : Environment K) (extent : Index → Extent) (is : List Index) (as : List (Expr K)) (t r : Expr K)
    (is' : List Index) (as' : List (Expr K)) (t' r' : Expr K) : Prop where
  sublist : is'.Sublist is
  fits {f : Expr K} : f ∈ as' ++ [t', r'] → WellFormed extent f ∧ f.shape = []
  separate : Separate (as' ++ [t', r'])
  paired {i j : Slot (Expr K)} : (∀ f ∈ as ++ [t, r], Ranged extent (Reaches env) f) → .delta i j ∈ as' ++ [t', r'] →
    Paired extent (Reaches env) i j
  accounted {ρ : Valuation} {ks : List Index} : Accounted env extent ρ (is ++ ks) as t r →
    Accounted env extent ρ (is' ++ ks) as' t' r'
  sum_eq {ρ : Valuation} {ks : List Index} (p : List Int) : (∀ i ∈ is, i ∉ ks) → Accounted env extent ρ (is ++ ks) as t r →
    ((ρ.runs extent (is ++ ks)).map (weight env p as t r)).sum = ((ρ.runs extent (is' ++ ks)).map (weight env p as' t' r')).sum

/-- What becomes of an atomic when indexings of components are carried out. -/
structure Pruned (extent : Index → Extent) (inside : Int → Expr K → Prop) (a a' : Expr K) : Prop where
  refines : Refines (fun _ => False) extent a a'
  deltas : Ranged extent inside a → Lacks (Unpaired extent inside) a'

theorem weight_retrace (atomics : Forall₂ (Follows env name shape trace) as as₁)
    (own : Follows env name shape trace t t₁) (rest : Follows env name shape trace r r₁) (placed : Placed name shape t) (σ : Valuation) :
    weight env p as t r (retrace env trace σ) = weight env p as₁ t₁ r₁ σ := by
  rw [weight, weight, own.address_eq σ placed, rest.value, productAt_congr (atomics.imp fun _ _ h => h.value σ)]

/-- Atomics that are defined stay defined with the same values. -/
theorem Pruned.values (h : Forall₂ (Pruned extent inside) as as') (scalar : ∀ a ∈ as, a.shape = [])
    (defined : ∀ a ∈ as, Defined env a σ []) :
    Forall₂ (fun a a' => Defined env a' σ [] ∧ a'.value env σ [] = a.value env σ []) as as' := by
  refine forall₂_iff_zip.2 ⟨h.length_eq, fun {a a'} mem => ?_⟩
  have ha := (of_mem_zip mem).1
  exact ((forall₂_zip h mem).refines.carries env σ).scalar (scalar a ha) (defined a ha)

theorem exists_refined (fits : WellFormed extent r) (atomics : Forall₂ (Pruned extent inside) as as')
    (own : Refines (fun _ => False) extent t t') :
    ∀ f' ∈ as' ++ [t', r], ∃ f ∈ as ++ [t, r], Refines (fun _ => False) extent f f' := by
  intro f' hf'
  rcases mem_append.1 hf' with mem | mem
  · obtain ⟨a, ha, h⟩ := exists_of_forall₂ atomics.flip mem
    exact ⟨a, mem_append_left _ ha, h.refines⟩
  · rcases mem_pair.1 mem with rfl | rfl
    · exact ⟨t, by simp, own⟩
    · exact ⟨f', by simp, .refl fits⟩

/-- Replacements lead from factors to others, and the variable and the atomics among them are pruned. -/
structure Leaves (env : Environment K) (extent : Index → Extent) (name : String) (shape : Shape)
    (trace : List (Index × Slot (Expr K))) (as : List (Expr K)) (t r : Expr K) (as₁ : List (Expr K)) (t₁ r₁ : Expr K)
    (as' : List (Expr K)) (t' : Expr K) : Prop where
  atomics : Forall₂ (Follows env name shape trace) as as₁
  own : Follows env name shape trace t t₁
  rest : Follows env name shape trace r r₁
  pruned : Forall₂ (Pruned extent (Reaches env)) as₁ as'
  access : ∃ dims, t' = .access name shape dims
  refines : Refines (fun _ => False) extent t₁ t'
  address_eq (ρ : Valuation) : address env t' ρ = address env t₁ ρ

namespace Leaves

variable (h : Leaves env extent name shape trace as t r as₁ t₁ r₁ as' t')

include h in
theorem defined {σ : Valuation} (scalar : ∀ a ∈ as₁, a.shape = [])
    (defined : ∀ a ∈ as, Defined env a (retrace env trace σ) []) :
    Forall₂ (fun a a' => Defined env a' σ [] ∧ a'.value env σ [] = a.value env σ []) as₁ as' := by
  refine Pruned.values h.pruned scalar fun a₁ ha₁ => ?_
  obtain ⟨a, ha, follows⟩ := exists_of_forall₂ h.atomics.flip ha₁
  exact follows.defined (defined a ha)

include h in
theorem weight_eq {p : List Int} {σ : Valuation} (placed : Placed name shape t) (scalar : ∀ a ∈ as₁, a.shape = [])
    (defined : ∀ a ∈ as, Defined env a (retrace env trace σ) []) :
    weight env p as t r (retrace env trace σ) = weight env p as' t' r₁ σ := by
  have same := (h.defined scalar defined).imp fun _ _ => And.right
  rw [weight_retrace h.atomics h.own h.rest placed, weight, weight, h.address_eq, productAt_congr same]

end Leaves

section

omit [Field K]

theorem Cancels.separate (cancels : Cancels extent is fs trace is' fs') (inv : Cancellable extent inside is fs) (h : Separate fs) :
    Cancellable extent inside is' fs' ∧ Separate fs' :=
  cancels.keeps inv (I := fun _ fs => Separate fs) (fun _ found link redirected h => h.step found link redirected) h

theorem Cancels.ranged (cancels : Cancels extent is fs trace is' fs') (inv : Cancellable extent inside is fs)
    (h : ∀ f ∈ fs, Ranged extent inside f) : ∀ f ∈ fs', Ranged extent inside f := by
  refine (cancels.keeps inv (I := fun _ fs => ∀ f ∈ fs, Ranged extent inside f) (fun _ _ link redirected h f' hf' => ?_) h).2
  obtain ⟨f, hf, hr⟩ := exists_of_forall₂ redirected.flip hf'
  exact hr.ranged link (h f hf)

theorem Cancels.anchored (cancels : Cancels extent is fs trace is' fs') (inv : Cancellable extent inside is fs)
    (h : Anchored extent ρ (is ++ ks) fs) : Anchored extent ρ (is' ++ ks) fs' :=
  (cancels.keeps inv (I := fun is fs => Anchored extent ρ (is ++ ks) fs)
    (fun inv found link redirected h => h.step inv.distinct found link redirected) h).2

end

/-- Cancellations and the indexings that are carried out after them make a round. -/
theorem Cancels.round (cancels : Cancels extent is (as ++ [t, r]) trace is' (as₁ ++ [t₁, r₁]))
    (inv : Cancellable extent (Reaches env) is (as ++ [t, r])) (separate : Separate (as ++ [t, r])) (placed : Placed name shape t)
    (leaves : Leaves env extent name shape trace as t r as₁ t₁ r₁ as' t') : Round env extent is as t r is' as' t' r₁ := by
  obtain ⟨inv', separate'⟩ := cancels.separate inv separate
  have last : r₁ ∈ as₁ ++ [t₁, r₁] := by simp
  have refined := exists_refined (inv'.fits last) leaves.pruned leaves.refines
  have scalar : ∀ a ∈ as₁, a.shape = [] := fun a ha => inv'.scalar (mem_append_left _ ha)
  refine ⟨cancels.sublist, fun {f'} hf' => ?_, separate'.refine refined, fun ranged mem => ?_, fun acc => ⟨?_, ?_⟩,
    fun p apart acc => ?_⟩
  · obtain ⟨f, hf, refines⟩ := refined f' hf'
    exact ⟨refines.fits, refines.shape.trans (inv'.scalar hf)⟩
  · rcases mem_append.1 mem with mem | mem
    · obtain ⟨a, ha, pruned⟩ := Expr.exists_of_forall₂ leaves.pruned.flip mem
      exact paired_of_lacks (pruned.deltas (cancels.ranged inv ranged a (mem_append_left _ ha)))
    · rcases mem_pair.1 mem with eq | eq
      · obtain ⟨dims, access⟩ := leaves.access
        cases eq.trans access
      · subst eq
        exact inv'.paired last
  · intro f' hf' k hk out
    obtain ⟨f, hf, refines⟩ := refined f' hf'
    exact cancels.anchored inv acc.anchored f hf k (refines.free hk) out
  · intro σ hσ a' ha'
    have values := leaves.defined scalar (acc.defined (cancels.retrace_mem inv acc.anchored hσ))
    obtain ⟨a, -, defined, -⟩ := Expr.exists_of_forall₂ values.flip ha'
    exact defined
  · rw [cancels.sum_eq inv acc.anchored apart fun mem σ differ => weight_eq_zero placed mem differ]
    refine congrArg List.sum (map_congr_left fun σ hσ => ?_)
    exact leaves.weight_eq placed scalar (acc.defined (cancels.retrace_mem inv acc.anchored hσ))

/-! ## A delta to the power zero -/

/-- A power of a delta. -/
def deltaPower : Expr ℚ := .binary .power (.delta (.free ⟨0⟩) (.fixed 1)) (.var "u" [])

/-- The power of the delta where its index stands at zero, so that the delta is zero. -/
def deltaRead : Expr ℚ := .indexed (.componentTensor deltaPower [(⟨0⟩, 2)]) [.fixed 0]

/-- A number that is assigned. -/
def cell : Expr ℚ := .access "A" [some 1] [⟨0, []⟩]

theorem freeIndices_deltaPower : deltaPower.freeIndices = [⟨0⟩] := by
  rw [deltaPower, freeIndices, freeIndices, freeIndices]
  rfl

theorem wellFormed_deltaPower : WellFormed threeIndices.extents deltaPower :=
  wellFormed_binary (wellFormed_leaf ⟨.inl rfl, trivial⟩ rfl) (wellFormed_leaf trivial rfl) rfl rfl

theorem paired_deltaPower {inside : Int → Expr ℚ → Prop} : Paired threeIndices.extents inside (.free ⟨0⟩) (.fixed 1) := by
  refine ⟨nofun, fun eq => ?_, nofun⟩
  cases eq
  exact ⟨2, rfl, by decide, by decide⟩

theorem inlineComponents_deltaRead {es : List (Expr ℚ)} (h : es = [] ∨ es = [cell]) :
    inlineComponents (deltaRead :: es) = pure (Build.zero :: es) := by
  have delta : (delta (.free ⟨0⟩) (.fixed 1) : Expr ℚ).freeIndices = [⟨0⟩] := by
    rw [freeIndices]
    rfl
  have number : (var "u" [] : Expr ℚ).freeIndices = [] := by rw [freeIndices]
  have restrict : Substitution.restrict [(⟨0⟩, .fixed 0)] deltaPower = [(⟨0⟩, .fixed 0)] := by
    simp [Substitution.restrict, freeIndices_deltaPower]
  have outer : ∀ self, substituteStep deltaRead self [] =
      self deltaPower (sizeOf_inlined deltaPower [(⟨0⟩, 2)] [.fixed 0]) [(⟨0⟩, .fixed 0)] := fun _ => rfl
  have inner : ∀ self, substituteStep deltaPower self [(⟨0⟩, .fixed 0)] =
      reuse deltaPower fun c h => self c h (Substitution.restrict [(⟨0⟩, .fixed 0)] deltaPower) := fun _ => rfl
  unfold inlineComponents substitute mapMemoArg
  rw [mapM_cons, StateT.run'_eq, StateT.run_bind, run_memoiseArg, Std.HashMap.getElem?_empty]
  simp only
  rw [outer, run_memoiseArg, Std.HashMap.getElem?_empty]
  simp only
  rw [inner, restrict]
  rcases h with rfl | rfl
  all_goals simp [reuse, mapChildren, deltaRead, deltaPower, cell, children, attach, attachWith, run_memoiseArg, substituteStep,
    Substitution.restrict, delta, number, Substitution.applySlot, Substitution.apply, Build.delta, sameAll, Build.reconstruct,
    Build.binary, Build.power, Build.requireScalar, Build.require, shape, Build.zero, isZero]

theorem inlineComponents_zero {es : List (Expr ℚ)} (h : es = [] ∨ es = [cell]) :
    inlineComponents (Build.zero :: es) = pure (Build.zero :: es) := by
  unfold inlineComponents substitute mapMemoArg
  rw [mapM_cons, StateT.run'_eq, StateT.run_bind, run_memoiseArg]
  rcases h with rfl | rfl
  all_goals simp [substituteStep, reuse, mapChildren, children, Build.zero, sameAll, attach, attachWith, cell, run_memoiseArg]

end Rewrite

/-! ## Two rounds -/

namespace Mode.Spectral

open Rewrite

variable {K : Type} [Scalar K]

/-- Cancel the deltas on indices, and carry out indexings of components after that. -/
def cancelAndPrune (is : List Index) (factors : List (Expr K)) : Build (List Index × List (Expr K)) := do
  let (is, factors) ← Rewrite.eliminateDeltas is factors
  return (is, ← pruneFirst factors)

/-- The term that is read off the factors that are left. -/
def readTerm (sumIndices own : List Index) (factors : List (Expr K)) : Build (Term K) :=
  match factors.reverse with
  | rest :: target :: args => do
    require (Indices.ofList own == target.freeIndices)
    return ⟨target, ⟨sumIndices, args.reverse.filter (· != one), rest⟩⟩
  | _ => throw .outOfRange

theorem eliminateDeltas_eq (target : Expr K) (m : Monomial K) :
    eliminateDeltas target m = (do
      let (sumIndices, factors) ← cancelAndPrune m.sumIndices (m.atomics ++ [target, m.rest])
      let (own, factors) ← cancelAndPrune target.freeIndices factors
      readTerm sumIndices own factors) := by
  simp only [eliminateDeltas, cancelAndPrune, bind_assoc, pure_bind]
  rfl

variable [Field K] [Exact K] {env : Environment K} {extent : Index → Extent} {inside : Int → Expr K → Prop} {name : String}
  {shape : Shape} {is : List Index} {as : List (Expr K)} {t r : Expr K}

theorem ensures_pruneFirst (inv : Cancellable extent inside is (as ++ [t, r])) (separate : Separate (as ++ [t, r]))
    (placed : Placed name shape t) :
    Ensures extent (pruneFirst (as ++ [t, r])) fun fs => ∃ as' t', fs = as' ++ [t', r] ∧
      Forall₂ (Pruned extent inside) as as' ∧ (∃ dims, t' = .access name shape dims) ∧
      Refines (fun _ => False) extent t t' ∧ ∀ env ρ, address env t' ρ = address env t ρ := by
  have first : (as ++ [t, r]).dropLast = as ++ [t] := by simp
  have last : (as ++ [t, r]).getLast? = some r := by simp
  rw [pruneFirst, first, last]
  have mem : ∀ f ∈ as ++ [t], f ∈ as ++ [t, r] := by
    intro f hf
    rw [← first] at hf
    exact mem_of_mem_dropLast hf
  have fits : ∀ f ∈ as ++ [t], WellFormed extent f := fun f hf => inv.fits (mem f hf)
  have scopes : ∀ f ∈ as ++ [t], f.Unshadowed := fun f hf => separate.unshadowed (mem f hf)
  have guards : Guards extent (Unpaired extent inside) _ := guards_unpaired
  have placing := ensures_inlineComponents_with (w := fun _ => False) (A := fun e _ => Placed name shape e)
    (T := Addresses name shape) (R := fun _ _ => True) (fun _ => trivial) (fun _ _ => trivial)
    (fun pre placed h => (h.addresses pre.fits placed).ofRestrict placed pre.fits) fits scopes
  refine ((ensures_inlineComponents_lacks (w := fun _ => False) rare_unpaired guards fits scopes).both placing).bind
    fun rs hrs => ensures_pure ?_
  have whole := forall₂_iff_zip.2 ⟨hrs.1.length_eq, fun mem =>
    And.intro (forall₂_zip hrs.1 mem) (forall₂_zip hrs.2 mem)⟩
  obtain ⟨as', xs, rfl, atomics, own⟩ := forall₂_append_left whole
  obtain _ | ⟨own, _ | _⟩ := own
  obtain ⟨dims, access, address⟩ := own.2.2 placed
  refine ⟨as', _, by simp, atomics.imp fun a a' h => ⟨h.1.1, fun ranged => h.1.2 ⟨ranged.deltas, ranged.entries, ?_⟩⟩,
    ⟨dims, access⟩, own.1.1, address⟩
  rintro p ⟨⟩

/-- One round leaves a variable, atomics and a rest. -/
theorem ensures_cancelAndPrune (inv : Cancellable extent (Reaches env) is (as ++ [t, r]))
    (known : ∀ i ∈ is, ∃ n : Nat, extent i = some (n : Int)) (separate : Separate (as ++ [t, r])) (placed : Placed name shape t) :
    Ensures extent (cancelAndPrune is (as ++ [t, r])) fun p => ∃ as' t' r', p.2 = as' ++ [t', r'] ∧
      (∃ dims, t' = .access name shape dims) ∧ Round env extent is as t r p.1 as' t' r' := by
  unfold cancelAndPrune
  refine (ensures_eliminateWithin (Nat.le_refl _) inv known).bind fun p hp => ?_
  obtain ⟨is', fs⟩ := p
  obtain ⟨trace, cancels⟩ := hp
  have follows : Forall₂ (Follows env name shape trace) (as ++ [t, r]) fs := cancels.follows inv
  obtain ⟨as₁, xs, rfl, atomics, pair⟩ := forall₂_append_left follows
  obtain _ | ⟨own, _ | ⟨rest, _ | _⟩⟩ := pair
  obtain ⟨inv', separate'⟩ := cancels.separate inv separate
  refine (ensures_pruneFirst inv' separate' (own.placed placed)).bind fun fs' hfs' => ensures_pure ?_
  obtain ⟨as', t', rfl, pruned, access, refines, address⟩ := hfs'
  exact ⟨as', t', _, rfl, access, cancels.round inv separate placed ⟨atomics, own, rest, pruned, access, refines, address env⟩⟩

/-! ## What is added to an entry -/

/-- What a term adds to the entry at `p`: the value of the monomial, wherever the indices of the variable address the entry. -/
def Term.addedTo (env : Environment K) (extent : Index → Extent) (ρ : Valuation) (t : Term K) (p : List Int) : K :=
  ((ρ.runs extent t.variable_.freeIndices).map fun σ =>
    if address env t.variable_ σ = p then t.monomial.value env extent σ else 0).sum

variable {ρ : Valuation}

omit [Exact K] in
theorem Term.addedTo_eq {t : Term K} {p : List Int} (placed : Placed name shape t.variable_)
    (fits : WellFormed extent t.variable_) (apart : ∀ i ∈ t.variable_.freeIndices, i ∉ t.monomial.sumIndices) :
    t.addedTo env extent ρ p = ((ρ.runs extent (t.variable_.freeIndices ++ t.monomial.sumIndices)).map
      (weight env p t.monomial.atomics t.variable_ t.monomial.rest)).sum := by
  rw [Valuation.runs_append apart, map_flatMap, flatMap_def, sum_flatten, map_map, addedTo]
  refine congrArg List.sum (map_congr_left fun σ _ => ?_)
  -- the indices that are summed over do not move the variable
  have still : ∀ τ ∈ σ.runs extent t.monomial.sumIndices, address env t.variable_ τ = address env t.variable_ σ := fun τ hτ =>
    placed.address_congr fits fun i hi => Valuation.eq_of_mem_runs hτ (apart i hi)
  split
  · rename_i here
    refine congrArg List.sum (map_congr_left fun τ hτ => ?_)
    rw [weight, still τ hτ, if_pos here]
    rfl
  · rename_i elsewhere
    refine (sum_eq_zero ?_).symm
    rw [forall_mem_map]
    intro τ hτ
    rw [weight, still τ hτ, if_neg elsewhere]

omit [Scalar K] [Exact K] in
theorem sum_runs_perm {js : List Index} (same : ∀ i, i ∈ is ↔ i ∈ js) (g : Valuation → K) :
    ((ρ.runs extent is).map g).sum = ((ρ.runs extent js).map g).sum := ((Valuation.runs_perm same).map g).sum_eq

theorem weight_filter_one (env : Environment K) (p : List Int) (as : List (Expr K)) (t r : Expr K) (σ : Valuation) :
    weight env p (as.filter (· != one)) t r σ = weight env p as t r σ := by
  have same : productAt env σ (as.filter (· != one)) = productAt env σ as := by
    induction as with
    | nil => rfl
    | cons a as ih =>
      rw [filter_cons]
      split
      · simp only [productAt, map_cons, prod_cons] at ih ⊢
        rw [ih]
      · rename_i isOne
        obtain rfl : a = one := by simpa using isOne
        rw [ih, productAt, productAt, map_cons, prod_cons, value_one, one_mul]
  rw [weight, weight, same]

omit [Field K] [Exact K] in
/-- What is read off the factors that are left is their term, if the variable has the indices that are left. -/
theorem ensures_readTerm (sumIndices own : List Index) (as : List (Expr K)) (t r : Expr K) :
    Ensures extent (readTerm sumIndices own (as ++ [t, r])) fun term =>
      term = ⟨t, ⟨sumIndices, as.filter (· != one), r⟩⟩ ∧ ∀ i, i ∈ own ↔ i ∈ t.freeIndices := by
  have reversed : (as ++ [t, r]).reverse = r :: t :: as.reverse := by simp
  rw [readTerm, reversed]
  refine ensures_require.bind fun _ same => ensures_pure ⟨by rw [reverse_reverse], fun i => ?_⟩
  rw [← eq_of_beq same, Indices.mem_ofList]

variable {m : Monomial K} {target : Expr K} {dims : List DimAccess}

/-- What is left after a round on the indices that are summed over and one on the indices of the variable adds the same. -/
theorem addedTo_of_rounds {sums own : List Index} {as' : List (Expr K)} {t' r' : Expr K}
    (placed : Placed name shape target) (fits : WellFormed extent target) (placed' : Placed name shape t')
    (apart : ∀ i ∈ m.sumIndices, i ∉ target.freeIndices) (first : Round env extent m.sumIndices m.atomics target m.rest sums as t r)
    (second : Round env extent target.freeIndices as t r own as' t' r') (same : ∀ i, i ∈ own ↔ i ∈ t'.freeIndices)
    (acc : Accounted env extent ρ (m.sumIndices ++ target.freeIndices) m.atomics target m.rest) (p : List Int) :
    Term.addedTo env extent ρ ⟨t', ⟨sums, as'.filter (· != one), r'⟩⟩ p = Term.addedTo env extent ρ ⟨target, m⟩ p := by
  have swap (is js : List Index) : ∀ i, i ∈ is ++ js ↔ i ∈ js ++ is := fun i => by rw [mem_append, mem_append, or_comm]
  have disjoint : ∀ i ∈ target.freeIndices, i ∉ sums := fun i hi hs => apart i (first.sublist.subset hs) hi
  calc Term.addedTo env extent ρ ⟨t', ⟨sums, as'.filter (· != one), r'⟩⟩ p
      = ((ρ.runs extent (t'.freeIndices ++ sums)).map (weight env p (as'.filter (· != one)) t' r')).sum := by
        refine Term.addedTo_eq placed' (second.fits (by simp)).1 fun i hi => ?_
        exact disjoint i (second.sublist.subset ((same i).2 hi))
    _ = ((ρ.runs extent (own ++ sums)).map (weight env p as' t' r')).sum := by
        rw [funext (weight_filter_one env p as' t' r')]
        exact sum_runs_perm (fun i => by rw [mem_append, mem_append, same]) _
    _ = ((ρ.runs extent (target.freeIndices ++ sums)).map (weight env p as t r)).sum :=
        (second.sum_eq p disjoint ((first.accounted acc).perm (swap _ _))).symm
    _ = ((ρ.runs extent (sums ++ target.freeIndices)).map (weight env p as t r)).sum := sum_runs_perm (swap _ _) _
    _ = ((ρ.runs extent (m.sumIndices ++ target.freeIndices)).map (weight env p m.atomics target m.rest)).sum :=
        (first.sum_eq p apart acc).symm
    _ = ((ρ.runs extent (target.freeIndices ++ m.sumIndices)).map (weight env p m.atomics target m.rest)).sum :=
        sum_runs_perm (swap _ _) _
    _ = Term.addedTo env extent ρ ⟨target, m⟩ p :=
        (Term.addedTo_eq (t := ⟨target, m⟩) placed fits fun i hi hs => apart i hs hi).symm

/-! ## The identity matrix -/

section Identity

/-- The entry `(i, j)` of a two by two matrix that is assigned. -/
def squareEntry (i j : Index) : Expr ℚ := .access "A" [some 2, some 2] [⟨0, [(i, ⟨1, false⟩)]⟩, ⟨0, [(j, ⟨1, false⟩)]⟩]

/-- The entries of the identity matrix. -/
def identityEntry : Monomial ℚ := ⟨[], [], .delta (.free ⟨0⟩) (.free ⟨1⟩)⟩

theorem freeIndices_squareEntry : (squareEntry ⟨0⟩ ⟨1⟩).freeIndices = [⟨0⟩, ⟨1⟩] ∧ (squareEntry ⟨1⟩ ⟨1⟩).freeIndices = [⟨1⟩] := by
  simp [squareEntry, freeIndices, Indices.ofList, Indices.union, Indices.insert]

theorem inlineComponents_squareEntry : inlineComponents [squareEntry ⟨0⟩ ⟨1⟩] = pure [squareEntry ⟨0⟩ ⟨1⟩] := by
  unfold inlineComponents substitute mapMemoArg
  rw [mapM_cons, mapM_nil, memoiseArg]
  simp [substituteStep, Substitution.restrict, squareEntry]

/-- The matrix read with the first index where the second one stands. -/
def diagonalRead : Expr ℚ := .indexed (.componentTensor (squareEntry ⟨0⟩ ⟨1⟩) [(⟨0⟩, 2)]) [.free ⟨1⟩]

theorem run_redirect_squareEntry :
    (redirect ⟨0⟩ (.free ⟨1⟩) (squareEntry ⟨0⟩ ⟨1⟩)).run.run threeIndices = (.ok diagonalRead, threeIndices) := by
  rw [redirect]
  · simp only [Build.tensorOver, Build.componentTensor, freeIndices_squareEntry.1]
    rfl
  · rintro i j ⟨⟩

theorem redirect_identity : redirect ⟨0⟩ (.free ⟨1⟩) (.delta (.free ⟨0⟩) (.free ⟨1⟩)) = (pure one : Build (Expr ℚ)) := by
  have free : (⟨0⟩ : Index) ∈ (delta (.free ⟨0⟩) (.free ⟨1⟩) : Expr ℚ).freeIndices := mem_freeIndices_delta.2 (.inl rfl)
  rw [redirect, if_neg (by simpa using free), substitute_delta free (by simp)]
  rfl

theorem run_diagonalRead : (inlineComponents [diagonalRead]).run.run threeIndices = (.ok [squareEntry ⟨1⟩ ⟨1⟩], threeIndices) := by
  have made : (access (.var "A" [some 2, some 2])
      [(0, [(.free ⟨1⟩, ⟨1, false⟩)]), (0, [(.free ⟨1⟩, ⟨1, false⟩)])] : Build (Expr ℚ)).run.run threeIndices =
      (.ok (squareEntry ⟨1⟩ ⟨1⟩), threeIndices) := rfl
  have free := freeIndices_squareEntry.1
  have map {α β : Type} (x : Id α) (f : α → β) : (f <$> x) = f x := rfl
  simp only [diagonalRead, squareEntry] at *
  -- the read, and the access below it
  unfold inlineComponents substitute mapMemoArg
  rw [mapM_cons, mapM_nil, memoiseArg]
  simp [substituteStep, Substitution.restrict, Substitution.applySlot, Substitution.apply, Substitution.insertAll, Substitution.insert]
  rw [memoiseArg]
  simp [substituteStep, Substitution.restrict, Substitution.apply, free]
  simp [made, map, Except.map]

/-- The identity matrix is assigned along the diagonal. -/
theorem run_identityEntry : (eliminateDeltas (squareEntry ⟨0⟩ ⟨1⟩) identityEntry).run.run threeIndices =
    (.ok ⟨squareEntry ⟨1⟩ ⟨1⟩, ⟨[], [], one⟩⟩, threeIndices) := by
  have kept : cancelAndPrune [] [squareEntry ⟨0⟩ ⟨1⟩, .delta (.free ⟨0⟩) (.free ⟨1⟩)] =
      pure ([], [squareEntry ⟨0⟩ ⟨1⟩, .delta (.free ⟨0⟩) (.free ⟨1⟩)]) := by
    simp [cancelAndPrune, Rewrite.eliminateDeltas, eliminateWithin, pruneFirst, inlineComponents_squareEntry]
  have redirected : (mapM (redirect ⟨0⟩ (.free ⟨1⟩)) [squareEntry ⟨0⟩ ⟨1⟩, .delta (.free ⟨0⟩) (.free ⟨1⟩)]).run.run threeIndices =
      (.ok [diagonalRead, one], threeIndices) := by
    rw [mapM_cons, mapM_cons, mapM_nil, redirect_identity]
    exact run_bind_ok run_redirect_squareEntry
  have cancelled : (Rewrite.eliminateDeltas [⟨0⟩, ⟨1⟩] [squareEntry ⟨0⟩ ⟨1⟩, .delta (.free ⟨0⟩) (.free ⟨1⟩)]).run.run threeIndices =
      (.ok ([⟨1⟩], [diagonalRead, one]), threeIndices) := (run_bind_ok redirected).trans rfl
  have pruned : (cancelAndPrune [⟨0⟩, ⟨1⟩] [squareEntry ⟨0⟩ ⟨1⟩, .delta (.free ⟨0⟩) (.free ⟨1⟩)]).run.run threeIndices =
      (.ok ([⟨1⟩], [squareEntry ⟨1⟩ ⟨1⟩, one]), threeIndices) :=
    (run_bind_ok cancelled).trans (run_bind_ok (run_bind_ok run_diagonalRead))
  rw [eliminateDeltas_eq, freeIndices_squareEntry.1]
  refine (run_bind_ok (congrArg (fun x => x.run.run threeIndices) kept)).trans ((run_bind_ok pruned).trans ?_)
  simp only [readTerm, reverse_cons, reverse_nil, nil_append, cons_append, freeIndices_squareEntry.2]
  rfl

theorem separate_identityEntry : Separate [squareEntry ⟨0⟩ ⟨1⟩, identityEntry.rest] := by
  have none : ∀ {P : Expr ℚ → Prop}, (∀ e, e.ownBinders = [] → ¬ P e) → ∀ f ∈ [squareEntry ⟨0⟩ ⟨1⟩, identityEntry.rest],
      Lacks P f := by
    intro P plain f hf
    rcases mem_pair.1 hf with rfl | rfl
    · exact .node (plain _ rfl) (forall_mem_singleton.2 (.leaf (plain _ rfl) rfl))
    · exact .leaf (plain _ rfl) rfl
  refine ⟨fun _ hg i _ => none (fun e own => by simp [own]) _ hg, fun hf => none (fun e own => by simp [own]) _ hf⟩

theorem addedTo_identityEntry (p : List Int) :
    Term.addedTo entrySums threeIndices.extents (fun _ => 0) ⟨squareEntry ⟨0⟩ ⟨1⟩, identityEntry⟩ p =
      if p = [0, 0] ∨ p = [1, 1] then 1 else 0 := by
  have size : Bounds.sizes threeIndices.extents ⟨0⟩ = 2 ∧ Bounds.sizes threeIndices.extents ⟨1⟩ = 2 := ⟨rfl, rfl⟩
  have total : Term.addedTo entrySums threeIndices.extents (fun _ => 0) ⟨squareEntry ⟨0⟩ ⟨1⟩, identityEntry⟩ p =
      (if [0, 0] = p then 1 else 0) + if [1, 1] = p then 1 else 0 := by
    rw [Term.addedTo, freeIndices_squareEntry.1]
    simp [squareEntry, identityEntry, address_access, DimAccess.at, Monomial.value, Valuation.runs, bindersOf, Valuation.ranging, size,
      Expr.position, Valuation.set, show range 2 = [0, 1] from rfl]
  rw [total]
  rcases eq_or_ne p [0, 0] with rfl | first
  · simp
  · rcases eq_or_ne p [1, 1] with rfl | last
    · simp
    · simp [first, last, first.symm, last.symm]

end Identity

section DeltaPower

theorem freeIndices_cell : cell.freeIndices = [] := by
  rw [cell, freeIndices]
  rfl

theorem eliminateDeltas_deltaRead : eliminateDeltas cell ⟨[], [deltaRead], one⟩ = pure ⟨cell, ⟨[], [Build.zero], one⟩⟩ := by
  have differ : (Build.zero != (one : Expr ℚ)) = true := bne_iff_ne.2 nofun
  simp [eliminateDeltas_eq, cancelAndPrune, Rewrite.eliminateDeltas, eliminateWithin, pruneFirst, inlineComponents_deltaRead,
    inlineComponents_zero, readTerm, freeIndices_cell, differ]
  rfl

theorem wellFormed_deltaRead : WellFormed threeIndices.extents deltaRead := by
  refine wellFormed_indexed (wellFormed_node ⟨rfl, by simp, by simp [freeIndices_deltaPower], fun hb => ?_, by simp⟩
    (forall_mem_singleton.2 wellFormed_deltaPower) rfl) ⟨.cons trivial .nil, by simp⟩ (by simp)
  exact mem_singleton.1 hb ▸ rfl

theorem ranged_deltaRead {inside : Int → Expr ℚ → Prop} : Ranged threeIndices.extents inside deltaRead := by
  constructor
  · refine .node id (forall_mem_singleton.2 (.node id (forall_mem_singleton.2 (.node id (forall_mem_cons.2 ⟨?_, ?_⟩)))))
    · exact .leaf (not_not.2 paired_deltaPower) rfl
    · exact forall_mem_singleton.2 (.leaf id rfl)
  · refine .node (not_not.2 (.cons ⟨le_rfl, two_pos⟩ .nil)) (forall_mem_singleton.2 (.node id (forall_mem_singleton.2 ?_)))
    exact .node id (forall_mem_cons.2 ⟨.leaf id rfl, forall_mem_singleton.2 (.leaf id rfl)⟩)

theorem separate_deltaRead : Separate [deltaRead, cell, one] := by
  have plain : ∀ {P : Expr ℚ → Prop}, (∀ e, e.ownBinders = [] → ¬ P e) → Lacks P deltaPower ∧ Lacks P cell ∧ Lacks P one :=
    fun none => ⟨.node (none _ rfl) (forall_mem_cons.2 ⟨.leaf (none _ rfl) rfl, forall_mem_singleton.2 (.leaf (none _ rfl) rfl)⟩),
      .node (none _ rfl) (forall_mem_singleton.2 (.leaf (none _ rfl) rfl)), .leaf (none _ rfl) rfl⟩
  constructor <;> intro f
  · intro g hf _ i hi
    have none : f.freeIndices = [] := by
      simp only [mem_cons, not_mem_nil, or_false] at hf
      rcases hf with rfl | rfl | rfl
      · rw [deltaRead, freeIndices, freeIndices, freeIndices_deltaPower]
        rfl
      · exact freeIndices_cell
      · rw [one, freeIndices]
    exact absurd (none ▸ hi) not_mem_nil
  · intro hf
    simp only [mem_cons, not_mem_nil, or_false] at hf
    rcases hf with rfl | rfl | rfl
    · rw [deltaRead, nested_entry]
      simpa using ⟨(plain fun e own => by simp [own]).1, (plain fun e own => by simp [own]).1⟩
    · exact (plain fun e own => by simp [own]).2.1
    · exact (plain fun e own => by simp [own]).2.2

end DeltaPower

/-! ## Assignments -/

end Mode.Spectral

end FormCompiler
