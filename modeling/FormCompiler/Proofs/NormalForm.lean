import FormCompiler.Mode.Integral
import FormCompiler.Proofs.Monomials
import FormCompiler.Proofs.Placement
import FormCompiler.Proofs.Reserved

/-!
# The normal form of an expansion by arguments

When expressions are expanded by the arguments, what is returned is in normal form: each atomic of a monomial has one argument
among its free indices, the rest has none, and an index that is summed over is free in some atomic. The arguments are
reserved indices, so that the names which indices get on the way change the role of no factor.
-/

namespace FormCompiler

open FormCompiler.Expr List

namespace Expr

variable {K : Type} {P : Index → Prop}

/-- Each free index of the expression has the property. -/
def FreeOnly (P : Index → Prop) (e : Expr K) : Prop := ∀ i ∈ e.freeIndices, P i

theorem inherited_freeOnly : Inherited (FreeOnly P : Expr K → Prop) P fun _ => True := by
  intro es is r made hes free
  clear free
  induction made with
  | literal => simp [FreeOnly, freeIndices]
  | zero _ => simp [FreeOnly, freeIndices]
  | operand he => exact hes _ he
  | listed _ he ih => exact fun i hi => ih i (mem_freeIndices_listTensor.2 ⟨_, he, hi⟩)
  | @join is e kind children =>
    intro i hi
    have none : e.ownIndices = [] := by cases e <;> first | rfl | cases kind
    obtain ⟨⟨c, hc, hi⟩, -⟩ := (mem_freeIndices_iff.1 hi).resolve_left (by simp [none])
    exact hes c (children ▸ hc) i hi
  | indexed _ read ih => exact fun i hi => (mem_freeIndices_indexed.1 hi).elim (read i) (ih i)
  | componentTensor _ _ ih => exact fun i hi => ih i (mem_freeIndices_componentTensor.1 hi).1
  | indexSum _ _ ih => exact fun i hi => ih i (mem_freeIndices_indexSum.1 hi).1

end Expr

/-! ## Roles -/

namespace Mode

open Build Rewrite
open Monomial (Role)

variable {K : Type} {A : List Index} {e r : Expr K}

theorem countP_distinct_eq_zero : (distinct A).countP e.freeIndices.contains = 0 ↔ FreeOnly (· ∉ A) e := by
  rw [countP_eq_zero]
  constructor
  · exact fun none i hi ha => none i (Program.mem_distinct.2 ha) (by simpa using hi)
  · exact fun only i ha hi => only i (by simpa using hi) (Program.mem_distinct.1 ha)

theorem countP_distinct_eq_one : (distinct A).countP e.freeIndices.contains = 1 ↔ ∃! i, i ∈ A ∧ i ∈ e.freeIndices := by
  have mem (i : Index) : i ∈ (distinct A).filter e.freeIndices.contains ↔ i ∈ A ∧ i ∈ e.freeIndices := by
    rw [mem_filter, Program.mem_distinct, contains_iff_mem]
  have once : ((distinct A).filter e.freeIndices.contains).Nodup := (Program.nodup_distinct A).filter _
  rw [countP_eq_length_filter, length_eq_one_iff]
  simp only [← mem]
  constructor
  · rintro ⟨i, eq⟩
    exact ⟨i, by simp [eq], fun j hj => by simpa [eq] using hj⟩
  · rintro ⟨i, hi, only⟩
    refine ⟨i, perm_singleton.1 ((perm_ext_iff_of_nodup once (nodup_singleton i)).2 fun j => ?_)⟩
    rw [mem_singleton]
    exact ⟨only j, fun eq => eq ▸ hi⟩

theorem argumentRole_eq_other : argumentRole A e = .other ↔ FreeOnly (· ∉ A) e := by
  rw [← countP_distinct_eq_zero]
  unfold argumentRole
  generalize (distinct A).countP e.freeIndices.contains = count
  match count with
  | 0 => simp
  | 1 => cases e <;> simp
  | n + 2 => simp

/-- An atomic has one of the arguments among its free indices. -/
theorem existsUnique_of_atomic (h : argumentRole A e = .atomic) : ∃! i, i ∈ A ∧ i ∈ e.freeIndices := by
  rw [← countP_distinct_eq_one]
  unfold argumentRole at h
  generalize (distinct A).countP e.freeIndices.contains = count at h ⊢
  match count with
  | 0 => cases h
  | 1 => rfl
  | n + 2 => cases h

theorem argumentRole_indexed {slots : List (Slot (Expr K))} (h : ∃! i, i ∈ A ∧ i ∈ (Expr.indexed e slots).freeIndices) :
    argumentRole A (.indexed e slots) = .atomic := by
  rw [← countP_distinct_eq_one] at h
  simp only [argumentRole, h]

section Renamed

variable {names : List (Index × Index)} (h : Renamed names e r) (apart : ∀ p ∈ names, p.1 ∉ A ∧ p.2 ∉ A)

include h apart

/-- New names leave an atomic atomic. -/
theorem atomic_renamed (atomic : argumentRole A e = .atomic) : argumentRole A r = .atomic := by
  have free (i : Index) : i ∈ A ∧ i ∈ r.freeIndices ↔ i ∈ A ∧ i ∈ e.freeIndices :=
    and_congr_right fun hi => h.mem_freeIndices (P := (· ∉ A)) apart (not_not.2 hi)
  have unique : ∃! i, i ∈ A ∧ i ∈ r.freeIndices := by
    simpa only [free] using existsUnique_of_atomic atomic
  cases h with
  | same => exact atomic
  | entry => exact argumentRole_indexed unique

/-- New names bring no argument into an expression. -/
theorem freeOnly_renamed (he : FreeOnly (· ∉ A) e) : FreeOnly (· ∉ A) r := by
  intro i hi ha
  exact he i ((h.mem_freeIndices (P := (· ∉ A)) apart (not_not.2 ha)).1 hi) ha

end Renamed

end Mode

/-! ## Monomials -/

namespace Monomial

open Build Rewrite Mode

variable {K : Type} [Scalar K] {n : Nat} {A : List Index} {D : Monomial K → Prop} {m : Monomial K}

/-- The factors are sorted by their roles, and no argument is summed over. -/
structure Separated (A : List Index) (m : Monomial K) : Prop where
  indices : ∀ i ∈ m.sumIndices, i ∉ A
  atomics : ∀ a ∈ m.atomics, argumentRole A a = .atomic
  rest : FreeOnly (· ∉ A) m.rest

/-- In addition, an index that is summed over is free in some atomic. -/
structure Normal (A : List Index) (m : Monomial K) : Prop extends Separated A m where
  shared : ∀ i ∈ m.sumIndices, ∃ a ∈ m.atomics, i ∈ a.freeIndices

/-- A property that asks of the rest only to have no argument. -/
structure OfRest (A : List Index) (D : Monomial K → Prop) : Prop where
  rest {m : Monomial K} : D m → FreeOnly (· ∉ A) m.rest
  replace {m : Monomial K} {r : Expr K} : D m → FreeOnly (· ∉ A) r → D { m with rest := r }

omit [Scalar K] in
theorem ofRest_separated : OfRest A (Separated A : Monomial K → Prop) where
  rest h := h.rest
  replace h hr := ⟨h.indices, h.atomics, hr⟩

omit [Scalar K] in
theorem ofRest_normal : OfRest A (Normal A : Monomial K → Prop) where
  rest h := h.rest
  replace h hr := ⟨⟨h.indices, h.atomics, hr⟩, h.shared⟩

section Names

variable {names : List (Index × Index)} (h : Separated A m) (apart : ∀ p ∈ names, p.1 ∉ A ∧ p.2 ∉ A)

include h apart

theorem Separated.beyond_atomics :
    Beyond n (m.atomics.mapM (applyNames names)) fun as => ∀ a ∈ as, argumentRole A a = .atomic :=
  meets_mapM fun a ha => (beyond_applyNames names a).mono fun _ hr => atomic_renamed hr apart (h.atomics a ha)

theorem Separated.beyond_rest : Beyond n (applyNames names m.rest) (FreeOnly (· ∉ A)) :=
  (beyond_applyNames names m.rest).mono fun _ hr => freeOnly_renamed hr apart h.rest

end Names

end Monomial

namespace MonomialSum

open Build Rewrite Mode
open Monomial (Separated OfRest ofRest_separated)

variable {K : Type} [Scalar K] {n : Nat} {A : List Index} {D : Monomial K → Prop} {m : Monomial K}

/-- All monomials of the sum have the property. -/
def All (D : Monomial K → Prop) (t : MonomialSum K) : Prop := ∀ m ∈ t.monomials, D m

variable {ms : List (Monomial K)} {ts : List (MonomialSum K)}

theorem beyond_addTo (of : OfRest A D) (hm : D m) (hms : ∀ x ∈ ms, D x) : Beyond n (addTo m ms) fun rs => ∀ r ∈ rs, D r := by
  have total {a b : Expr K} : FreeOnly (· ∉ A) a → FreeOnly (· ∉ A) b → Beyond n (Build.sum a b) (FreeOnly (· ∉ A)) :=
    (suits_beyond n).sum inherited_freeOnly
  induction ms with
  | nil =>
    refine (total inherited_freeOnly.zero (of.rest hm)).bind fun r hr => meets_pure ?_
    exact forall_mem_singleton.2 (of.replace hm hr)
  | cons x ms ih =>
    obtain ⟨hx, hms⟩ := forall_mem_cons.1 hms
    refine meets_ite (fun _ => ?_) fun _ => ?_
    · refine (total (of.rest hx) (of.rest hm)).bind fun r hr => meets_pure ?_
      exact forall_mem_cons.2 ⟨of.replace hx hr, hms⟩
    · exact (ih hms).bind fun rs hrs => meets_pure (forall_mem_cons.2 ⟨hx, hrs⟩)

theorem beyond_add (of : OfRest A D) {t : MonomialSum K} (ht : All D t) (hm : D m) : Beyond n (t.add m) (All D) :=
  (suits_beyond n).require.bind fun _ _ => (beyond_addTo of hm ht).bind fun _ hms => meets_pure hms

theorem beyond_sum (of : OfRest A D) (hts : ∀ t ∈ ts, All D t) : Beyond n (sum ts) (All D) := by
  have each : Beyond n (ts.foldlM (fun acc t => t.monomials.foldlM (fun acc m => addTo m acc) acc) []) fun ms => ∀ x ∈ ms, D x :=
    meets_foldlM (R := fun ms => ∀ x ∈ ms, D x) (fun _ h => absurd h not_mem_nil) fun acc t ht hacc =>
      meets_foldlM (R := fun ms => ∀ x ∈ ms, D x) hacc fun acc m hm hacc => beyond_addTo of (hts t ht m hm) hacc
  exact each.bind fun ms hms => meets_pure hms

variable (fresh : ∀ i : Index, n ≤ i.number → i ∉ A)

include fresh

/-- One more factor: its indices get names, under which its atomics and its rest are read. -/
theorem stays_multiply (hms : ∀ m ∈ ms, Separated A m) :
    Stays n (fun r => Unreserved (· ∉ A) r.names) (multiply ms) (Separated A) := by
  refine stays_foldlM ⟨fun _ h => absurd h not_mem_nil, fun _ h => absurd h not_mem_nil, inherited_freeOnly.one⟩
    fun acc m hm hacc => ?_
  have hm := hms m hm
  refine (stays_takeNames fresh hm.indices).bind fun q hq => ?_
  have rest : Beyond n (do Build.product (← applyNames q.2 m.rest) acc.rest) (FreeOnly (· ∉ A)) :=
    (hm.beyond_rest hq.2).bind fun r hr => (suits_beyond n).product inherited_freeOnly hr hacc.rest
  refine (stays_lift (hm.beyond_atomics hq.2)).bind fun as has => (stays_lift rest).bind fun r hr => stays_pure ?_
  exact ⟨forall_mem_append.2 ⟨hacc.indices, hq.1⟩, forall_mem_append.2 ⟨hacc.atomics, has⟩, hr⟩

/-- A product of sums, multiplied out. -/
theorem beyond_product (hts : ∀ t ∈ ts, All (Separated A) t) {names : RenameMap} (hnames : Unreserved (· ∉ A) names) :
    Beyond n (product ts names) fun p => All (Separated A) p.1 ∧ Unreserved (· ∉ A) p.2 := by
  refine meets_foldlM ⟨fun _ h => absurd h not_mem_nil, hnames⟩ fun acc ms hms hacc => ?_
  have members : ∀ m ∈ ms, Separated A m := fun m hm => by
    obtain ⟨l, hl, hm⟩ := mem_of_mem_choices hms hm
    obtain ⟨t, ht, rfl⟩ := mem_map.1 hl
    exact hts t ht m hm
  refine (stays_multiply fresh members ⟨acc.2, []⟩ hacc.2).bind fun q hq => ?_
  exact (beyond_add ofRest_separated hacc.1 hq.1).bind fun t ht => meets_pure ⟨ht, hq.2⟩

end MonomialSum

/-! ## Expansion -/

namespace Monomial

open Build Rewrite Mode
open MonomialSum (All beyond_add beyond_product beyond_sum)

variable {K : Type} [Scalar K] {n : Nat} {A : List Index} {m : Monomial K} {common : Sorted K} {e : Expr K}

/-- Factors that are sorted by their roles; those to be broken up bind no argument. -/
structure Sorted.ByRole (A : List Index) (f : Sorted K) : Prop where
  atomics : ∀ a ∈ f.atomics, argumentRole A a = .atomic
  compounds : ∀ c ∈ f.compounds, BindsOnly (· ∉ A) c
  others : ∀ o ∈ f.others, FreeOnly (· ∉ A) o

omit [Scalar K] in
theorem beyond_sortByRole {terms : List (Expr K)} (hterms : ∀ t ∈ terms, BindsOnly (· ∉ A) t) :
    Beyond n (sortByRole (argumentRole A) terms) (Sorted.ByRole A) := by
  have none {p : Expr K → Prop} : ∀ e ∈ ([] : List (Expr K)), p e := fun _ h => absurd h not_mem_nil
  refine meets_foldlM ⟨none, none, none⟩ fun acc t ht hacc => ?_
  split
  · rename_i role
    exact meets_pure { hacc with atomics := forall_mem_append.2 ⟨hacc.atomics, forall_mem_singleton.2 role⟩ }
  · exact meets_pure { hacc with compounds := forall_mem_append.2 ⟨hacc.compounds, forall_mem_singleton.2 (hterms t ht)⟩ }
  · rename_i role
    refine meets_pure { hacc with others := forall_mem_append.2 ⟨hacc.others, forall_mem_singleton.2 ?_⟩ }
    exact argumentRole_eq_other.1 role
  · exact meets_throw trivial

section Names

variable [StrictSame K] (fresh : ∀ i : Index, n ≤ i.number → i ∉ A)

include fresh

/-- With the common factors a monomial is in normal form: an index that no atomic depends on is summed over in the rest. -/
theorem stays_withCommon {indices : List Index} (hindices : ∀ i ∈ indices, i ∉ A) (hcommon : common.ByRole A) (hm : Separated A m) :
    Stays n (fun r => Unreserved (· ∉ A) r.names) (withCommon indices common m) (Normal A) := by
  refine (stays_takeNames fresh hindices).bind fun _ _ => (stays_takeNames fresh hm.indices).bind fun q hq => ?_
  have rest (is : List Index) : Beyond n (do sumFactorise is (common.others ++ [← applyNames q.2 m.rest])) (FreeOnly (· ∉ A)) := by
    refine (hm.beyond_rest hq.2).bind fun r hr => ?_
    refine (suits_beyond n).sumFactorise inherited_freeOnly ?_
    exact forall_mem_append.2 ⟨hcommon.others, forall_mem_singleton.2 hr⟩
  refine (stays_lift (hm.beyond_atomics hq.2)).bind fun as has => (stays_lift (rest _)).bind fun r hr => stays_pure ?_
  refine ⟨⟨fun i hi => ?_, ?_, hr⟩, fun i hi => ?_⟩
  · exact forall_mem_append.2 ⟨hindices, hq.1⟩ i (mem_filter.1 hi).1
  · exact forall_mem_append.2 ⟨hcommon.atomics, has⟩
  · obtain ⟨a, ha, free⟩ := any_eq_true.1 (mem_filter.1 hi).2
    exact ⟨a, ha, by simpa using free⟩

end Names

omit [Scalar K] in
/-- The summands of an expression bind no more than it does. -/
theorem bindsOnly_summands {P : Index → Prop} {stopAt : Expr K → Bool} (he : BindsOnly P e) : ∀ t ∈ summands stopAt e, BindsOnly P t := by
  fun_induction summands stopAt e with
  | case1 => exact forall_mem_singleton.2 he
  | case2 a b _ left right =>
    exact forall_mem_append.2 ⟨left (he.child (by simp [children])), right (he.child (by simp [children]))⟩
  | case3 => exact forall_mem_singleton.2 he
  | case4 => exact forall_mem_singleton.2 he

/-- Kept sums are in normal form, and no index is renamed to an argument. -/
structure Collected.Tidy (A : List Index) (c : Collected K) : Prop where
  sums : Stored (All (Normal A)) c.sums
  names : Unreserved (· ∉ A) c.names

section Collecting

variable {expand : Expr K → Collecting K (MonomialSum K)}
  (expands : ∀ e, BindsOnly (· ∉ A) e → Stays n (Collected.Tidy A) (expand e) (All (Normal A)))

include expands in
theorem stays_expandSummands (he : BindsOnly (· ∉ A) e) :
    Stays n (Collected.Tidy A) (expandSummands (argumentRole A) expand e) (All (Normal A)) := by
  refine stays_ite (fun _ => stays_throw) fun _ => ?_
  refine (stays_mapM fun t ht => expands t (bindsOnly_summands he t ht)).bind fun ts hts => ?_
  exact stays_lift (beyond_sum ofRest_normal hts)

variable [StrictSame K] (fresh : ∀ i : Index, n ≤ i.number → i ∉ A)

include fresh

theorem stays_multiplyOut {indices : List Index} (hindices : ∀ i ∈ indices, i ∉ A) (hcommon : common.ByRole A)
    {ts : List (MonomialSum K)} (hts : ∀ t ∈ ts, All (Separated A) t) :
    Stays n (Collected.Tidy A) (multiplyOut indices common ts) (All (Normal A)) := by
  refine stays_get.bind fun c tidy => (stays_lift (beyond_product fresh hts tidy.names)).bind fun p hp => ?_
  refine (stays_modify fun c tidy => ⟨tidy.sums, hp.2⟩).bind fun _ _ => ?_
  refine stays_foldlM (fun _ h => absurd h not_mem_nil) fun acc m hm hacc => stays_get.bind fun c tidy => ?_
  refine (stays_lift (stays_withCommon fresh hindices hcommon (hp.1 m hm) ⟨c.names, []⟩ tidy.names)).bind fun q hq => ?_
  refine (stays_modify fun c tidy => ⟨tidy.sums, hq.2⟩).bind fun _ _ => ?_
  exact stays_lift (beyond_add ofRest_normal hacc hq.1)

include expands in
theorem stays_expandFactors {f : Factors K} (hf : FactorsOnly (· ∉ A) f) :
    Stays n (Collected.Tidy A) (expandFactors (argumentRole A) expand f) (All (Normal A)) := by
  refine (stays_lift (beyond_sortByRole hf.terms)).bind fun common hcommon => ?_
  refine (stays_mapM fun c hc => stays_expandSummands expands (hcommon.compounds c hc)).bind fun ts hts => ?_
  exact stays_multiplyOut fresh hf.indices hcommon fun t ht m hm => (hts t ht m hm).toSeparated

end Collecting

variable [StrictSame K] (fresh : ∀ i : Index, n ≤ i.number → i ∉ A)

include fresh

theorem stays_collectOne (height : Nat) (he : BindsOnly (· ∉ A) e) :
    Stays n (Collected.Tidy A) (collectOne (argumentRole A) height e) (All (Normal A)) := by
  induction height generalizing e with
  | zero => exact stays_throw
  | succ height ih =>
    refine stays_get.bind fun c tidy => ?_
    split
    · rename_i t found
      exact stays_pure (tidy.sums e t found)
    · refine (stays_lift (beyond_factors fresh he)).bind fun f hf => ?_
      refine (stays_expandFactors (fun e he => ih he) fresh hf).bind fun t ht => ?_
      exact (stays_modify fun c tidy => ⟨tidy.sums.insert ht, tidy.names⟩).bind fun _ _ => stays_pure ht

theorem beyond_collect {es : List (Expr K)} (hes : ∀ e ∈ es, BindsOnly (· ∉ A) e) :
    Beyond n (collect es (argumentRole A)) fun ts => ∀ t ∈ ts, All (Normal A) t := by
  have finish {es : List (Expr K)} (hes : ∀ e ∈ es, BindsOnly (· ∉ A) e) : Beyond n (do
      let es ← expandConditionals es fun e => argumentRole A e = .compound
      let height := es.foldl (fun acc e => max acc e.height) 0
      (es.mapM (collectOne (argumentRole A) (height + 1))).run' {}) fun ts => ∀ t ∈ ts, All (Normal A) t := by
    refine (beyond_expandConditionals hes).bind fun es hes => ?_
    exact (stays_mapM fun e he => stays_collectOne fresh _ (hes e he)).run' ⟨stored_empty, fun _ h => absurd h not_mem_nil⟩
  refine (beyond_inlineComponents hes).bind fun es hes => ?_
  refine meets_ite (fun _ => ?_) fun _ => finish hes
  exact (beyond_unrollSums hes).bind fun es hes => (beyond_inlineComponents hes).bind fun es hes => finish hes

end Monomial

/-! ## A row of the identity matrix -/

namespace Monomial

open Build Rewrite Mode

/-- The entries of the identity matrix. -/
def unitEntry : Expr ℚ := .delta (.free ⟨0⟩) (.free ⟨1⟩)

/-- The sums of its rows. -/
def unitRow : Expr ℚ := .indexSum unitEntry [(⟨1⟩, 2)]

theorem freeIndices_unitEntry : unitEntry.freeIndices = [⟨0⟩, ⟨1⟩] := by
  rw [unitEntry, freeIndices]
  rfl

theorem argumentRole_unitEntry : argumentRole [⟨0⟩] unitEntry = .atomic := by
  unfold argumentRole
  rw [freeIndices_unitEntry]
  rfl

theorem argumentRole_unitRow : argumentRole [⟨0⟩] unitRow = .compound := by
  have free : unitRow.freeIndices = [⟨0⟩] := by
    rw [unitRow, freeIndices, freeIndices_unitEntry]
    rfl
  unfold argumentRole
  rw [free]
  rfl

theorem inlineComponents_unitEntry : inlineComponents [unitEntry] = pure [unitEntry] := by
  unfold inlineComponents substitute mapMemoArg
  rw [mapM_cons, mapM_nil, StateT.run'_eq, StateT.run_bind, run_memoiseArg]
  simp [substituteStep, unitEntry, Substitution.restrict, Substitution.applySlot, Substitution.apply]

theorem inlineComponents_unitRow : inlineComponents [unitRow] = pure [unitRow] := by
  unfold inlineComponents substitute mapMemoArg
  rw [mapM_cons, mapM_nil, StateT.run'_eq, StateT.run_bind, run_memoiseArg]
  simp [substituteStep, unitRow, unitEntry, Substitution.restrict, Substitution.applySlot, Substitution.apply, run_memoiseArg,
    reuse, mapChildren, children, sameAll, List.attach, List.attachWith]

theorem expandConditionals_unitRow (chosen : Expr ℚ → Bool) : expandConditionals [unitRow] chosen = pure [unitRow] := by
  unfold expandConditionals mapMemo
  rw [mapM_cons, mapM_nil, StateT.run'_eq, StateT.run_bind, run_memoise]
  simp [expandStep, unitRow, unitEntry, run_memoise, reuse, mapChildren, children, sameAll, List.attach,
    List.attachWith]

theorem slotsToUnroll_unitRow : slotsToUnroll (argumentRole [⟨0⟩]) [unitRow] = [] := by
  have nodes {e : Expr ℚ} (reach : Reachable [unitRow] e) : e = unitRow ∨ e = unitEntry := by
    induction reach with
    | root h => exact .inl (mem_singleton.1 h)
    | child _ hc ih =>
      rcases ih with rfl | rfl
      · exact .inr (mem_singleton.1 hc)
      · cases hc
  rw [slotsToUnroll, flatMap_eq_nil_iff]
  intro e he
  rcases nodes (mem_traversal.1 he) with rfl | rfl
  · rfl
  · rfl

theorem factors_unitRow : factors unitRow (fun t => argumentRole [⟨0⟩] t != .compound) = pure ⟨[⟨1⟩], [unitEntry]⟩ := by
  have role : argumentRole [⟨0⟩] (.indexSum unitEntry [(⟨1⟩, 2)]) = .compound := argumentRole_unitRow
  have entry (height : Nat) (is : List Index) : collectFactors (fun t => argumentRole [⟨0⟩] t != .compound) height unitEntry ⟨is, []⟩ =
      pure ⟨is, [unitEntry]⟩ := by
    cases height <;> simp [collectFactors, argumentRole_unitEntry]
  simp [factors, unitRow, collectFactors, role, takeNames, takeName, unusedName, applyNames, inlineComponent,
    inlineComponents_unitEntry, entry]

theorem sumFactorise_one : sumFactorise [] [(Build.one : Expr ℚ)] = pure Build.one := by
  simp [sumFactorise, joinGroups, groupBy, insertGroup, arrangements, contractInOrder, associate, joinCheapest]

theorem add_rest_one (is : List Index) {as : List (Expr ℚ)} (once : is.length = (Indices.ofList is).length) :
    MonomialSum.add {} ⟨is, as, Build.one⟩ = pure ⟨[⟨is, as, Build.one⟩]⟩ := by
  have rest : Build.sum Build.zero Build.one = (pure Build.one : Build (Expr ℚ)) := rfl
  simp [MonomialSum.add, MonomialSum.addTo, Build.require, once, rest]

/-- A row is expanded into one monomial, whose index is that of the sum. -/
theorem collect_unitRow : collect [unitRow] (argumentRole [⟨0⟩]) = pure [⟨[⟨[⟨1⟩], [unitEntry], Build.one⟩]⟩] := by
  have one : MonomialSum.product ([] : List (MonomialSum ℚ)) [] = pure (⟨[⟨[], [], Build.one⟩]⟩, []) := by
    simp [MonomialSum.product, choices, MonomialSum.multiply, add_rest_one [] rfl]
  simp [collect, inlineComponents_unitRow, slotsToUnroll_unitRow, expandConditionals_unitRow, collectOne, factors_unitRow, expandFactors,
    sortByRole, argumentRole_unitEntry, multiplyOut, one, withCommon, takeNames, takeName, unusedName, applyNames, sumFactorise_one,
    freeIndices_unitEntry, add_rest_one [⟨1⟩] rfl]

end Monomial

/-! ## The normal form -/

namespace Monomial

open Build Mode
open Rewrite (threeIndices)

variable {K : Type} [Scalar K] [StrictSame K]

/-- Expansion by the arguments reaches its normal form. The arguments are indices of the session, and none of them is bound in the
expressions. In each monomial that is returned, an atomic has one argument and is still atomic under the names it has got, the
rest has no argument and plays no part, and an index that is summed over is free in some atomic. -/
theorem collect_reaches_normalForm {s s' : Session} {A : List Index} {es : List (Expr K)} {sums : List (MonomialSum K)}
    (known : ∀ i ∈ A, s.Has i) (unbound : ∀ e ∈ es, ∀ i ∈ A, ¬ Expr.Binds i e)
    (run : (collect es (argumentRole A)).run.run s = (.ok sums, s')) : ∀ t ∈ sums, ∀ m ∈ t.monomials,
      (∀ a ∈ m.atomics, (∃! i, i ∈ A ∧ i ∈ a.freeIndices) ∧ argumentRole A a = .atomic) ∧
      ((∀ i ∈ A, i ∉ m.rest.freeIndices) ∧ argumentRole A m.rest = .other) ∧
      ∀ i ∈ m.sumIndices, ∃ a ∈ m.atomics, i ∈ a.freeIndices := by
  have fresh : ∀ i : Index, s.indices.size ≤ i.number → i ∉ A := fun i beyond hi => absurd (known i hi) (Nat.not_lt.2 beyond)
  have bindsOnly : ∀ e ∈ es, Expr.BindsOnly (· ∉ A) e := fun e he => Expr.bindsOnly_of_binds fun i bound hi => unbound e he i hi bound
  obtain ⟨-, normal⟩ := beyond_collect fresh bindsOnly s (.ok sums) s' le_rfl run
  intro t ht m hm
  have normal := normal t ht m hm
  refine ⟨fun a ha => ⟨existsUnique_of_atomic (normal.atomics a ha), normal.atomics a ha⟩, ⟨fun i hi free => ?_, ?_⟩, normal.shared⟩
  · exact normal.rest i free hi
  · exact argumentRole_eq_other.2 normal.rest

/-- The sum of a row of the identity matrix: the entry is the atomic, and its column is summed over. -/
theorem collect_reaches_normalForm_unitRow :
    (∀ i ∈ [(⟨0⟩ : Index)], threeIndices.Has i) ∧ (∀ i ∈ [(⟨0⟩ : Index)], ¬ Expr.Binds i unitRow) ∧
    (collect [unitRow] (argumentRole [⟨0⟩])).run.run threeIndices = (.ok [⟨[⟨[⟨1⟩], [unitEntry], Build.one⟩]⟩], threeIndices) ∧
    ((∃! i, i ∈ [(⟨0⟩ : Index)] ∧ i ∈ unitEntry.freeIndices) ∧ argumentRole [⟨0⟩] unitEntry = .atomic) ∧
    argumentRole [⟨0⟩] (Build.one : Expr ℚ) = .other ∧ (⟨1⟩ : Index) ∈ unitEntry.freeIndices := by
  have known : ∀ i ∈ [(⟨0⟩ : Index)], threeIndices.Has i := by
    intro i hi
    obtain rfl := List.mem_singleton.1 hi
    show 0 < 3
    decide
  have unbound : ∀ i ∈ [(⟨0⟩ : Index)], ¬ Expr.Binds i unitRow := by
    intro i hi bound
    obtain rfl := List.mem_singleton.1 hi
    have none : unitEntry.bound = 0 := Expr.bound_leaf rfl
    simp [← Expr.mem_bound, unitRow, Expr.bound_indexSum, none] at bound
  have run : (collect [unitRow] (argumentRole [⟨0⟩])).run.run threeIndices =
      (.ok [⟨[⟨[⟨1⟩], [unitEntry], Build.one⟩]⟩], threeIndices) := by
    rw [collect_unitRow]
    rfl
  obtain ⟨atomics, rest, shared⟩ := collect_reaches_normalForm known (List.forall_mem_singleton.2 unbound) run _
    List.mem_cons_self _ List.mem_cons_self
  obtain ⟨a, ha, free⟩ := shared ⟨1⟩ List.mem_cons_self
  exact ⟨known, unbound, run, atomics unitEntry List.mem_cons_self, rest.2, List.mem_singleton.1 ha ▸ free⟩

end Monomial

end FormCompiler
