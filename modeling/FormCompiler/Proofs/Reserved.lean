import FormCompiler.Monomial.Collect
import FormCompiler.Proofs.Occurrences

/-!
# Reserved indices

Some indices of a session are reserved: they are bound nowhere, and no index is renamed to them. The constructions and the passes
over expressions bind only what is bound in what they are given, and a new name is an index that was not there before, so that
reserved indices stay so. In the following `P` holds of the indices that are not reserved, and of all that are yet to be made.
-/

namespace FormCompiler

open FormCompiler.Expr List

/-! ## Sessions with some indices -/

namespace Build

variable {α β σ : Type} {n : Nat} {Q : α → Prop} {R : β → Prop}

/-- In a session with at least `n` indices, whatever is returned has the property, and the indices are still there. -/
def Beyond (n : Nat) (x : Build α) (Q : α → Prop) : Prop := Meets (fun s => n ≤ s.indices.size) (fun _ => True) x Q

theorem suits_beyond (n : Nat) : Suits (fun s => n ≤ s.indices.size) fun _ => True where
  plain _ := trivial
  extent _ _ size := by simpa using size
  serial size := size

theorem beyond_newIndex {info : IndexInfo} : Beyond n (newIndex info) fun i => n ≤ i.number := by
  intro s i s' size run
  cases run
  exact ⟨by simpa using Nat.le_succ_of_le size, size⟩

/-- The same for computations with a state of their own, which has an invariant. -/
def Stays (n : Nat) (Inv : σ → Prop) (x : StateT σ Build α) (Q : α → Prop) : Prop :=
  ∀ st, Inv st → Beyond n (x.run st) fun p => Q p.1 ∧ Inv p.2

variable {Inv : σ → Prop}

theorem stays_pure {a : α} (h : Q a) : Stays n Inv (pure a) Q := fun _ inv => meets_pure ⟨h, inv⟩

theorem stays_throw {e : Error} : Stays n Inv (throw e : StateT σ Build α) Q := fun _ _ => meets_throw trivial

variable {x : StateT σ Build α} {f : α → StateT σ Build β} {st : σ} {as : List α}

theorem Stays.bind (hx : Stays n Inv x Q) (hf : ∀ a, Q a → Stays n Inv (f a) R) : Stays n Inv (x >>= f) R := by
  intro st inv
  rw [StateT.run_bind]
  exact (hx st inv).bind fun p hp => hf p.1 hp.1 p.2 hp.2

theorem stays_lift {x : Build α} (h : Beyond n x Q) : Stays n Inv (liftM x) Q := by
  intro st inv
  change Beyond n (x >>= fun a => pure (a, st)) _
  exact h.bind fun a ha => meets_pure ⟨ha, inv⟩

theorem stays_ite {c : Prop} [Decidable c] {y : StateT σ Build α} (hx : c → Stays n Inv x Q) (hy : ¬ c → Stays n Inv y Q) :
    Stays n Inv (if c then x else y) Q := by
  split
  · exact hx (by assumption)
  · exact hy (by assumption)

theorem stays_get : Stays n Inv (get : StateT σ Build σ) Inv := fun _ inv => meets_pure ⟨inv, inv⟩

theorem stays_set (h : Inv st) : Stays n Inv (set st : StateT σ Build PUnit) fun _ => True :=
  fun _ _ => meets_pure ⟨trivial, h⟩

theorem stays_modify {f : σ → σ} (h : ∀ st, Inv st → Inv (f st)) : Stays n Inv (modify f : StateT σ Build PUnit) fun _ => True :=
  fun st inv => meets_pure ⟨trivial, h st inv⟩

theorem stays_mapM (h : ∀ a ∈ as, Stays n Inv (f a) R) : Stays n Inv (as.mapM f) fun bs => ∀ b ∈ bs, R b := by
  induction as with
  | nil => exact stays_pure fun _ hb => absurd hb not_mem_nil
  | cons a as ih =>
    rw [mapM_cons]
    refine (h a mem_cons_self).bind fun b hb => ?_
    refine (ih fun a' ha' => h a' (mem_cons_of_mem _ ha')).bind fun bs hbs => ?_
    exact stays_pure (forall_mem_cons.2 ⟨hb, hbs⟩)

theorem stays_foldlM {f : β → α → StateT σ Build β} {b : β} (start : R b)
    (step : ∀ b, ∀ a ∈ as, R b → Stays n Inv (f b a) R) : Stays n Inv (as.foldlM f b) R := by
  induction as generalizing b with
  | nil => exact stays_pure start
  | cons a as ih =>
    rw [foldlM_cons]
    exact (step b a mem_cons_self start).bind fun c hc => ih hc fun d a' ha' => step d a' (mem_cons_of_mem _ ha')

theorem Stays.run' (h : Stays n Inv x Q) (inv : Inv st) : Beyond n (x.run' st) Q := by
  rw [StateT.run'_eq, map_eq_pure_bind]
  exact (h st inv).bind fun p hp => meets_pure hp.1

end Build

/-! ## Kept results -/

namespace Expr

open Build (Beyond Stays stays_ite stays_lift stays_mapM stays_pure meets_pure)

variable {K α β σ : Type} [Scalar K] [StrictSame K] {n : Nat} {S : β → Prop} {R : Expr K → Prop}

/-- All kept results have the property. -/
def Stored {κ : Type} [BEq κ] [Hashable κ] (S : β → Prop) (st : Std.HashMap κ β) : Prop :=
  ∀ (k : κ) (r : β), st[k]? = some r → S r

variable {κ : Type} {es : List (Expr K)}

theorem stored_empty [BEq κ] [Hashable κ] : Stored S (∅ : Std.HashMap κ β) := fun k r found => by simp at found

theorem Stored.insert [BEq κ] [LawfulBEq κ] [Hashable κ] {st : Std.HashMap κ β} (h : Stored S st) {k : κ} {r : β}
    (hr : S r) : Stored S (st.insert k r) := by
  intro k' r' found
  rw [Std.HashMap.getElem?_insert] at found
  split at found
  · cases found
    exact hr
  · exact h k' r' found

theorem stays_memoise {step : Step K (MemoBuild K β) β}
    (h : ∀ e self, R e → (∀ c hc, R c → Stays n (Stored S) (self c hc) S) → Stays n (Stored S) (step e self) S)
    (e : Expr K) (pre : R e) : Stays n (Stored S) (memoise step e) S := by
  intro st inv
  rw [run_memoise]
  cases found : st[e]? with
  | some r => exact meets_pure ⟨inv e r found, inv⟩
  | none =>
    refine (h e _ pre (fun c _ pre => stays_memoise h c pre) st inv).bind fun p hp => ?_
    exact meets_pure ⟨hp.1, hp.2.insert hp.1⟩
termination_by sizeOf e

theorem stays_memoiseArg [BEq α] [LawfulBEq α] [Hashable α] {step : StepArg K α (MemoArgBuild K α β) β}
    (h : ∀ e self a, R e → (∀ c hc b, R c → Stays n (Stored S) (self c hc b) S) → Stays n (Stored S) (step e self a) S)
    (e : Expr K) (a : α) (pre : R e) : Stays n (Stored S) (memoiseArg step e a) S := by
  intro st inv
  rw [run_memoiseArg]
  cases found : st[(e, a)]? with
  | some r => exact meets_pure ⟨inv (e, a) r found, inv⟩
  | none =>
    refine (h e _ a pre (fun c _ b pre => stays_memoiseArg h c b pre) st inv).bind fun p hp => ?_
    exact meets_pure ⟨hp.1, hp.2.insert hp.1⟩
termination_by sizeOf e

/-- A pass of which each step hands a property on. -/
theorem beyond_mapMemo {step : Step K (MemoBuild K β) β}
    (h : ∀ e self, R e → (∀ c hc, R c → Stays n (Stored S) (self c hc) S) → Stays n (Stored S) (step e self) S)
    (pre : ∀ e ∈ es, R e) : Beyond n (mapMemo step es) fun rs => ∀ r ∈ rs, S r :=
  (stays_mapM fun e he => stays_memoise h e (pre e he)).run' stored_empty

theorem beyond_mapMemoArg [BEq α] [LawfulBEq α] [Hashable α] {step : StepArg K α (MemoArgBuild K α β) β}
    (h : ∀ e self a, R e → (∀ c hc b, R c → Stays n (Stored S) (self c hc b) S) → Stays n (Stored S) (step e self a) S) {a : α}
    (pre : ∀ e ∈ es, R e) : Beyond n (mapMemoArg step es a) fun rs => ∀ r ∈ rs, S r :=
  (stays_mapM fun e he => stays_memoiseArg h e a (pre e he)).run' stored_empty

end Expr

/-! ## Constructions that bind no reserved index -/

namespace Expr

variable {K : Type} {P : Index → Prop} {e : Expr K}

/-- Each index that is bound in the expression has the property. -/
def BindsOnly (P : Index → Prop) : Expr K → Prop := Lacks fun d => ∃ b ∈ d.ownBinders, ¬ P b.1

theorem bindsOnly_of_binds (h : ∀ i, Binds i e → P i) : BindsOnly P e := by
  intro there
  induction there with
  | here own =>
    obtain ⟨b, hb, other⟩ := own
    exact other (h b.1 (.here (mem_map_of_mem hb)))
  | child hc _ ih => exact ih fun i bound => h i (.child hc bound)

theorem BindsOnly.child {c : Expr K} (h : BindsOnly P e) (hc : c ∈ e.children) : BindsOnly P c := Lacks.child h hc

theorem BindsOnly.own {b : Binder} (h : BindsOnly P e) (hb : b ∈ e.ownBinders) : P b.1 := by
  by_contra other
  exact h.here ⟨b, hb, other⟩

theorem spares_bound : Spares (fun d : Expr K => ∃ b ∈ d.ownBinders, ¬ P b.1) P :=
  ⟨fun _ _ _ own ⟨b, hb, other⟩ => other (own b hb), fun _ ⟨_, hb, _⟩ => nomatch hb⟩

theorem bindsOnly_leaf (none : e.children = []) : BindsOnly P e := by
  refine Lacks.leaf (fun ⟨b, hb, _⟩ => ?_) none
  cases e with
  | componentTensor body bs => cases none
  | indexSum body bs => cases none
  | _ => cases hb

theorem inherited_bindsOnly : Inherited (BindsOnly P : Expr K → Prop) (fun _ => True) P := fun made hes his =>
  made.lacks spares_bound (fun _ _ _ ⟨_, hb, _⟩ => nomatch hb) hes his

end Expr

namespace Build.Suits

variable {K : Type} {P : Index → Prop} {I : Session → Prop} {E : Error → Prop} {e : Expr K}

theorem bindsOnly_access (h : Suits I E) {dims : List (Int × List (Slot (Expr K) × Stride))} :
    Meets I E (Build.access e dims) (BindsOnly P) := by
  refine (h.access e dims).mono ?_
  rintro _ ⟨name, shape, ds, rfl⟩
  exact spares_bound.access

/-- A node that is made again binds its own indices and those of the new children. -/
theorem bindsOnly_reconstruct [Scalar K] (h : Suits I E) {cs : List (Expr K)} (own : ∀ b ∈ e.ownBinders, P b.1) (hcs : ∀ c ∈ cs, BindsOnly P c) :
    Meets I E (reconstruct e cs) (BindsOnly P) :=
  (h.remade (fun _ => trivial) fun _ _ _ _ _ _ => trivial).mono fun _ (remade : Remade (fun _ _ => True) _ _ _) =>
    remade.lacks spares_bound (fun _ _ _ ⟨_, hb, _⟩ => nomatch hb) hcs own (fun _ _ _ _ _ ⟨_, hb, _⟩ => nomatch hb)
      fun _ none => (bindsOnly_leaf none).here

end Build.Suits

/-! ## Passes that bind no reserved index -/

namespace Expr

open Build

variable {K σ : Type} [Scalar K] {n : Nat} {P : Index → Prop} {Inv : σ → Prop} {e : Expr K}

theorem stays_reuse {f : (c : Expr K) → sizeOf c < sizeOf e → StateT σ Build (Expr K)} (he : BindsOnly P e)
    (h : ∀ c hc, BindsOnly P c → Stays n Inv (f c hc) (BindsOnly P)) : Stays n Inv (reuse e f) (BindsOnly P) := by
  have children : Stays n Inv (mapChildren e f) fun rs => ∀ r ∈ rs, BindsOnly P r :=
    stays_mapM fun c _ => h c.1 _ (he.child c.2)
  refine children.bind fun cs hcs => stays_ite (fun _ => stays_pure he) fun _ => stays_lift ?_
  exact (suits_beyond n).bindsOnly_reconstruct (fun b hb => he.own hb) hcs

end Expr

namespace Rewrite

open Build FormCompiler.Expr

variable {K : Type} [Scalar K] {n : Nat} {P : Index → Prop} {e : Expr K}

theorem beyond_delta {i j : Slot (Expr K)} : Beyond n (Build.delta i j) (BindsOnly P) := by
  refine meets_ite (fun _ => meets_pure (bindsOnly_leaf rfl)) fun _ => ?_
  split
  · exact meets_pure (bindsOnly_leaf rfl)
  · exact meets_pure (bindsOnly_leaf rfl)

/-- One step of a replacement of indices. -/
theorem stays_substituteStep {Inv : StoreArg K (Substitution K) (Expr K) → Prop} {rules : Substitution K}
    {self : (c : Expr K) → sizeOf c < sizeOf e → Substitution K → SubstBuild K (Expr K)} (he : BindsOnly P e)
    (h : ∀ c hc rules, BindsOnly P c → Stays n Inv (self c hc rules) (BindsOnly P)) :
    Stays n Inv (substituteStep e self rules) (BindsOnly P) := by
  unfold substituteStep
  dsimp only
  split
  · exact stays_ite (fun _ => stays_pure he) fun _ => stays_lift beyond_delta
  · exact h _ _ _ ((he.child mem_cons_self).child mem_cons_self)
  · refine (h _ _ _ (he.child mem_cons_self)).bind fun t ht => stays_ite (fun _ => stays_pure he) fun _ => stays_lift ?_
    exact (suits_beyond n).indexed inherited_bindsOnly ht fun _ _ => trivial
  · exact stays_ite (fun _ => stays_lift (suits_beyond n).bindsOnly_access) fun _ => stays_pure he
  · exact stays_reuse he fun c hc => h c hc _

variable [StrictSame K]

variable {es : List (Expr K)} {is : List Index}

theorem beyond_inlineComponents (h : ∀ e ∈ es, BindsOnly P e) :
    Beyond n (inlineComponents es) fun rs => ∀ r ∈ rs, BindsOnly P r :=
  beyond_mapMemoArg (fun _ _ _ he => stays_substituteStep he) h

theorem beyond_inlineComponent (he : BindsOnly P e) : Beyond n (inlineComponent e) (BindsOnly P) := by
  refine (beyond_inlineComponents (forall_mem_singleton.2 he)).bind fun rs hrs => ?_
  split
  · exact meets_pure (hrs _ mem_cons_self)
  · exact meets_throw trivial

/-- Sums that are written out. -/
theorem beyond_unrollSums {chosen : Binder → Bool} (h : ∀ e ∈ es, BindsOnly P e) :
    Beyond n (unrollSums es chosen) fun rs => ∀ r ∈ rs, BindsOnly P r := by
  refine beyond_mapMemo (fun e self he below => ?_) h
  unfold unrollStep
  split
  · rename_i body bs self
    dsimp only
    have own : ∀ i ∈ (bs.filter chosen).map Prod.fst, P i := fun i hi => by
      obtain ⟨b, hb, rfl⟩ := mem_map.1 hi
      exact he.own (mem_filter.1 hb).1
    refine stays_ite (fun _ => stays_reuse he below) fun _ => (below body _ (he.child mem_cons_self)).bind fun s hs => ?_
    have total : Beyond n (unrolledSum s (bs.filter chosen)) (BindsOnly P) := by
      refine meets_foldlM (bindsOnly_leaf rfl) fun acc positions _ hacc => ?_
      refine ((suits_beyond n).tensorOver inherited_bindsOnly own hs).bind fun t ht => ?_
      refine ((suits_beyond n).indexed inherited_bindsOnly ht fun _ _ => trivial).bind fun r hr => ?_
      exact (suits_beyond n).sum inherited_bindsOnly hacc hr
    refine (stays_lift total).bind fun t ht => stays_lift ?_
    refine (suits_beyond n).sumOver inherited_bindsOnly (fun i hi => ?_) ht
    obtain ⟨b, hb, rfl⟩ := mem_map.1 (mem_filter.1 hi).1
    exact he.own hb
  · exact stays_reuse he below

/-- Choices that are written as sums. -/
theorem beyond_expandConditionals {chosen : Expr K → Bool} (h : ∀ e ∈ es, BindsOnly P e) :
    Beyond n (expandConditionals es chosen) fun rs => ∀ r ∈ rs, BindsOnly P r := by
  have masked {c y a b : Expr K} (hc : BindsOnly P c) (hy : BindsOnly P y) (ha : BindsOnly P a) (hb : BindsOnly P b) :
      Beyond n (do Build.product (← Build.conditional c a b) y) (BindsOnly P) :=
    ((suits_beyond n).conditional inherited_bindsOnly hc ha hb).bind fun r hr => (suits_beyond n).product inherited_bindsOnly hr hy
  have one : BindsOnly P (Build.one : Expr K) := bindsOnly_leaf rfl
  have zero : BindsOnly P (Build.zero : Expr K) := bindsOnly_leaf rfl
  refine beyond_mapMemo (fun e self he below => ?_) h
  unfold expandStep
  split
  · rename_i c y m self
    refine stays_ite (fun _ => ?_) fun _ => stays_reuse he below
    refine (below c _ (he.child (by simp [children]))).bind fun c' hc => ?_
    refine (below y _ (he.child (by simp [children]))).bind fun y' hy => ?_
    refine (below m _ (he.child (by simp [children]))).bind fun m' hm => stays_lift ?_
    have both := (masked hc hy one zero).bind fun a ha => (masked hc hm zero one).bind fun b hb =>
      (suits_beyond n).sum inherited_bindsOnly ha hb
    simp only [bind_assoc] at both
    exact both
  · exact stays_reuse he below

/-! ## Names -/

/-- No index is renamed to a reserved one. -/
def Unreserved (P : Index → Prop) (names : RenameMap) : Prop := ∀ p ∈ names, P p.2

/-- A name is one that was given before, or a new index. -/
theorem stays_nextName (fresh : ∀ i : Index, n ≤ i.number → P i) (i : Index) :
    Stays n (fun r => Unreserved P r.names) (nextName i) P := by
  refine stays_get.bind fun r hr => ?_
  split
  · rename_i p j found
    exact stays_pure (hr (p, j) (mem_of_find?_eq_some found))
  · refine (stays_lift beyond_newIndex).bind fun j hj => ?_
    refine (stays_set (forall_mem_append.2 ⟨hr, ?_⟩)).bind fun _ _ => stays_pure (fresh j hj)
    exact forall_mem_singleton.2 (fresh j hj)

theorem stays_takeName (fresh : ∀ i : Index, n ≤ i.number → P i) {i : Index} (hi : P i) :
    Stays n (fun r => Unreserved P r.names) (takeName i) P := by
  have unused (k : Nat) {i : Index} (hi : P i) : Stays n (fun r => Unreserved P r.names) (unusedName k i) P := by
    induction k generalizing i with
    | zero => exact stays_pure hi
    | succ k ih =>
      refine stays_get.bind fun r _ => stays_ite (fun _ => ?_) fun _ => stays_pure hi
      exact (stays_nextName fresh i).bind fun j hj => ih hj
  refine stays_get.bind fun r _ => (unused _ hi).bind fun j hj => ?_
  refine Stays.bind (Q := fun _ => True) (stays_modify ?_) fun _ _ => stays_pure hj
  exact fun _ h => h

/-- Indices under names, and which of them are new. -/
theorem stays_takeNames (fresh : ∀ i : Index, n ≤ i.number → P i) (his : ∀ i ∈ is, P i) :
    Stays n (fun r => Unreserved P r.names) (takeNames is) fun q => (∀ j ∈ q.1, P j) ∧ ∀ p ∈ q.2, P p.1 ∧ P p.2 := by
  refine (stays_mapM fun i hi => stays_takeName fresh (his i hi)).bind fun js hjs => stays_pure ⟨hjs, fun p hp => ?_⟩
  obtain ⟨left, right⟩ := of_mem_zip (mem_filter.1 hp).1
  exact ⟨his _ left, hjs _ right⟩

/-- An expression under names: the expression, if it has none of the indices, or its entry at the names. -/
inductive Renamed (names : List (Index × Index)) (e : Expr K) : Expr K → Prop where
  | same : Renamed names e e
  | entry {bs : List Binder} {js : List Index} : (∀ b ∈ bs, ∃ p ∈ names, p.1 = b.1) → (∀ j ∈ js, ∃ p ∈ names, p.2 = j) →
      Renamed names e (.indexed (.componentTensor e bs) (js.map .free))

omit [Scalar K] [StrictSame K] in
theorem yields_tensorOver : Yields (Build.tensorOver e is) fun r =>
    is = [] ∨ e.isZero = true ∨ ∃ ns, r = .componentTensor e (is.zip ns) := by
  unfold Build.tensorOver Build.componentTensor
  refine (yields_any _).bind fun _ _ => yields_ite (fun none => yields_pure (.inl ?_)) fun _ => ?_
  · simpa using none
  refine (Yields.ofEnsures fun _ => (succeeds_runningIndices is).ensures).bind fun js same => (yields_any _).bind fun shape _ => ?_
  subst same
  refine (yields_any _).bind fun _ _ => yields_ite (fun zero => yields_pure (.inr (.inl zero))) fun _ => ?_
  exact (yields_any _).bind fun _ _ => yields_pure (.inr (.inr ⟨_, rfl⟩))

omit [StrictSame K] in
theorem renamed_applyNames (names : List (Index × Index)) (e : Expr K) : Yields (applyNames names e) (Renamed names e) := by
  unfold applyNames
  generalize matter : (names.filter fun p => e.freeIndices.contains p.1) = relevant
  have sub : ∀ p ∈ relevant, p ∈ names ∧ p.1 ∈ e.freeIndices := fun p hp => by
    rw [← matter, mem_filter] at hp
    exact ⟨hp.1, by simpa using hp.2⟩
  refine yields_ite (fun _ => yields_pure .same) fun some => yields_tensorOver.bind fun t ht => ?_
  obtain ⟨p, rest, rfl⟩ := exists_cons_of_ne_nil (by simpa using some : relevant ≠ [])
  obtain none | zero | ⟨ns, rfl⟩ := ht
  · cases none
  · obtain ⟨shape, rfl⟩ := isZero_iff.1 zero
    exact absurd (sub p mem_cons_self).2 (by simp [freeIndices])
  · have read : Build.entry (.componentTensor e (((p :: rest).map Prod.fst).zip ns)) (((p :: rest).map Prod.snd).map .free) =
        pure (.indexed (.componentTensor e (((p :: rest).map Prod.fst).zip ns)) (((p :: rest).map Prod.snd).map .free)) := rfl
    refine (yields_any _).bind fun _ _ => (yields_any _).bind fun _ _ => ?_
    rw [read]
    refine yields_pure (.entry (fun b hb => ?_) fun j hj => ?_)
    · obtain ⟨q, hq, eq⟩ := mem_map.1 (of_mem_zip hb).1
      exact ⟨q, (sub q hq).1, eq⟩
    · obtain ⟨q, hq, eq⟩ := mem_map.1 hj
      exact ⟨q, (sub q hq).1, eq⟩

omit [StrictSame K] in
theorem beyond_applyNames (names : List (Index × Index)) (e : Expr K) : Beyond n (applyNames names e) (Renamed names e) := by
  refine Meets.yields (meets_ite (fun _ => meets_pure trivial) fun _ => ?_) (renamed_applyNames names e)
  refine ((suits_beyond n).tensorOver inherited_true (fun _ _ => trivial) trivial).bind fun t _ => ?_
  exact (suits_beyond n).indexed inherited_true trivial fun _ _ => trivial

section Renamed

variable {names : List (Index × Index)} {r : Expr K}

omit [Scalar K] [StrictSame K] in
theorem Renamed.bindsOnly (h : Renamed names e r) (apart : ∀ p ∈ names, P p.1 ∧ P p.2) (he : BindsOnly P e) : BindsOnly P r := by
  cases h with
  | same => exact he
  | entry binders _ =>
    refine .node (fun ⟨_, hb, _⟩ => nomatch hb) (forall_mem_singleton.2 (.node ?_ (forall_mem_singleton.2 he)))
    rintro ⟨b, hb, other⟩
    obtain ⟨p, hp, eq⟩ := binders b hb
    exact other (eq ▸ (apart p hp).1)

omit [Scalar K] [StrictSame K] in
/-- A reserved index is free in the renamed expression if it was free. -/
theorem Renamed.mem_freeIndices (h : Renamed names e r) (apart : ∀ p ∈ names, P p.1 ∧ P p.2) {i : Index} (reserved : ¬ P i) :
    i ∈ r.freeIndices ↔ i ∈ e.freeIndices := by
  cases h with
  | same => rfl
  | entry binders slots =>
    rw [mem_freeIndices_indexed, mem_freeIndices_componentTensor]
    constructor
    · rintro (slot | ⟨hi, -⟩)
      · obtain ⟨j, hj, eq⟩ := mem_map.1 slot
        cases eq
        obtain ⟨p, hp, eq⟩ := slots i hj
        exact absurd (eq ▸ (apart p hp).2) reserved
      · exact hi
    · refine fun hi => .inr ⟨hi, fun bound => ?_⟩
      obtain ⟨b, hb, rfl⟩ := mem_map.1 bound
      obtain ⟨p, hp, eq⟩ := binders b hb
      exact reserved (eq ▸ (apart p hp).1)

end Renamed

/-! ## Products taken apart -/

/-- Factors that bind no reserved index, summed over indices that are not reserved. -/
structure FactorsOnly (P : Index → Prop) (f : Factors K) : Prop where
  indices : ∀ i ∈ f.sumIndices, P i
  terms : ∀ t ∈ f.terms, BindsOnly P t

omit [Scalar K] [StrictSame K] in
theorem FactorsOnly.push {f : Factors K} (h : FactorsOnly P f) (he : BindsOnly P e) : FactorsOnly P { f with terms := f.terms ++ [e] } :=
  ⟨h.indices, forall_mem_append.2 ⟨h.terms, forall_mem_singleton.2 he⟩⟩

variable {stopAt : Expr K → Bool}

theorem stays_collectFactors (fresh : ∀ i : Index, n ≤ i.number → P i) (height : Nat) {acc : Factors K}
    (he : BindsOnly P e) (hacc : FactorsOnly P acc) :
    Stays n (fun r => Unreserved P r.names) (collectFactors stopAt height e acc) (FactorsOnly P) := by
  induction height generalizing e acc with
  | zero => exact stays_pure (hacc.push he)
  | succ height ih =>
    refine stays_ite (fun _ => stays_pure (hacc.push he)) fun _ => ?_
    cases e with
    | indexSum body bs =>
      refine (stays_takeNames fresh fun i hi => ?_).bind fun q hq => ?_
      · obtain ⟨b, hb, rfl⟩ := mem_map.1 hi
        exact he.own hb
      refine (stays_lift ((beyond_applyNames q.2 body).bind fun r hr =>
        beyond_inlineComponent (hr.bindsOnly hq.2 (he.child mem_cons_self)))).bind fun r hr => ih hr ?_
      exact ⟨forall_mem_append.2 ⟨hacc.indices, hq.1⟩, hacc.terms⟩
    | binary op a b =>
      have ha : BindsOnly P a := he.child (by simp [children])
      have hb : BindsOnly P b := he.child (by simp [children])
      cases op with
      | product => exact (ih ha hacc).bind fun acc hacc => ih hb hacc
      | quotient =>
        refine stays_ite (fun _ => stays_pure (hacc.push he)) fun _ => ?_
        have made : Beyond n (Build.quotient Build.one b) (BindsOnly P) :=
          (suits_beyond n).binary inherited_bindsOnly .quotient (bindsOnly_leaf rfl) hb
        refine (stays_lift made).bind fun r hr => ?_
        exact (ih ha hacc).bind fun acc hacc => stays_pure (hacc.push hr)
      | _ => exact stays_pure (hacc.push he)
    | _ => exact stays_pure (hacc.push he)

/-- The factors of an expression that binds no reserved index. -/
theorem beyond_factors (fresh : ∀ i : Index, n ≤ i.number → P i) (he : BindsOnly P e) :
    Beyond n (factors e stopAt) (FactorsOnly P) :=
  (stays_collectFactors fresh _ he ⟨fun _ h => absurd h not_mem_nil, fun _ h => absurd h not_mem_nil⟩).run'
    fun _ h => absurd h not_mem_nil

end Rewrite

end FormCompiler
