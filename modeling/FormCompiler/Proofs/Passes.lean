import FormCompiler.Proofs.Constructions

/-!
# Passes that keep results

A pass goes over expressions by steps and keeps the result of each expression. If a step ensures a property of its
result whenever the results for smaller expressions have it, then so do all results, found or kept.
-/

namespace FormCompiler

open List Build

namespace Expr

variable {K α β γ σ : Type} {w : Index → Prop} {extent : Index → Extent} {Inv : σ → Prop}

/-! ## Computations with a store -/

/-- From each store with the invariant, what is returned has the property, and the invariant is kept. -/
def Keeps (extent : Index → Extent) (Inv : σ → Prop) (x : StateT σ Build α) (Q : α → Prop) : Prop :=
  ∀ st, Inv st → Ensures extent (x.run st) fun p => Q p.1 ∧ Inv p.2

section Rules

variable {Q : α → Prop} {R : β → Prop}

theorem keeps_pure {a : α} (h : Q a) : Keeps extent Inv (pure a) Q :=
  fun _ inv => ensures_pure ⟨h, inv⟩

variable {x : StateT σ Build α} {f : α → StateT σ Build β}

theorem Keeps.bind (hx : Keeps extent Inv x Q) (hf : ∀ a, Q a → Keeps extent Inv (f a) R) : Keeps extent Inv (x >>= f) R := by
  intro st inv
  rw [StateT.run_bind]
  exact (hx st inv).bind fun p hp => hf p.1 hp.1 p.2 hp.2

theorem Keeps.mono {Q' : α → Prop} (h : Keeps extent Inv x Q) (imp : ∀ a, Q a → Q' a) : Keeps extent Inv x Q' :=
  fun st inv => (h st inv).mono fun p hp => ⟨imp p.1 hp.1, hp.2⟩

theorem Keeps.and {P : α → Prop} (hp : Keeps extent Inv x P) (hq : Keeps extent Inv x Q) :
    Keeps extent Inv x fun a => P a ∧ Q a := by
  intro st inv s hs a s' run
  obtain ⟨same, ha, inv'⟩ := hp st inv s hs a s' run
  exact ⟨same, ⟨ha, (hq st inv s hs a s' run).2.1⟩, inv'⟩

theorem keeps_lift {x : Build α} (h : Ensures extent x Q) : Keeps extent Inv (liftM x) Q := by
  intro st inv
  change Ensures extent (x >>= fun a => pure (a, st)) _
  exact h.bind fun a ha => ensures_pure ⟨ha, inv⟩

theorem keeps_ite {c : Prop} [Decidable c] {y : StateT σ Build α} (hx : c → Keeps extent Inv x Q)
    (hy : ¬ c → Keeps extent Inv y Q) : Keeps extent Inv (if c then x else y) Q := by
  split
  · exact hx (by assumption)
  · exact hy (by assumption)

theorem Keeps.run' (h : Keeps extent Inv x Q) {st : σ} (inv : Inv st) : Ensures extent (x.run' st) Q := by
  rw [StateT.run'_eq, map_eq_pure_bind]
  exact (h st inv).bind fun p hp => ensures_pure hp.1

theorem keeps_mapM {S : α → β → Prop} {as : List α} (h : ∀ a ∈ as, Keeps extent Inv (f a) (S a)) :
    Keeps extent Inv (as.mapM f) fun bs => Forall₂ S as bs := by
  induction as with
  | nil => exact keeps_pure .nil
  | cons a as ih =>
    rw [mapM_cons]
    refine (h a mem_cons_self).bind fun b hb => ?_
    refine (ih fun a' ha' => h a' (mem_cons_of_mem _ ha')).bind fun bs hbs => ?_
    exact keeps_pure (.cons hb hbs)

theorem keeps_mapChildren {e : Expr K} {S : Expr K → β → Prop} {f : (c : Expr K) → sizeOf c < sizeOf e → StateT σ Build β}
    (h : ∀ c (hc : c ∈ e.children), Keeps extent Inv (f c (sizeOf_lt_of_mem_children hc)) (S c)) :
    Keeps extent Inv (mapChildren e f) fun rs => Forall₂ S e.children rs := by
  refine (keeps_mapM (S := fun c r => S c.1 r) fun c _ => h c.1 c.2).mono fun rs hrs => ?_
  rw [← attach_map_subtype_val e.children]
  exact forall₂_map_left_iff.2 hrs

end Rules

/-! ## Kept results -/

variable [Scalar K]

/-- All kept results have the property. -/
def Kept (S : Expr K → β → Prop) (st : Store K β) : Prop := ∀ e r, st[e]? = some r → S e r

/-- All results kept by expression and argument have the property. -/
def KeptArg [BEq α] [Hashable α] (S : Expr K → α → β → Prop) (st : StoreArg K α β) : Prop :=
  ∀ e a r, st[(e, a)]? = some r → S e a r

theorem run_memoise (step : Step K (MemoBuild K β) β) (e : Expr K) (st : Store K β) :
    (memoise step e).run st = match st[e]? with
      | some r => pure (r, st)
      | none => (step e fun c _ => memoise step c).run st >>= fun p => pure (p.1, p.2.insert e p.1) := by
  rw [memoise]
  cases found : st[e]? <;> simp [found]

theorem run_memoiseArg [BEq α] [Hashable α] (step : StepArg K α (MemoArgBuild K α β) β) (e : Expr K) (a : α)
    (st : StoreArg K α β) :
    (memoiseArg step e a).run st = match st[(e, a)]? with
      | some r => pure (r, st)
      | none => (step e (fun c _ => memoiseArg step c) a).run st >>= fun p => pure (p.1, p.2.insert (e, a) p.1) := by
  rw [memoiseArg]
  cases found : st[(e, a)]? <;> simp [found]

variable {S : Expr K → β → Prop} {e : Expr K} {r : β} {a : α}

theorem Kept.insert [StrictSame K] {st : Store K β} (h : Kept S st) (hr : S e r) : Kept S (st.insert e r) := by
  intro x r' found
  rw [Std.HashMap.getElem?_insert] at found
  split at found
  · rename_i same
    cases found
    exact eq_of_beq same ▸ hr
  · exact h x r' found

theorem KeptArg.insert [StrictSame K] [BEq α] [LawfulBEq α] [Hashable α] {S : Expr K → α → β → Prop} {st : StoreArg K α β}
    (h : KeptArg S st) (hr : S e a r) : KeptArg S (st.insert (e, a) r) := by
  intro x b r' found
  rw [Std.HashMap.getElem?_insert] at found
  split at found
  · rename_i same
    cases found
    cases eq_of_beq same
    exact hr
  · exact h x b r' found

variable [Field K] [Exact K]

/-- A step that hands a property on from smaller expressions gives it to all results. -/
theorem keeps_memoiseArg [BEq α] [LawfulBEq α] [Hashable α] {step : StepArg K α (MemoArgBuild K α β) β}
    {P : Expr K → α → Prop} {S : Expr K → α → β → Prop}
    (h : ∀ e self a, P e a → (∀ c hc b, P c b → Keeps extent (KeptArg S) (self c hc b) (S c b)) →
      Keeps extent (KeptArg S) (step e self a) (S e a))
    (e : Expr K) (a : α) (pre : P e a) : Keeps extent (KeptArg S) (memoiseArg step e a) (S e a) := by
  intro st inv
  rw [run_memoiseArg]
  cases found : st[(e, a)]? with
  | some r => exact ensures_pure ⟨inv e a r found, inv⟩
  | none =>
    refine (h e _ a pre (fun c _ b pre => keeps_memoiseArg h c b pre) st inv).bind fun p hp => ?_
    exact ensures_pure ⟨hp.1, hp.2.insert hp.1⟩
termination_by sizeOf e

variable {es : List (Expr K)} {f : (c : Expr K) → sizeOf c < sizeOf e → StateT σ Build (Expr K)}

theorem ensures_mapMemoArg [BEq α] [LawfulBEq α] [Hashable α] {step : StepArg K α (MemoArgBuild K α β) β}
    {P : Expr K → α → Prop} {S : Expr K → α → β → Prop}
    (h : ∀ e self a, P e a → (∀ c hc b, P c b → Keeps extent (KeptArg S) (self c hc b) (S c b)) →
      Keeps extent (KeptArg S) (step e self a) (S e a)) (pre : ∀ e ∈ es, P e a) :
    Ensures extent (mapMemoArg step es a) fun rs => Forall₂ (fun e r => S e a r) es rs := by
  have none : KeptArg S (∅ : StoreArg K α β) := fun e a r found => by simp at found
  exact (keeps_mapM fun e he => keeps_memoiseArg h e a (pre e he)).run' none

/-! ## Nodes that are used again -/

omit [Scalar K] [Field K] [Exact K] in
theorem withChildren_children (e : Expr K) : e.withChildren e.children = e := by
  cases e <;> rfl

theorem eq_of_sameAll {as bs : List (Expr K)} (h : sameAll as bs = true) (length : as.length = bs.length) : as = bs := by
  rw [← forall₂_eq_eq_eq]
  refine forall₂_iff_zip.2 ⟨length, fun {a b} hab => ?_⟩
  exact eq_of_beq (all_eq_true.1 h (a, b) hab)

theorem sameAll_self (as : List (Expr K)) : sameAll as as = true := by
  induction as with
  | nil => rfl
  | cons a as ih => simpa [sameAll] using ih

/-- What replaces a node of which the children are replaced stands for the node with the new children. If they are the
same, it is the node. -/
theorem keeps_reuse {S : Expr K → Expr K → Prop}
    {R : Expr K → List (Slot (Expr K)) → Prop} (fixed : Fixes R) (he : WellFormed extent e)
    (shape : ∀ c c', S c c' → c'.shape = c.shape) (fits : ∀ c c', S c c' → WellFormed extent c')
    (view : ∀ name shape dims, e = .access name shape dims → ∀ c', S (.var name shape) c' → c' = .var name shape)
    (read : ∀ t slots, e = .indexed t slots → ∀ c', S t c' → R c' slots)
    (h : ∀ c (hc : c ∈ e.children), Keeps extent Inv (f c (sizeOf_lt_of_mem_children hc)) (S c)) :
    Keeps extent Inv (reuse e f) fun r => ∃ cs, Forall₂ S e.children cs ∧ Refines w extent (e.withChildren cs) r ∧
      (r = e ∨ cs ≠ e.children ∧ Remade R e cs r) := by
  refine (keeps_mapChildren h).bind fun cs hcs => ?_
  refine keeps_ite (fun same => keeps_pure ⟨cs, hcs, ?_, .inl rfl⟩) fun differ => keeps_lift ?_
  · rw [eq_of_sameAll same hcs.length_eq.symm, withChildren_children]
    exact .refl he
  · refine ((ensures_reconstruct he (hcs.imp fun c c' hc => ⟨shape c c' hc, fits c c' hc⟩) ?_).and
      (Build.Suits.any.remade fixed ?_)).mono fun r hr => ⟨cs, hcs, hr.1, .inr ⟨?_, hr.2⟩⟩
    · rintro name shape dims rfl
      obtain _ | ⟨first, _ | _⟩ := hcs
      rw [view name shape dims rfl _ first]
      rfl
    · rintro t slots rfl c hc -
      obtain _ | ⟨first, _ | _⟩ := hcs
      exact mem_singleton.1 hc ▸ read t slots rfl _ first
    · exact fun same => absurd (same ▸ sameAll_self cs) differ

end Expr

end FormCompiler
