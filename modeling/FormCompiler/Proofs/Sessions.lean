import FormCompiler.Proofs.Binding

/-!
# Sessions that grow

While indices are made, a session comes to know more. A computation leads to a property if it holds of whatever is
returned, in the session that is then left, and nothing known before is lost.
-/

namespace FormCompiler

open FormCompiler.Expr List

namespace Session

/-- The session has the index. -/
def Has (s : Session) (i : Index) : Prop := i.number < s.indices.size

/-- The extent of the index is known, and it is not empty. -/
def Knows (s : Session) (i : Index) : Prop := ∃ n, s.extents i = some n ∧ 0 < n

/-- More indices may be there, and more extents may be known. -/
structure Grows (s s' : Session) : Prop where
  size : s.indices.size ≤ s'.indices.size
  extent {i : Index} {n : Int} : s.extents i = some n → s'.extents i = some n

variable {s : Session} {i : Index}

theorem has_of_extent {n : Int} (known : s.extents i = some n) : s.Has i := by
  by_contra out
  rw [Has, Nat.not_lt] at out
  simp [extents, Array.getD_eq_getD_getElem?, Array.getElem?_eq_none out] at known

theorem Knows.known {s : Session} {i : Index} (h : s.Knows i) : ∃ n, s.extents i = some n := by
  obtain ⟨n, known, -⟩ := h
  exact ⟨n, known⟩

theorem Knows.has (h : s.Knows i) : s.Has i := by
  obtain ⟨n, known, -⟩ := h
  exact has_of_extent known

namespace Grows

variable {s s' s'' : Session} {i : Index}

theorem refl (s : Session) : Grows s s := ⟨Nat.le_refl _, id⟩

theorem trans (first : Grows s s') (second : Grows s' s'') : Grows s s'' :=
  ⟨Nat.le_trans first.size second.size, fun h => second.extent (first.extent h)⟩

theorem of_indices (h : s'.indices = s.indices) : Grows s s' := by
  refine ⟨by rw [h], fun known => ?_⟩
  rwa [extents_congr h]

theorem has (h : Grows s s') (hi : s.Has i) : s'.Has i := Nat.lt_of_lt_of_le hi h.size

theorem knows (h : Grows s s') (hi : s.Knows i) : s'.Knows i := by
  obtain ⟨n, known, pos⟩ := hi
  exact ⟨n, h.extent known, pos⟩

theorem sizes (h : Grows s s') {n : Int} (known : s.extents i = some n) : Bounds.sizes s'.extents i = Bounds.sizes s.extents i := by
  rw [Bounds.sizes, Bounds.sizes, known, h.extent known]

/-- Indices of known extents run as before. -/
theorem bindersOf (h : Grows s s') {is : List Index} (known : ∀ i ∈ is, ∃ n, s.extents i = some n) :
    bindersOf (Bounds.sizes s'.extents) is = FormCompiler.bindersOf (Bounds.sizes s.extents) is :=
  map_congr_left fun i hi => by
    obtain ⟨n, size⟩ := known i hi
    rw [h.sizes size]

variable {K : Type} [Scalar K]

theorem slotFits (h : Grows s s') {slot : Slot (Expr K)} {n : Extent} (fit : SlotFits s.extents slot n) :
    SlotFits s'.extents slot n := by
  cases slot with
  | free i =>
    cases n with
    | none => exact .inl rfl
    | some n => exact fit.imp id h.extent
  | fixed n => exact fit
  | runtime r => exact fit

variable {e : Expr K}

theorem nodeFits (h : Grows s s') (fits : e.NodeFits s.extents) : e.NodeFits s'.extents := by
  cases e with
  | indexed t slots => exact ⟨fits.1, fits.2.imp fun _ _ => h.slotFits⟩
  | componentTensor body bs => exact ⟨fits.scalar, fits.ne_nil, fits.free, fun hb => h.extent (fits.extent hb), fits.pos⟩
  | indexSum body bs => exact ⟨fits.scalar, fits.ne_nil, fits.free, fun hb => h.extent (fits.extent hb), fits.pos⟩
  | delta i j => exact ⟨h.slotFits fits.1, h.slotFits fits.2⟩
  | _ => exact fits

theorem wellFormed (h : Grows s s') (fits : e.WellFormed s.extents) : e.WellFormed s'.extents :=
  Everywhere.mono fits fun _ => h.nodeFits

theorem refines [Field K] (h : Grows s s') {w : Index → Prop} {e r : Expr K} (refines : Refines w s.extents e r) :
    Refines w s'.extents e r :=
  ⟨h.wellFormed refines.fits, refines.shape, refines.free, refines.simpler, refines.carries⟩

end Grows

end Session

theorem Valuation.Inside.of_grows {s s' : Session} (grows : s.Grows s') {is : List Index} {ρ : Valuation}
    (h : ρ.Inside s'.extents is) : ρ.Inside s.extents is :=
  fun i hi => ⟨(h i hi).1, fun n known => (h i hi).2 n (grows.extent known)⟩

namespace Build

variable {α β : Type} {s : Session} {Q : α → Session → Prop} {R : β → Session → Prop}

/-- What is returned from a session has the property, and the session has grown. -/
def Leads (s : Session) (x : Build α) (Q : α → Session → Prop) : Prop :=
  ∀ a s', x.run.run s = (.ok a, s') → s.Grows s' ∧ Q a s'

theorem leads_pure {a : α} (h : Q a s) : Leads s (pure a) Q := by
  intro a' s' run
  cases run
  exact ⟨.refl s, h⟩

theorem leads_throw {e : Error} : Leads s (throw e) Q := by
  intro a' s' run
  cases run

variable {x : Build α} {f : α → Build β} {P : α → Prop} {i : Index}

theorem Leads.bind (hx : Leads s x Q) (hf : ∀ a s', s.Grows s' → Q a s' → Leads s' (f a) R) : Leads s (x >>= f) R := by
  intro b s' run
  rw [ExceptT.run_bind, StateT.run_bind] at run
  cases first : x.run.run s with
  | mk r s₁ =>
    rw [first] at run
    cases r with
    | error e => cases run
    | ok a =>
      obtain ⟨grows, ha⟩ := hx a s₁ first
      obtain ⟨grows', hb⟩ := hf a s₁ grows ha b s' run
      exact ⟨grows.trans grows', hb⟩

theorem Leads.mono {Q' : α → Session → Prop} (h : Leads s x Q) (imp : ∀ a s', s.Grows s' → Q a s' → Q' a s') :
    Leads s x Q' := by
  intro a s' run
  obtain ⟨grows, ha⟩ := h a s' run
  exact ⟨grows, imp a s' grows ha⟩

theorem leads_ite {c : Prop} [Decidable c] {y : Build α} (hx : c → Leads s x Q) (hy : ¬ c → Leads s y Q) :
    Leads s (if c then x else y) Q := by
  split
  · exact hx (by assumption)
  · exact hy (by assumption)

/-- What keeps the indices leads to what it ensures. -/
theorem Ensures.leads (h : Ensures s.extents x P) : Leads s x fun a s' => s'.indices = s.indices ∧ P a := by
  intro a s' run
  obtain ⟨same, ha⟩ := h s rfl a s' run
  exact ⟨.of_indices same, same, ha⟩

theorem leads_mapM {S : α → β → Session → Prop} (mono : ∀ {a b s s'}, Session.Grows s s' → S a b s → S a b s')
    {as : List α} (h : ∀ a ∈ as, ∀ s', s.Grows s' → Leads s' (f a) (S a)) :
    Leads s (as.mapM f) fun bs s' => Forall₂ (fun a b => S a b s') as bs := by
  induction as generalizing s with
  | nil => exact leads_pure .nil
  | cons a as ih =>
    rw [mapM_cons]
    refine (h a mem_cons_self s (.refl s)).bind fun b s₁ grows hb => ?_
    refine (ih fun a' ha' s' grows' => h a' (mem_cons_of_mem _ ha') s' (grows.trans grows')).bind fun bs s₂ grows' hbs => ?_
    exact leads_pure (.cons (mono grows' hb) hbs)

/-! ## Computations that arrive -/

/-- The computation returns from the session; what it returns has the property, and the session has grown. -/
def Arrives (s : Session) (x : Build α) (Q : α → Session → Prop) : Prop :=
  ∃ a s', x.run.run s = (.ok a, s') ∧ s.Grows s' ∧ Q a s'

variable {a : α} {Q' : α → Session → Prop}

theorem arrives_pure (h : Q a s) : Arrives s (pure a) Q := ⟨a, s, rfl, .refl s, h⟩

theorem Arrives.bind (hx : Arrives s x Q) (hf : ∀ a s', s.Grows s' → Q a s' → Arrives s' (f a) R) : Arrives s (x >>= f) R := by
  obtain ⟨a, s₁, first, grows, ha⟩ := hx
  obtain ⟨b, s₂, second, grows', hb⟩ := hf a s₁ grows ha
  exact ⟨b, s₂, (run_bind_ok first).trans second, grows.trans grows', hb⟩

theorem Arrives.mono (h : Arrives s x Q) (imp : ∀ a s', s.Grows s' → Q a s' → Q' a s') : Arrives s x Q' := by
  obtain ⟨a, s', run, grows, ha⟩ := h
  exact ⟨a, s', run, grows, imp a s' grows ha⟩

theorem Leads.arrives {s' : Session} (h : Leads s x Q) (run : x.run.run s = (.ok a, s')) : Arrives s x Q :=
  ⟨a, s', run, h a s' run⟩

theorem arrives_ite {c : Prop} [Decidable c] {y : Build α} (hx : c → Arrives s x Q) (hy : ¬ c → Arrives s y Q) :
    Arrives s (if c then x else y) Q := by
  split
  · exact hx (by assumption)
  · exact hy (by assumption)

theorem Arrives.leads (h : Arrives s x Q) : Leads s x Q := by
  intro a s' run
  obtain ⟨b, s₁, run', found⟩ := h
  cases run.symm.trans run'
  exact found

/-! ## New indices -/

/-- A new index is one that the session does not have yet; nothing is known of it. -/
theorem leads_freshIndex : Leads s (freshIndex none) fun j s' => j.number = s.indices.size ∧ s'.Has j ∧ s'.extents = s.extents := by
  intro j s' run
  cases run
  have same : ({ s with indices := s.indices.push ⟨none, none⟩ } : Session).extents = s.extents := by
    funext i
    rw [Session.extents, Session.extents, Array.getD_eq_getD_getElem?, Array.getD_eq_getD_getElem?, Array.getElem?_push]
    split
    · rename_i here
      rw [here, Array.getElem?_eq_none (Nat.le_refl _)]
      rfl
    · rfl
  have size : (s.indices.push ⟨none, none⟩).size = s.indices.size + 1 := Array.size_push _
  refine ⟨⟨?_, fun known => ?_⟩, rfl, ?_, same⟩
  · exact size ▸ Nat.le_succ _
  · rw [same]
    exact known
  · exact Nat.lt_of_lt_of_eq (Nat.lt_succ_self _) size.symm

theorem extents_set (has : s.Has i) (known : IndexInfo) (j : Index) :
    Session.extents ⟨s.indices.setIfInBounds i.number known, s.serial⟩ j = if j = i then known.extent else s.extents j := by
  rw [Session.extents, Session.extents, Array.getD_eq_getD_getElem?, Array.getD_eq_getD_getElem?]
  split
  · rename_i same
    rw [same, Array.getElem?_setIfInBounds_self_of_lt has]
    rfl
  · rename_i differ
    rw [Array.getElem?_setIfInBounds_ne]
    intro same
    refine differ ?_
    cases i
    cases j
    exact congrArg Index.mk same.symm

/-- An index takes its extent, or has it already. -/
theorem leads_setExtent {n : Int} (has : s.Has i) : Leads s (setExtent i (some n)) fun _ s' => s'.extents i = some n := by
  intro a s' run
  rw [run_setExtent] at run
  cases known : s.extents i with
  | some m =>
    simp only [known] at run
    split at run
    · rename_i same
      cases run
      exact ⟨.refl s, known.trans (eq_of_beq same).symm⟩
    · cases run
  | none =>
    simp only [known] at run
    cases run
    refine ⟨⟨?_, fun {j m} hj => ?_⟩, (extents_set has _ i).trans (if_pos rfl)⟩
    · exact Nat.le_of_eq (Array.size_setIfInBounds ..).symm
    · rw [extents_set has, if_neg]
      · exact hj
      · rintro rfl
        rw [known] at hj
        cases hj

theorem Leads.and (h : Leads s x Q) (meets : Meets (fun _ => True) (fun _ => True) x P) : Leads s x fun a s' => Q a s' ∧ P a :=
  fun a s' run => (h a s' run).imp id fun ha => ⟨ha, (meets s (.ok a) s' trivial run).2⟩

end Build

end FormCompiler
