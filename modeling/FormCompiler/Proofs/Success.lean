import FormCompiler.Proofs.Building

/-!
# Computations that succeed

A computation succeeds if it returns in each session with the given extents. What it then returns may be known from
elsewhere, so that it is enough here to see that no constructor refuses.
-/

namespace FormCompiler

open FormCompiler.Expr List

namespace Build

/-- In each session with the given extents the computation returns; what it returns has the property, and the indices are
kept. -/
def Succeeds {α : Type} (extent : Index → Extent) (x : Build α) (Q : α → Prop) : Prop :=
  ∀ s : Session, s.extents = extent → ∃ a s', x.run.run s = (.ok a, s') ∧ s'.indices = s.indices ∧ Q a

section Rules

variable {α β : Type} {extent : Index → Extent} {Q : α → Prop} {R : β → Prop}

theorem succeeds_pure {a : α} (h : Q a) : Succeeds extent (pure a) Q := fun s _ => ⟨a, s, rfl, rfl, h⟩

variable {x : Build α} {f : α → Build β} {i : Index} {n : Int} {as : List α}

theorem Succeeds.bind (hx : Succeeds extent x Q) (hf : ∀ a, Q a → Succeeds extent (f a) R) : Succeeds extent (x >>= f) R := by
  intro s hs
  obtain ⟨a, s₁, first, same, ha⟩ := hx s hs
  obtain ⟨b, s₂, second, same', hb⟩ := hf a ha s₁ (by rw [← hs, Session.extents_congr same])
  exact ⟨b, s₂, (run_bind_ok first).trans second, same'.trans same, hb⟩

theorem Succeeds.mono {Q' : α → Prop} (h : Succeeds extent x Q) (imp : ∀ a, Q a → Q' a) : Succeeds extent x Q' := by
  intro s hs
  obtain ⟨a, s', run, same, ha⟩ := h s hs
  exact ⟨a, s', run, same, imp a ha⟩

theorem Succeeds.ensures (h : Succeeds extent x Q) : Ensures extent x Q := by
  intro s hs a s' run
  obtain ⟨b, t, run', same, hb⟩ := h s hs
  cases run.symm.trans run'
  exact ⟨same, hb⟩

/-- What returns has the properties that are ensured of it. -/
theorem Succeeds.and {P : α → Prop} (h : Succeeds extent x Q) (ensures : Ensures extent x P) :
    Succeeds extent x fun a => Q a ∧ P a := by
  intro s hs
  obtain ⟨a, s', run, same, ha⟩ := h s hs
  exact ⟨a, s', run, same, ha, (ensures s hs a s' run).2⟩

theorem succeeds_ite {c : Prop} [Decidable c] {y : Build α} (hx : c → Succeeds extent x Q) (hy : ¬ c → Succeeds extent y Q) :
    Succeeds extent (if c then x else y) Q := by
  split
  · exact hx (by assumption)
  · exact hy (by assumption)

theorem succeeds_require {c : Bool} {text : String} (h : c = true) : Succeeds extent (require c text) fun _ => True := by
  rw [require, if_pos h]
  exact succeeds_pure trivial

theorem succeeds_extent : Succeeds extent (Build.extent i) fun n => n = extent i :=
  fun s hs => ⟨_, s, rfl, rfl, congrFun hs i⟩

theorem succeeds_knownExtent (known : extent i = some n) : Succeeds extent (knownExtent i) fun m => m = n := by
  refine succeeds_extent.bind fun m hm => ?_
  rw [hm, known]
  exact succeeds_pure rfl

/-- An index that has its extent may be given it again. -/
theorem succeeds_setExtent (known : extent i = some n) : Succeeds extent (setExtent i (some n)) fun _ => True := by
  intro s hs
  refine ⟨(), s, ?_, rfl, trivial⟩
  rw [run_setExtent, hs, known]
  simp only [beq_self_eq_true, if_true]
  rfl

theorem succeeds_mapM {S : α → β → Prop} (h : ∀ a ∈ as, Succeeds extent (f a) (S a)) :
    Succeeds extent (as.mapM f) fun bs => Forall₂ S as bs := by
  induction as with
  | nil => exact succeeds_pure .nil
  | cons a as ih =>
    rw [mapM_cons]
    refine (h a mem_cons_self).bind fun b hb => ?_
    refine (ih fun a' ha' => h a' (mem_cons_of_mem _ ha')).bind fun bs hbs => ?_
    exact succeeds_pure (.cons hb hbs)

theorem succeeds_foldlM {S : β → Prop} {f : β → α → Build β} {b : β} (start : S b)
    (step : ∀ b, ∀ a ∈ as, S b → Succeeds extent (f b a) S) : Succeeds extent (as.foldlM f b) S := by
  induction as generalizing b with
  | nil => exact succeeds_pure start
  | cons a as ih =>
    rw [foldlM_cons]
    exact (step b a mem_cons_self start).bind fun b' hb' =>
      ih hb' fun c a' ha' => step c a' (mem_cons_of_mem _ ha')

end Rules

/-! ## Tensors over indices, and their entries -/

variable {K : Type} {extent : Index → Extent} {body : Expr K} {bs : List Binder}

theorem succeeds_requireScalar {e : Expr K} (scalar : e.shape = []) : Succeeds extent (requireScalar e) fun _ => True :=
  succeeds_require (by rw [scalar]; rfl)

variable [Scalar K]

variable {slots : List (Slot (Expr K))}

/-- Running indices may be given the extents of the dimensions that they fit. -/
theorem succeeds_setExtents {dims : List Int} (fits : Forall₂ (SlotFits extent) slots (dims.map some)) :
    Succeeds extent (setExtents slots (dims.map some)) fun _ => True := by
  induction dims generalizing slots with
  | nil =>
    obtain rfl := forall₂_nil_right_iff.1 fits
    exact succeeds_pure trivial
  | cons n dims ih =>
    obtain _ | @⟨slot, _, slots, _, fit, fits⟩ := fits
    refine Succeeds.bind (Q := fun _ => True) ?_ fun _ _ => ih fits
    cases slot with
    | free i => exact succeeds_setExtent (fit.resolve_left (by simp))
    | fixed n => exact succeeds_pure trivial
    | runtime r => exact succeeds_pure trivial

/-- An entry of a tensor over indices is made as it is asked for. -/
theorem succeeds_componentEntry (nonempty : slots ≠ []) (fits : Forall₂ (SlotFits extent) slots (bs.map fun b => some b.2)) :
    Succeeds extent (indexed (.componentTensor body bs) slots) fun r => r = .indexed (.componentTensor body bs) slots := by
  have shape : (Expr.componentTensor body bs).shape = (bs.map Prod.snd).map some := by
    rw [Expr.shape, map_map]
    rfl
  refine (succeeds_require ?_).bind fun _ _ => ?_
  · rw [shape, length_map, length_map, fits.length_eq, length_map]
    exact beq_self_eq_true _
  · rw [shape]
    refine (succeeds_setExtents (by simpa [map_map] using fits)).bind fun _ _ => ?_
    rw [entry, if_neg (by simpa using nonempty)]
    refine succeeds_ite (fun zero => absurd zero (by simp [isZero])) fun _ => ?_
    cases slots.mapM Slot.fixed? <;> exact succeeds_pure rfl

end Build

end FormCompiler
