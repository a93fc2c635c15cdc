import FormCompiler.Proofs.Substituting
import FormCompiler.Proofs.Success
import FormCompiler.Rewrite.Contraction

/-!
# Sums against deltas

A sum over an index that stands in a delta has one term that is not zero: the one in which the index stands where the
other side of the delta does. Sums of this kind are carried out one after the other. Each of them replaces an index by
a slot in all factors, so that the factors that are left are read where the slots stand; what a product of factors adds
up to stays the same.
-/

namespace FormCompiler

open FormCompiler.Expr List Build

/-! ## A sum with one term -/

namespace Valuation

variable {K : Type} [AddCommMonoid K] {extent : Index → Extent} {is js : List Index} {source : Index} {n : Int}
  {ρ : Valuation} {p : Valuation → Int} {g : Valuation → K}

/-- A valuation in which one more index stands in its range. -/
theorem set_mem_runs {σ : Valuation} (hσ : σ ∈ ρ.runs extent js) (split : ∀ i, i ∈ is ↔ i ∈ js ∨ i = source)
    (known : extent source = some n) {v : Int} (inside : 0 ≤ v ∧ v < n) : σ.set source v ∈ ρ.runs extent is := by
  obtain ⟨out, range⟩ := mem_ranging.1 hσ
  refine mem_ranging.2 ⟨fun i hi => ?_, fun i hi => ?_⟩
  · obtain ⟨hi, other⟩ := not_or.1 (fun h => hi ((split i).2 h))
    rw [set_of_ne σ _ other, out i hi]
  · by_cases same : i = source
    · rw [same, set_self, Bounds.sizes, known, Option.getD_some]
      omega
    · rw [set_of_ne σ _ same]
      exact range i (((split i).1 hi).resolve_right same)

/-- A sum over an index whose summand vanishes unless the index stands at one position, which depends on the others. -/
theorem sum_runs_single (split : ∀ i, i ∈ is ↔ i ∈ js ∨ i = source) (out : source ∉ js) (known : extent source = some n)
    (steady : ∀ σ v, p (σ.set source v) = p σ) (inside : ∀ σ ∈ ρ.runs extent js, 0 ≤ p σ ∧ p σ < n)
    (vanish : ∀ σ, σ source ≠ p σ → g σ = 0) :
    ((ρ.runs extent is).map g).sum = ((ρ.runs extent js).map fun σ => g (σ.set source (p σ))).sum := by
  have nested := @sum_ranging_split K _ (Bounds.sizes extent) is js [source] ρ g (fun i => by simpa using split i)
    fun i hi => by rintro (_ | ⟨_, ⟨⟩⟩); exact out hi
  rw [runs, nested]
  refine congrArg List.sum (map_congr_left fun σ hσ => ?_)
  have range : InRange (Bounds.sizes extent) [source] (σ.set source (p σ)) := by
    intro i hi
    obtain ⟨low, high⟩ := inside σ hσ
    rw [mem_singleton.1 hi, set_self, Bounds.sizes, known, Option.getD_some]
    omega
  have patched : σ.patch (σ.set source (p σ)) [source] = σ.set source (p σ) := by
    funext i
    by_cases same : i = source
    · simp [patch, same]
    · simp [patch, same, set_of_ne]
  rw [← patched, ← sum_ranging_eq_at σ range g]
  refine congrArg List.sum (map_congr_left fun τ hτ => ?_)
  -- in the inner sum nothing but the index itself moves
  have here : τ = σ.set source (τ source) := by
    funext i
    by_cases same : i = source
    · rw [same, set_self]
    · rw [set_of_ne _ _ same, (mem_ranging.1 hτ).1 i (by simpa using same)]
  by_cases stands : τ source = p σ
  · rw [if_pos]
    intro i hi
    rw [mem_singleton.1 hi, set_self, stands]
  · rw [if_neg fun agree => stands ((agree source mem_cons_self).trans (set_self σ source _))]
    refine vanish τ fun same => stands ?_
    rw [same, here, steady]

end Valuation

namespace Rewrite

variable {K : Type} [Scalar K] {extent : Index → Extent} {inside : Int → Expr K → Prop}

/-! ## The two sides of a delta -/

/-- A slot that stands in the range of an index with `n` positions; of what becomes known at run time it is said
separately. -/
def Fills (extent : Index → Extent) (inside : Int → Expr K → Prop) (n : Int) : Slot (Expr K) → Prop
  | .fixed k => 0 ≤ k ∧ k < n
  | .free j => extent j = some n
  | .runtime r => inside n r

/-- Two different slots, each of which fills the range of the other one if that is an index. -/
structure Paired (extent : Index → Extent) (inside : Int → Expr K → Prop) (s t : Slot (Expr K)) : Prop where
  ne : s ≠ t
  left {i : Index} : s = .free i → ∃ n, extent i = some n ∧ Fills extent inside n t
  right {j : Index} : t = .free j → ∃ n, extent j = some n ∧ Fills extent inside n s

variable {s t : Slot (Expr K)} {n : Int}

omit [Scalar K] in
theorem Paired.symm (h : Paired extent inside s t) : Paired extent inside t s :=
  ⟨h.ne.symm, h.right, h.left⟩

/-- What becomes known at run time is a position below `n`. -/
def Reaches [Field K] (env : Environment K) (n : Int) (r : Expr K) : Prop :=
  ∀ σ, 0 ≤ env.position (r.value env σ []) ∧ env.position (r.value env σ []) < n

variable {source : Index} {target : Slot (Expr K)} {e r : Expr K} {fs fs' : List (Expr K)} {is is' ks : List Index}

/-! ## One index replaced in one factor -/

/-- A slot in which the index is replaced. -/
abbrev replaced (source : Index) (target slot : Slot (Expr K)) : Slot (Expr K) := Substitution.applySlot [(source, target)] slot

omit [Scalar K] in
theorem replaced_cases (source : Index) (target slot : Slot (Expr K)) :
    (slot = .free source ∧ replaced source target slot = target) ∨ (slot ≠ .free source ∧ replaced source target slot = slot) := by
  cases slot with
  | free i =>
    by_cases same : i = source
    · exact .inl ⟨by rw [same], by simp [Substitution.applySlot, Substitution.apply, same]⟩
    · exact .inr ⟨by simpa using same, by simp [Substitution.applySlot, Substitution.apply, Ne.symm same]⟩
  | fixed n => exact .inr ⟨by simp, rfl⟩
  | runtime r => exact .inr ⟨by simp, rfl⟩

/-- What is made of a delta: one if the sides are the same, zero if they are different numbers. -/
inductive DeltaOf : Slot (Expr K) → Slot (Expr K) → Expr K → Prop where
  | same (s : Slot (Expr K)) : DeltaOf s s one
  | fixed {m n : Int} : m ≠ n → DeltaOf (.fixed m) (.fixed n) zero
  | node {s t : Slot (Expr K)} : s ≠ t → DeltaOf s t (.delta s t)

namespace DeltaOf

variable {s t : Slot (Expr K)}

theorem shape (h : DeltaOf s t r) : r.shape = [] := by
  cases h <;> rfl

theorem leaf (h : DeltaOf s t r) : r.children = [] := by
  cases h <;> rfl

theorem free (h : DeltaOf s t r) {i : Index} (hi : i ∈ r.freeIndices) :
    s = .free i ∨ t = .free i := by
  cases h with
  | same => simp [Build.one, freeIndices] at hi
  | fixed => simp [Build.zero, freeIndices] at hi
  | node => exact mem_freeIndices_delta.1 hi

theorem wellFormed (h : DeltaOf s t r) (fits : SlotsFit extent [s, t] [none, none]) :
    WellFormed extent r := by
  cases h with
  | same => exact wellFormed_leaf trivial rfl
  | fixed => exact wellFormed_leaf trivial rfl
  | node =>
    obtain _ | ⟨left, _ | ⟨right, _ | _⟩⟩ := fits.dims
    refine .node ⟨left, right⟩ fun r hr => fits.runtime ?_
    rcases mem_runtimeSlots_delta.1 (by simpa [parts, children] using hr) with rfl | rfl <;> simp

end DeltaOf

/-- A factor in which an index is replaced by a slot: one that does not depend on the index is kept, in a delta the sides
are replaced, and any other factor is read where the slot stands. -/
inductive Redirected (extent : Index → Extent) (source : Index) (target : Slot (Expr K)) : Expr K → Expr K → Prop where
  | same {e : Expr K} : source ∉ e.freeIndices → Redirected extent source target e e
  | delta {i j : Slot (Expr K)} {r : Expr K} : source ∈ (Expr.delta i j).freeIndices →
    DeltaOf (replaced source target i) (replaced source target j) r → Redirected extent source target (.delta i j) r
  | entry {e : Expr K} {n : Int} : source ∈ e.freeIndices → (∀ i j, e ≠ .delta i j) → e.shape = [] →
    extent source = some n → 0 < n →
    Redirected extent source target e (.indexed (.componentTensor e [(source, n)]) [target])

namespace Redirected

/-- The index is gone, and at most that of the slot has come. -/
theorem free (h : Redirected extent source target e r) (ne : target ≠ .free source) {i : Index} (hi : i ∈ r.freeIndices) :
    i ≠ source ∧ (i ∈ e.freeIndices ∨ target = .free i) := by
  cases h with
  | same out =>
    refine ⟨?_, .inl hi⟩
    rintro rfl
    exact out hi
  | @delta a b r _ made =>
    have side : ∀ slot, slot = a ∨ slot = b → replaced source target slot = .free i →
        i ≠ source ∧ (i ∈ (Expr.delta a b).freeIndices ∨ target = .free i) := by
      intro slot mem eq
      rcases replaced_cases source target slot with ⟨-, same⟩ | ⟨other, same⟩
      · rw [same] at eq
        refine ⟨?_, .inr eq⟩
        rintro rfl
        exact ne eq
      · rw [same] at eq
        subst eq
        refine ⟨fun same => other (congrArg Slot.free same), .inl (mem_freeIndices_delta.2 ?_)⟩
        exact mem.imp Eq.symm Eq.symm
    rcases made.free hi with eq | eq
    · exact side a (.inl rfl) eq
    · exact side b (.inr rfl) eq
  | entry _ _ _ _ _ =>
    rcases mem_freeIndices_indexed.1 hi with slot | body
    · have eq : target = .free i := (mem_singleton.1 slot).symm
      refine ⟨?_, .inr eq⟩
      rintro rfl
      exact ne eq
    · obtain ⟨hi, out⟩ := mem_freeIndices_componentTensor.1 body
      exact ⟨by simpa using out, .inl hi⟩

theorem shape (h : Redirected extent source target e r) (scalar : e.shape = []) : r.shape = [] := by
  cases h with
  | same _ => exact scalar
  | delta _ made => exact made.shape
  | entry => rfl

/-- A delta comes from one whose sides it has, with the index replaced. -/
theorem ofDelta {i j : Slot (Expr K)} (h : Redirected extent source target e (.delta i j)) :
    ∃ a b, e = .delta a b ∧ i = replaced source target a ∧ j = replaced source target b ∧ (a ≠ b → i ≠ j) := by
  generalize eq : Expr.delta i j = r at h
  cases h with
  | same out =>
    subst eq
    have kept : ∀ slot, slot = i ∨ slot = j → slot = replaced source target slot := by
      intro slot mem
      rcases replaced_cases source target slot with ⟨same, -⟩ | ⟨-, same⟩
      · refine absurd (mem_freeIndices_delta.2 ?_) out
        exact mem.imp (fun eq => eq.symm.trans same) fun eq => eq.symm.trans same
      · exact same.symm
    exact ⟨i, j, rfl, kept i (.inl rfl), kept j (.inr rfl), id⟩
  | @delta a b r _ made =>
    subst eq
    generalize left : replaced source target a = s, right : replaced source target b = t at made
    cases made with
    | node ne => exact ⟨a, b, rfl, left.symm, right.symm, fun _ => ne⟩
  | entry => cases eq

theorem wellFormed (h : Redirected extent source target e r) (fits : WellFormed extent e) {n : Int}
    (known : extent source = some n) (slot : SlotsFit extent [target] [some n]) : WellFormed extent r := by
  cases h with
  | same _ => exact fits
  | @delta a b _ _ made =>
    have rule : Substitution.Fit extent [(source, target)] := by
      refine ⟨fun hp => ?_, fun hp eq => ?_⟩
      · rw [mem_singleton.1 hp, known]
        exact (forall₂_cons.1 slot.dims).1
      · rw [mem_singleton.1 hp] at eq
        exact slot.runtime (by simp [← eq])
    have slots : SlotsFit extent ([a, b].map (replaced source target)) [none, none] :=
      slotsFit_applySlot rule (slotsFit_of_delta fits)
    exact made.wellFormed slots
  | entry free _ scalar known' pos =>
    cases known.symm.trans known'
    refine wellFormed_indexed (wellFormed_node ⟨scalar, by simp, ?_, ?_, ?_⟩ ?_ rfl) slot (by simp)
    · simpa using free
    · simpa using known
    · simpa using pos
    · simpa [children] using fits

end Redirected

/-! ## The sums that are carried out -/

section Found

omit [Scalar K]

/-- An index that is found is summed over, and stands in a delta with the slot. -/
theorem findDelta_eq_some (h : findDelta is fs = some (source, target)) :
    source ∈ is ∧ (.delta (.free source) target ∈ fs ∨ .delta target (.free source) ∈ fs) := by
  have summed : ∀ {slot : Slot (Expr K)} {i : Index}, (slot.index?).filter is.contains = some i → slot = .free i ∧ i ∈ is := by
    intro slot i found
    obtain ⟨here, mem⟩ := Option.filter_eq_some_iff.1 found
    cases slot with
    | free j => exact ⟨congrArg Slot.free (Option.some.inj here), by simpa using mem⟩
    | fixed n => cases here
    | runtime r => cases here
  fun_induction findDelta is fs with
  | case1 => cases h
  | case2 i j rest own a found =>
    cases h
    obtain ⟨rfl, mem⟩ := summed found
    exact ⟨mem, .inl mem_cons_self⟩
  | case3 i j rest own b found _ =>
    cases h
    obtain ⟨rfl, mem⟩ := summed found
    exact ⟨mem, .inr mem_cons_self⟩
  | case4 i j rest own _ _ ih =>
    exact (ih h).imp id fun found => found.imp (mem_cons_of_mem _) (mem_cons_of_mem _)
  | case5 f rest _ ih =>
    exact (ih h).imp id fun found => found.imp (mem_cons_of_mem _) (mem_cons_of_mem _)

variable {k : Index}

/-- Where none is found, no delta has an index that is summed over. -/
theorem findDelta_eq_none (h : findDelta is fs = none) {i j : Slot (Expr K)} (mem : .delta i j ∈ fs) (hk : k ∈ is) :
    i ≠ .free k ∧ j ≠ .free k := by
  have summed : ∀ {slot : Slot (Expr K)}, (slot.index?).filter is.contains = none → slot ≠ .free k := by
    rintro slot found rfl
    simp [Slot.index?, hk] at found
  fun_induction findDelta is fs with
  | case1 => cases mem
  | case2 => cases h
  | case3 => cases h
  | case4 a b rest own right left ih =>
    rcases mem_cons.1 mem with same | mem
    · cases same
      exact ⟨summed left, summed right⟩
    · exact ih h mem
  | case5 f rest other ih =>
    rcases mem_cons.1 mem with same | mem
    · exact (other i j same.symm).elim
    · exact ih h mem

/-- The index of a slot that is put in stands in a delta. -/
theorem mem_freeIndices_found (found : findDelta is fs = some (source, target)) (eq : target = .free k) :
    ∃ i j, .delta i j ∈ fs ∧ k ∈ (Expr.delta i j).freeIndices := by
  rcases (findDelta_eq_some found).2 with mem | mem
  · exact ⟨_, _, mem, mem_freeIndices_delta.2 (.inr eq)⟩
  · exact ⟨_, _, mem, mem_freeIndices_delta.2 (.inl eq)⟩

/-- Without indices there is no sum to carry out. -/
theorem findDelta_nil (fs : List (Expr K)) : findDelta [] fs = none := by
  cases found : findDelta [] fs with
  | none => rfl
  | some p => exact absurd (findDelta_eq_some found).1 not_mem_nil

theorem length_erase_le {n : Nat} (enough : is.length ≤ n + 1) (found : findDelta is fs = some (source, target)) :
    (is.erase source).length ≤ n := by
  rw [length_erase_of_mem (findDelta_eq_some found).1]
  omega

end Found

/-- Factors that can be freed of the deltas on distinct indices. -/
structure Cancellable (extent : Index → Extent) (inside : Int → Expr K → Prop) (is : List Index) (fs : List (Expr K)) : Prop where
  distinct : is.Nodup
  fits {f : Expr K} : f ∈ fs → WellFormed extent f
  scalar {f : Expr K} : f ∈ fs → f.shape = []
  paired {i j : Slot (Expr K)} : .delta i j ∈ fs → Paired extent inside i j

/-- The index that is summed over next, with the slot that takes its place. -/
structure Linked (extent : Index → Extent) (inside : Int → Expr K → Prop) (source : Index) (target : Slot (Expr K)) (n : Int) :
    Prop where
  ne : target ≠ .free source
  known : extent source = some n
  fills : Fills extent inside n target
  fits : SlotsFit extent [target] [some n]

/-- A slot that fills the range of an index may take its place in a tensor over it. -/
theorem Fills.slotFits (fills : Fills extent inside n target) (fits : SlotFits extent target none) :
    SlotFits extent target (some n) := by
  cases target with
  | fixed k => trivial
  | free j => exact .inr fills
  | runtime r => exact fits

/-- The delta that is found gives the index a slot that fills its range. -/
theorem Cancellable.linked (h : Cancellable extent inside is fs) (found : findDelta is fs = some (source, target)) :
    ∃ n, Linked extent inside source target n := by
  have side : Paired extent inside (.free source) target ∧ SlotsFit extent [target] [none] := by
    rcases (findDelta_eq_some found).2 with mem | mem
    · have slots := slotsFit_of_delta (h.fits mem)
      exact ⟨h.paired mem, .cons (forall₂_cons.1 (forall₂_cons.1 slots.dims).2).1 .nil,
        fun hr => slots.runtime (mem_cons_of_mem _ hr)⟩
    · have slots := slotsFit_of_delta (h.fits mem)
      refine ⟨(h.paired mem).symm, .cons (forall₂_cons.1 slots.dims).1 .nil, fun hr => slots.runtime ?_⟩
      rw [mem_singleton.1 hr]
      exact mem_cons_self
  obtain ⟨n, known, fills⟩ := side.1.left rfl
  have fits := fills.slotFits (forall₂_cons.1 side.2.dims).1
  exact ⟨n, side.1.ne.symm, known, fills, .cons fits .nil, side.2.runtime⟩

section Filling

omit [Scalar K]

variable {rules : Substitution K} {s t : Slot (Expr K)}

/-- Rules whose slots fill the ranges of the indices that they stand for. -/
def Filling (extent : Index → Extent) (inside : Int → Expr K → Prop) (rules : Substitution K) : Prop :=
  ∀ p ∈ rules, ∃ n, extent p.1 = some n ∧ Fills extent inside n p.2

/-- A slot fills the same ranges after indices are replaced by slots that fill theirs. -/
theorem Fills.applySlot {n : Int} (h : Fills extent inside n s) (filling : Filling extent inside rules) :
    Fills extent inside n (rules.applySlot s) := by
  cases s with
  | fixed k => exact h
  | runtime r => exact h
  | free i =>
    by_cases ruled : rules.apply i = .free i
    · rwa [Substitution.applySlot, ruled]
    · obtain ⟨m, known, fills⟩ := filling _ (Substitution.apply_mem ruled)
      obtain rfl : m = n := Option.some.inj (known.symm.trans h)
      exact fills

theorem Paired.applySlot_left (h : Paired extent inside s t) (filling : Filling extent inside rules) {k : Index}
    (eq : rules.applySlot s = .free k) : ∃ n, extent k = some n ∧ Fills extent inside n (rules.applySlot t) := by
  cases s with
  | fixed n => cases eq
  | runtime r => cases eq
  | free i =>
    obtain ⟨n, known, side⟩ := h.left rfl
    have fills : Fills extent inside n (rules.applySlot (.free i)) := Fills.applySlot (s := .free i) known filling
    rw [eq] at fills
    exact ⟨n, fills, side.applySlot filling⟩

/-- Sides that stay different stay paired. -/
theorem Paired.applySlot (h : Paired extent inside s t) (filling : Filling extent inside rules)
    (ne : rules.applySlot s ≠ rules.applySlot t) : Paired extent inside (rules.applySlot s) (rules.applySlot t) :=
  ⟨ne, h.applySlot_left filling, h.symm.applySlot_left filling⟩

end Filling

theorem Linked.filling (h : Linked extent inside source target n) : Filling extent inside [(source, target)] := by
  intro p hp
  rw [mem_singleton.1 hp]
  exact ⟨n, h.known, h.fills⟩

/-- Replacing the index leaves factors of the same kind. -/
theorem Cancellable.step (h : Cancellable extent inside is fs) (link : Linked extent inside source target n)
    (redirected : Forall₂ (Redirected extent source target) fs fs') :
    Cancellable extent inside (is.erase source) fs' := by
  have each : ∀ f' ∈ fs', ∃ f ∈ fs, Redirected extent source target f f' := fun f' hf' => exists_of_forall₂ redirected.flip hf'
  refine ⟨h.distinct.erase source, fun hf' => ?_, fun hf' => ?_, fun {i j} mem => ?_⟩
  · obtain ⟨f, hf, hr⟩ := each _ hf'
    exact hr.wellFormed (h.fits hf) link.known link.fits
  · obtain ⟨f, hf, hr⟩ := each _ hf'
    exact hr.shape (h.scalar hf)
  · obtain ⟨f, hf, hr⟩ := each _ mem
    obtain ⟨a, b, rfl, rfl, rfl, ne⟩ := hr.ofDelta
    have pair := h.paired hf
    exact pair.applySlot link.filling (ne pair.ne)

/-- The sums against deltas that are carried out one after the other, with the indices and slots that are met. -/
inductive Cancels (extent : Index → Extent) :
    List Index → List (Expr K) → List (Index × Slot (Expr K)) → List Index → List (Expr K) → Prop where
  | done {is : List Index} {fs : List (Expr K)} : findDelta is fs = none → Cancels extent is fs [] is fs
  | step {is is' : List Index} {fs fs' fs'' : List (Expr K)} {source : Index} {target : Slot (Expr K)}
    {trace : List (Index × Slot (Expr K))} : findDelta is fs = some (source, target) →
    Forall₂ (Redirected extent source target) fs fs' → Cancels extent (is.erase source) fs' trace is' fs'' →
    Cancels extent is fs ((source, target) :: trace) is' fs''

variable {trace : List (Index × Slot (Expr K))}

theorem Cancels.sublist (h : Cancels extent is fs trace is' fs') : is'.Sublist is := by
  induction h with
  | done => exact .refl _
  | step _ _ _ ih => exact ih.trans erase_sublist

theorem Cancels.none {trace : List (Index × Slot (Expr K))} (h : Cancels extent is fs trace is' fs') : findDelta is' fs' = none := by
  induction h with
  | done none => exact none
  | step _ _ _ ih => exact ih

/-- The indices that factors depend on without being summed over are in range. -/
def Anchored (extent : Index → Extent) (ρ : Valuation) (is : List Index) (fs : List (Expr K)) : Prop :=
  ∀ f ∈ fs, ∀ k ∈ f.freeIndices, k ∉ is → ρ.Inside extent [k]

/-- What each replacement keeps is kept by all of them. -/
theorem Cancels.keeps (h : Cancels extent is fs trace is' fs')
    (inv : Cancellable extent inside is fs) {I : List Index → List (Expr K) → Prop}
    (step : ∀ {is fs fs' source target n}, Cancellable extent inside is fs → findDelta is fs = some (source, target) →
      Linked extent inside source target n → Forall₂ (Redirected extent source target) fs fs' → I is fs →
      I (is.erase source) fs') (start : I is fs) : Cancellable extent inside is' fs' ∧ I is' fs' := by
  induction h with
  | done => exact ⟨inv, start⟩
  | step found redirected _ ih =>
    obtain ⟨n, link⟩ := inv.linked found
    exact ih (inv.step link redirected) (step inv found link redirected start)

theorem mem_erase_append (distinct : is.Nodup) (mem : source ∈ is) (i : Index) :
    i ∈ is ++ ks ↔ i ∈ is.erase source ++ ks ∨ i = source := by
  rw [mem_append, mem_append, distinct.mem_erase_iff]
  by_cases same : i = source
  · simp [same, mem]
  · simp [same]

theorem Anchored.step {ρ : Valuation} (h : Anchored extent ρ (is ++ ks) fs) (distinct : is.Nodup)
    (found : findDelta is fs = some (source, target)) (link : Linked extent inside source target n)
    (redirected : Forall₂ (Redirected extent source target) fs fs') : Anchored extent ρ (is.erase source ++ ks) fs' := by
  intro f' hf' k hk out
  obtain ⟨f, hf, hr⟩ := exists_of_forall₂ redirected.flip hf'
  obtain ⟨other, from_⟩ := hr.free link.ne hk
  have out' : k ∉ is ++ ks := fun hk => (mem_erase_append distinct (findDelta_eq_some found).1 k).1 hk |>.elim out other
  rcases from_ with hk | eq
  · exact h f hf k hk out'
  · obtain ⟨a, b, mem, hk⟩ := mem_freeIndices_found found eq
    exact h _ mem k hk out'

/-! ### How they are run -/

variable [Field K] [Exact K] {env : Environment K}

theorem exists_deltaOf (s t : Slot (Expr K)) : ∃ r, Build.delta s t = pure r ∧ DeltaOf s t r := by
  unfold Build.delta
  split
  · rename_i same
    obtain rfl := eq_of_beq same
    exact ⟨_, rfl, .same s⟩
  · rename_i differ
    have ne : s ≠ t := by simpa using differ
    split
    · exact ⟨_, rfl, .fixed fun same => ne (congrArg Slot.fixed same)⟩
    · exact ⟨_, rfl, .node ne⟩

/-- Replacing an index in a delta makes the delta of the sides in which it is replaced. -/
theorem substitute_delta {i j : Slot (Expr K)} (free : source ∈ (Expr.delta i j).freeIndices) (ne : target ≠ .free source) :
    substitute [.delta i j] [(source, target)] = do
      return [← delta (replaced source target i) (replaced source target j)] := by
  have kept : Substitution.restrict [(source, target)] (.delta i j) = [(source, target)] := by
    simpa [Substitution.restrict] using free
  have moved : ¬ ((replaced source target i == i && replaced source target j == j) = true) := by
    intro same
    obtain ⟨left, right⟩ := Bool.and_eq_true_iff.1 same
    rcases mem_freeIndices_delta.1 free with rfl | rfl
    · exact ne (by simpa [Substitution.applySlot, Substitution.apply] using left)
    · exact ne (by simpa [Substitution.applySlot, Substitution.apply] using right)
  unfold substitute mapMemoArg
  rw [mapM_cons, mapM_nil, StateT.run'_eq, StateT.run_bind, run_memoiseArg]
  simp only [Std.HashMap.getElem?_empty, substituteStep, kept, if_neg moved]
  simp

/-- Whether an index is replaced depends on the kind of the factor. -/
theorem redirect_cases (ne : target ≠ .free source) (e : Expr K) :
    (source ∉ e.freeIndices ∧ redirect source target e = pure e) ∨
    (∃ i j r, e = .delta i j ∧ source ∈ e.freeIndices ∧ redirect source target e = pure r ∧
      DeltaOf (replaced source target i) (replaced source target j) r) ∨
    (source ∈ e.freeIndices ∧ (∀ i j, e ≠ .delta i j) ∧
      redirect source target e = do Build.indexed (← Build.tensorOver e [source]) [target]) := by
  by_cases free : source ∈ e.freeIndices
  · have goes : ¬ (!e.freeIndices.contains source) = true := by simpa using free
    cases e with
    | delta i j =>
      obtain ⟨r, made, hr⟩ := exists_deltaOf (replaced source target i) (replaced source target j)
      refine .inr (.inl ⟨i, j, r, rfl, free, ?_, hr⟩)
      rw [redirect, if_neg goes, substitute_delta free ne, made]
      rfl
    | _ =>
      refine .inr (.inr ⟨free, nofun, ?_⟩)
      rw [redirect, if_neg goes]
      nofun
  · refine .inl ⟨free, ?_⟩
    unfold redirect
    rw [if_pos (by simpa using free)]

/-- An index that has positions is replaced in each scalar factor. -/
theorem succeeds_redirect (ne : target ≠ .free source) (known : extent source = some n) (pos : 0 < n)
    (fits : SlotFits extent target (some n)) (scalar : e.shape = []) :
    Succeeds extent (redirect source target e) (Redirected extent source target e) := by
  rcases redirect_cases ne e with ⟨out, run⟩ | ⟨i, j, r, rfl, free, run, hr⟩ | ⟨free, other, run⟩
  · rw [run]
    exact succeeds_pure (.same out)
  · rw [run]
    exact succeeds_pure (.delta free hr)
  · rw [run]
    have bounds : Bounds extent [(source, n)] := ⟨by simpa using known, by simpa using pos⟩
    refine (succeeds_tensorOver scalar bounds (by simpa using free)).bind fun t ht => ?_
    cases ht with
    | body none => cases none
    | zero zero =>
      obtain ⟨shape, rfl⟩ := isZero_iff.1 zero
      rw [freeIndices] at free
      cases free
    | node _ _ =>
      refine (succeeds_componentEntry (by simp) (.cons fits .nil)).mono fun r hr => ?_
      rw [hr]
      exact .entry free other scalar known pos

/-- When a replacement returns, the factor is redirected. An index without positions can be replaced in deltas alone. -/
theorem ensures_redirect (ne : target ≠ .free source) {n : Nat} (known : extent source = some (n : Int))
    (fits : SlotFits extent target (some (n : Int))) (scalar : e.shape = []) :
    Ensures extent (redirect source target e) (Redirected extent source target e) := by
  rcases Nat.eq_zero_or_pos n with rfl | pos
  · rcases redirect_cases ne e with ⟨out, run⟩ | ⟨i, j, r, rfl, free, run, hr⟩ | ⟨free, other, run⟩
    · rw [run]
      exact ensures_pure (.same out)
    · rw [run]
      exact ensures_pure (.delta free hr)
    · rw [run]
      refine Ensures.bind (Q := fun _ => False) ?_ fun _ none => none.elim
      refine ensures_requireScalar.bind fun _ _ => ensures_ite (fun none => by cases none) fun _ => ?_
      refine (succeeds_runningIndices [source]).ensures.bind fun is his => ?_
      subst his
      refine (ensures_mapM (S := fun i n => n = extent i) fun i _ => ensures_extent).bind fun shape hshape => ?_
      obtain _ | ⟨here, _ | _⟩ := hshape
      refine ensures_require.bind fun _ full => ?_
      rw [here, known] at full
      simp [Shape.hasOpenOrEmpty] at full
  · exact (succeeds_redirect ne known (by exact_mod_cast pos) fits scalar).ensures

/-- What is left when the sums against deltas are carried out. -/
theorem ensures_eliminateWithin {n : Nat} (enough : is.length ≤ n) (h : Cancellable extent inside is fs)
    (known : ∀ i ∈ is, ∃ n : Nat, extent i = some (n : Int)) :
    Ensures extent (eliminateWithin n is fs) fun p => ∃ trace, Cancels extent is fs trace p.1 p.2 := by
  induction n generalizing is fs with
  | zero =>
    obtain rfl := length_eq_zero_iff.1 (Nat.le_zero.1 enough)
    exact ensures_pure ⟨[], .done (findDelta_nil fs)⟩
  | succ n ih =>
    rw [eliminateWithin]
    cases found : findDelta is fs with
    | none => exact ensures_pure ⟨[], .done found⟩
    | some p =>
      obtain ⟨source, target⟩ := p
      obtain ⟨m, link⟩ := h.linked found
      obtain ⟨m', size⟩ := known source (findDelta_eq_some found).1
      obtain rfl : m = m' := Option.some.inj (link.known.symm.trans size)
      have dims := (forall₂_cons.1 link.fits.dims).1
      refine (ensures_mapM fun f hf => ensures_redirect link.ne link.known dims (h.scalar hf)).bind fun fs' hfs' => ?_
      refine (ih (length_erase_le enough found) (h.step link hfs') fun i hi => known i (mem_of_mem_erase hi)).mono fun q hq => ?_
      obtain ⟨trace, rest⟩ := hq
      exact ⟨_, .step found hfs' rest⟩

/-- Where the indices have positions, all the sums against deltas are carried out. -/
theorem succeeds_eliminateWithin {n : Nat} (enough : is.length ≤ n) (h : Cancellable extent inside is fs)
    (known : ∀ i ∈ is, ∃ n, extent i = some n ∧ 0 < n) :
    Succeeds extent (eliminateWithin n is fs) fun p => ∃ trace, Cancels extent is fs trace p.1 p.2 := by
  induction n generalizing is fs with
  | zero =>
    obtain rfl := length_eq_zero_iff.1 (Nat.le_zero.1 enough)
    exact succeeds_pure ⟨[], .done (findDelta_nil fs)⟩
  | succ n ih =>
    rw [eliminateWithin]
    cases found : findDelta is fs with
    | none => exact succeeds_pure ⟨[], .done found⟩
    | some p =>
      obtain ⟨source, target⟩ := p
      obtain ⟨m, link⟩ := h.linked found
      obtain ⟨m', size, pos⟩ := known source (findDelta_eq_some found).1
      obtain rfl : m = m' := Option.some.inj (link.known.symm.trans size)
      have dims := (forall₂_cons.1 link.fits.dims).1
      refine (succeeds_mapM fun f hf => succeeds_redirect link.ne link.known pos dims (h.scalar hf)).bind fun fs' hfs' => ?_
      refine (ih (length_erase_le enough found) (h.step link hfs') fun i hi => known i (mem_of_mem_erase hi)).mono fun q hq => ?_
      obtain ⟨trace, rest⟩ := hq
      exact ⟨_, .step found hfs' rest⟩

/-! ## What the factors add up to -/

/-- The valuation in which the index stands where the slot does. -/
abbrev moved (env : Environment K) (source : Index) (target : Slot (Expr K)) (σ : Valuation) : Valuation :=
  σ.set source (Expr.position env σ target)

section Values

omit [Exact K]

theorem under_single (env : Environment K) (σ : Valuation) :
    Substitution.under [(source, target)] env σ = moved env source target σ := by
  funext i
  rw [Substitution.under, Substitution.apply_cons, moved, Valuation.set]
  split <;> rfl

variable {slot : Slot (Expr K)} {σ : Valuation} {n : Int}

theorem position_replaced (fits : Expr.SlotFits extent slot none)
    (runtime : ∀ r, slot = .runtime r → Expr.WellFormed extent r) (σ : Valuation) :
    Expr.position env σ (replaced source target slot) = Expr.position env (moved env source target σ) slot := by
  rw [replaced, Substitution.position_applySlot _ fits fun r hr => (runtime r hr).runtimeClosed, under_single]

/-- Where a slot stands depends on its index alone. -/
theorem position_of_agree {slots : List (Slot (Expr K))} {shape : Shape} (fits : SlotsFit extent slots shape)
    (mem : slot ∈ slots) {τ : Valuation} (same : ∀ i, slot = .free i → σ i = τ i) :
    Expr.position env σ slot = Expr.position env τ slot := by
  refine Expr.position_congr same fun r eq => ?_
  subst eq
  obtain ⟨n, -, closed⟩ := Expr.exists_of_forall₂ fits.dims mem
  refine Expr.value_congr (fits.runtime mem).runtimeClosed [] ?_
  rw [closed.1]
  exact fun i hi => absurd hi not_mem_nil

/-- A slot with another index does not move with the index. -/
theorem position_set (ne : target ≠ .free source) {n : Extent} (fits : SlotsFit extent [target] [n]) (σ : Valuation)
    (v : Int) : Expr.position env (σ.set source v) target = Expr.position env σ target := by
  refine position_of_agree fits mem_cons_self fun i eq => Valuation.set_of_ne σ v ?_
  rintro rfl
  exact ne eq

theorem DeltaOf.defined {s t : Slot (Expr K)} (h : DeltaOf s t r) (σ : Valuation) : Defined env r σ [] := by
  cases h <;> simp [Build.one, Build.zero, Defined]

/-- A redirected factor is defined where the factor is. -/
theorem Redirected.defined (h : Redirected extent source target e r) (fits : Expr.WellFormed extent e) {σ : Valuation}
    (defined : Expr.Defined env e (moved env source target σ) []) : Expr.Defined env r σ [] := by
  cases h with
  | same out =>
    refine defined.congr fits.runtimeClosed fun i hi => Valuation.set_of_ne σ _ ?_
    rintro rfl
    exact out hi
  | delta free made => exact made.defined σ
  | entry free other scalar known pos =>
    rw [Expr.defined_indexed, Expr.defined_componentTensor]
    exact defined

/-- A slot that fills a range stands in it where its index does. -/
theorem Fills.position (h : Fills extent (Reaches env) n target)
    (index : ∀ j, target = .free j → 0 ≤ σ j ∧ σ j < n) : 0 ≤ Expr.position env σ target ∧ Expr.position env σ target < n := by
  cases target with
  | fixed k => exact h
  | free j => exact index j rfl
  | runtime r => exact h σ

/-- The slot that is put in stands in the range of the index. -/
theorem Anchored.position {ρ : Valuation} (h : Anchored extent ρ (is ++ ks) fs) (distinct : is.Nodup)
    (found : findDelta is fs = some (source, target)) (link : Linked extent (Reaches env) source target n)
    (hσ : σ ∈ ρ.runs extent (is.erase source ++ ks)) :
    0 ≤ Expr.position env σ target ∧ Expr.position env σ target < n := by
  refine link.fills.position fun j eq => ?_
  subst eq
  have known : extent j = some n := link.fills
  by_cases mem : j ∈ is.erase source ++ ks
  · have range := (Valuation.mem_ranging.1 hσ).2 j mem
    rw [Bounds.sizes, known, Option.getD_some] at range
    omega
  · have out : j ∉ is ++ ks := fun hj => (mem_erase_append distinct (findDelta_eq_some found).1 j).1 hj |>.elim mem fun same =>
      link.ne (congrArg Slot.free same)
    obtain ⟨a, b, here, hj⟩ := mem_freeIndices_found found rfl
    obtain ⟨low, high⟩ := h _ here j hj out j mem_cons_self
    rw [Valuation.eq_of_mem_runs hσ mem]
    exact ⟨low, high n known⟩

end Values

theorem DeltaOf.value (h : DeltaOf s t r) (σ : Valuation) :
    r.value env σ [] = if Expr.position env σ s = Expr.position env σ t then 1 else 0 := by
  cases h with
  | same => rw [value_one, if_pos rfl]
  | fixed ne =>
    rw [Build.zero, Expr.value_zero, if_neg]
    exact ne
  | node _ => rw [Expr.value_delta]

/-- A redirected factor has the value of the factor where the slot stands. -/
theorem Redirected.value (h : Redirected extent source target e r) (fits : Expr.WellFormed extent e) (σ : Valuation) :
    r.value env σ [] = e.value env (moved env source target σ) [] := by
  cases h with
  | same out => 
    refine Expr.value_congr fits.runtimeClosed [] fun i hi => (Valuation.set_of_ne σ _ ?_).symm
    rintro rfl
    exact out hi
  | @delta i j r free made =>
    have slots := slotsFit_of_delta fits
    rw [made.value, Expr.value_delta, position_replaced fits.here.1 (fun r hr => slots.runtime (by simp [hr])),
      position_replaced fits.here.2 (fun r hr => slots.runtime (by simp [hr]))]
  | entry free other scalar known pos =>
    rw [Expr.value_indexed, Expr.value_componentTensor]
    rfl

/-- The valuation at which factors are read that have gone through the given replacements. -/
def retrace (env : Environment K) : List (Index × Slot (Expr K)) → Valuation → Valuation
  | [], σ => σ
  | (source, target) :: trace, σ => moved env source target (retrace env trace σ)

namespace Cancels

variable {trace : List (Index × Slot (Expr K))} {ρ : Valuation}

omit [Exact K] in
/-- Where the indices that are left run, the indices that were summed over are in range. -/
theorem retrace_mem (h : Cancels extent is fs trace is' fs') (inv : Cancellable extent (Reaches env) is fs)
    (anchored : Anchored extent ρ (is ++ ks) fs) {σ : Valuation} (hσ : σ ∈ ρ.runs extent (is' ++ ks)) :
    retrace env trace σ ∈ ρ.runs extent (is ++ ks) := by
  induction h with
  | done => exact hσ
  | step found redirected _ ih =>
    obtain ⟨n, link⟩ := inv.linked found
    have before := ih (inv.step link redirected) (anchored.step inv.distinct found link redirected) hσ
    refine Valuation.set_mem_runs before (mem_erase_append inv.distinct (findDelta_eq_some found).1) link.known ?_
    exact anchored.position inv.distinct found link before

omit [Exact K] in
/-- What vanishes wherever a delta does adds up to the same over the indices that are left, read where the slots stand. -/
theorem sum_eq (h : Cancels extent is fs trace is' fs') (inv : Cancellable extent (Reaches env) is fs)
    (anchored : Anchored extent ρ (is ++ ks) fs) (apart : ∀ i ∈ is, i ∉ ks) {g : Valuation → K}
    (vanish : ∀ {i j}, .delta i j ∈ fs → ∀ σ, Expr.position env σ i ≠ Expr.position env σ j → g σ = 0) :
    ((ρ.runs extent (is ++ ks)).map g).sum = ((ρ.runs extent (is' ++ ks)).map fun σ => g (retrace env trace σ)).sum := by
  induction h generalizing g with
  | done => rfl
  | @step is is' fs fs₁ fs' source target trace found redirected _ ih =>
    obtain ⟨n, link⟩ := inv.linked found
    obtain ⟨mem, delta⟩ := findDelta_eq_some found
    have out : source ∉ is.erase source ++ ks := by
      rw [mem_append, inv.distinct.mem_erase_iff]
      simpa using apart source mem
    have zero : ∀ σ, σ source ≠ Expr.position env σ target → g σ = 0 := fun σ differ => by
      rcases delta with delta | delta
      · exact vanish delta σ differ
      · exact vanish delta σ differ.symm
    rw [Valuation.sum_runs_single (mem_erase_append inv.distinct mem) out link.known
      (fun σ v => position_set link.ne link.fits σ v) (fun σ hσ => anchored.position inv.distinct found link hσ) zero]
    refine ih (inv.step link redirected) (anchored.step inv.distinct found link redirected)
      (fun i hi => apart i (mem_of_mem_erase hi)) fun {i j} mem σ differ => ?_
    -- a delta that is left stands where one stood before
    obtain ⟨f, hf, hr⟩ := Expr.exists_of_forall₂ redirected.flip mem
    obtain ⟨a, b, rfl, rfl, rfl, -⟩ := hr.ofDelta
    have slots := slotsFit_of_delta (inv.fits hf)
    have fits := (inv.fits hf).here
    refine vanish hf _ ?_
    rwa [← position_replaced fits.1 fun r hr => slots.runtime (by simp [hr]),
      ← position_replaced fits.2 fun r hr => slots.runtime (by simp [hr])]

omit [Field K] [Exact K] in
/-- What each replacement does to a factor is done to it by all of them. -/
theorem traced (h : Cancels extent is fs trace is' fs') (inv : Cancellable extent inside is fs)
    {S : List (Index × Slot (Expr K)) → Expr K → Expr K → Prop} (done : ∀ f, S [] f f)
    (step : ∀ {source target trace f f₁ f'}, Redirected extent source target f f₁ → WellFormed extent f →
      S trace f₁ f' → S ((source, target) :: trace) f f') : Forall₂ (S trace) fs fs' := by
  induction h with
  | done => exact forall₂_same.2 fun f _ => done f
  | @step is is' fs fs₁ fs' source target trace found redirected _ ih =>
    obtain ⟨n, link⟩ := inv.linked found
    have first : Forall₂ (fun f f₁ => Redirected extent source target f f₁ ∧ WellFormed extent f) fs fs₁ :=
      forall₂_iff_zip.2 ⟨redirected.length_eq, fun mem =>
        ⟨forall₂_zip redirected mem, inv.fits (of_mem_zip mem).1⟩⟩
    have later : Forall₂ (S trace) fs₁ fs' := ih (inv.step link redirected)
    refine forall₂_trans (fun here rest => ?_) first later
    exact step here.1 here.2 rest

/-- The factors that are left have the values of the factors where the slots stand. -/
theorem values (h : Cancels extent is fs trace is' fs') (inv : Cancellable extent inside is fs) :
    Forall₂ (fun f f' => ∀ σ, f'.value env σ [] = f.value env (retrace env trace σ) []) fs fs' := by
  refine h.traced inv (S := fun trace f f' => ∀ σ, f'.value env σ [] = f.value env (retrace env trace σ) []) (fun f σ => rfl)
    fun hr fits rest σ => ?_
  exact (rest σ).trans (hr.value fits _)

end Cancels

/-- Sums against deltas are all carried out: what is left are some of the indices, which stand in no delta, and factors
whose product adds up to the same over them. -/
theorem eliminateDeltas_correct (distinct : is.Nodup) (known : ∀ i ∈ is, ∃ n, extent i = some n ∧ 0 < n)
    (fits : ∀ f ∈ fs, Expr.WellFormed extent f ∧ f.shape = [])
    (paired : ∀ i j, .delta i j ∈ fs → Paired extent (fun _ _ => True) i j) :
    Build.Succeeds extent (eliminateDeltas is fs) fun p =>
      p.1.Sublist is ∧ (∀ i j, .delta i j ∈ p.2 → ∀ k ∈ p.1, i ≠ .free k ∧ j ≠ .free k) ∧
      ∀ (env : Environment K) (ρ : Valuation), (∀ i j, .delta i j ∈ fs → Paired extent (Reaches env) i j) →
        (∀ f ∈ fs, ρ.Inside extent (Indices.diff f.freeIndices is)) →
        ((ρ.runs extent p.1).map fun σ => Expr.productAt env σ p.2).sum =
          ((ρ.runs extent is).map fun σ => Expr.productAt env σ fs).sum := by
  have inv : Cancellable extent (fun _ _ => True) is fs := ⟨distinct, fun hf => (fits _ hf).1, fun hf => (fits _ hf).2, paired _ _⟩
  refine (succeeds_eliminateWithin (Nat.le_refl _) inv known).mono fun p hp => ?_
  obtain ⟨trace, cancels⟩ := hp
  refine ⟨cancels.sublist, fun i j mem k hk => findDelta_eq_none cancels.none mem hk, fun env ρ reach inside => ?_⟩
  have inv : Cancellable extent (Reaches env) is fs := ⟨distinct, inv.fits, inv.scalar, reach _ _⟩
  have anchored : Anchored extent ρ (is ++ []) fs := by
    intro f hf k hk out k' hk'
    rw [List.mem_singleton.1 hk']
    exact inside f hf k (Indices.mem_diff.2 ⟨hk, by simpa using out⟩)
  have vanish : ∀ {i j}, .delta i j ∈ fs → ∀ σ, Expr.position env σ i ≠ Expr.position env σ j → Expr.productAt env σ fs = 0 := by
    intro i j mem σ differ
    refine List.prod_eq_zero (List.mem_map.2 ⟨_, mem, ?_⟩)
    rw [Expr.value_delta, if_neg differ]
  have total := cancels.sum_eq inv anchored (fun i _ => List.not_mem_nil) vanish
  rw [List.append_nil, List.append_nil] at total
  rw [total]
  refine congrArg List.sum (List.map_congr_left fun σ _ => Expr.productAt_congr ?_)
  exact (cancels.values inv).imp fun f f' same => same σ

/-- The entries of the diagonal of a matrix, times those of one of its columns. -/
def diagonalFactors : List (Expr ℚ) := [.delta (.free ⟨0⟩) (.free ⟨1⟩), matrixEntry ⟨0⟩ ⟨2⟩, matrixEntry ⟨1⟩ ⟨0⟩]

/-- All tensors have the entry `i + j + 1` at `(i, j)`. -/
def entrySums : Environment ℚ := ⟨fun _ _ idx => ((idx.sum + 1 : Int) : ℚ), fun _ _ => 0, fun _ _ => 0, fun _ => 0⟩

variable {inside : Int → Expr ℚ → Prop}

theorem paired_threeIndices : Paired threeIndices.extents inside (.free ⟨0⟩) (.free ⟨1⟩) := by
  refine ⟨by simp, fun eq => ?_, fun eq => ?_⟩
  · cases eq
    exact ⟨2, rfl, rfl⟩
  · cases eq
    exact ⟨2, rfl, rfl⟩

theorem paired_diagonalFactors (i j : Slot (Expr ℚ)) (mem : .delta i j ∈ diagonalFactors) :
    Paired threeIndices.extents inside i j := by
  obtain ⟨rfl, rfl⟩ : i = .free ⟨0⟩ ∧ j = .free ⟨1⟩ := by simpa [diagonalFactors, matrixEntry] using mem
  exact paired_threeIndices

/-- The diagonal times the second column adds up to eleven. -/
theorem eliminateDeltas_diagonal :
    Build.Succeeds threeIndices.extents (eliminateDeltas [⟨0⟩, ⟨1⟩] diagonalFactors) fun p => p.1.Sublist [⟨0⟩, ⟨1⟩] ∧
      ((Valuation.runs (fun _ => 1) threeIndices.extents p.1).map fun σ => Expr.productAt entrySums σ p.2).sum = 11 := by
  refine (eliminateDeltas_correct (by simp) ?_ ?_ paired_diagonalFactors).mono fun p hp => ⟨hp.1, ?_⟩
  · simp only [List.mem_cons, List.not_mem_nil, or_false, forall_eq_or_imp, forall_eq]
    exact ⟨⟨2, rfl, by decide⟩, ⟨2, rfl, by decide⟩⟩
  · simp only [diagonalFactors, List.mem_cons, List.not_mem_nil, or_false, forall_eq_or_imp, forall_eq]
    exact ⟨⟨Expr.wellFormed_leaf ⟨.inl rfl, .inl rfl⟩ rfl, rfl⟩, ⟨wellFormed_matrixEntry rfl rfl, rfl⟩,
      ⟨wellFormed_matrixEntry rfl rfl, rfl⟩⟩
  · rw [hp.2.2 entrySums _ paired_diagonalFactors]
    · have size : Bounds.sizes threeIndices.extents ⟨0⟩ = 2 ∧ Bounds.sizes threeIndices.extents ⟨1⟩ = 2 := ⟨rfl, rfl⟩
      simp [diagonalFactors, matrixEntry, entrySums, Valuation.runs, Expr.productAt, bindersOf, Valuation.ranging, size,
        Expr.position, Valuation.set, show List.range 2 = [0, 1] from rfl]
      norm_num
    · rintro f - ⟨_ | _ | _ | i⟩ -
      · exact ⟨Int.one_nonneg, by rintro n ⟨⟩; decide⟩
      · exact ⟨Int.one_nonneg, by rintro n ⟨⟩; decide⟩
      · exact ⟨Int.one_nonneg, by rintro n ⟨⟩; decide⟩
      · exact ⟨Int.one_nonneg, by rintro n ⟨⟩⟩

end Rewrite

end FormCompiler
