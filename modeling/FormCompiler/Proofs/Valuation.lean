import FormCompiler.Proofs.Meaning

/-!
# Running indices over their extents

The valuations over which binders run: which they are, that each comes once, and that the order of the binders does not
matter to a sum. Sums over several indices are split and reordered by these facts alone.
-/

namespace FormCompiler

open List

/-- Indices as binders with given numbers of positions. -/
def bindersOf (size : Index → Nat) (is : List Index) : List Binder := is.map fun i => (i, (size i : Int))

@[simp] theorem map_fst_bindersOf (size : Index → Nat) (is : List Index) :
    (bindersOf size is).map Prod.fst = is := by
  simp [bindersOf, Function.comp_def]

theorem bindersOf_append (size : Index → Nat) (is js : List Index) :
    bindersOf size (is ++ js) = bindersOf size is ++ bindersOf size js := by
  simp [bindersOf]

namespace Valuation

/-- The positions of some indices. -/
def on (ρ : Valuation) (is : List Index) : List Int := is.map ρ

/-- Valuations that put some indices at the same positions. -/
def Agree (is : List Index) (ρ ρ' : Valuation) : Prop := ∀ i ∈ is, ρ i = ρ' i

instance (is : List Index) (ρ ρ' : Valuation) : Decidable (Agree is ρ ρ') :=
  inferInstanceAs (Decidable (∀ i ∈ is, ρ i = ρ' i))

/-- Some indices stand at positions below their extents. -/
def InRange (size : Index → Nat) (is : List Index) (ρ : Valuation) : Prop := ∀ i ∈ is, 0 ≤ ρ i ∧ ρ i < size i

/-- Indices that stand at positions below their extents, where these are known. -/
def Inside (extent : Index → Extent) (is : List Index) (ρ : Valuation) : Prop :=
  ∀ i ∈ is, 0 ≤ ρ i ∧ ∀ n, extent i = some n → ρ i < n

variable {ρ ρ' : Valuation} {is js : List Index} {size : Index → Nat} {bs cs : List Binder} {vs : List Int} {i : Index}
  {b : Binder}

theorem on_eq_on : ρ.on is = ρ'.on is ↔ Agree is ρ ρ' := map_inj_left

theorem Agree.mono (h : Agree js ρ ρ') (sub : is ⊆ js) : Agree is ρ ρ' :=
  fun i hi => h i (sub hi)

theorem InRange.mono (h : InRange size js ρ) (sub : is ⊆ js) : InRange size is ρ := fun i hi => h i (sub hi)

/-! ## Binding -/

theorem bind_of_not_mem (h : i ∉ bs.map Prod.fst) : ρ.bind bs vs i = ρ i := by
  induction bs generalizing ρ vs with
  | nil => rfl
  | cons b bs ih =>
    simp only [map_cons, mem_cons, not_or] at h
    rw [bind, ih h.2, set_of_ne ρ _ h.1]

/-- Binding the same positions keeps valuations together, on the binders too. -/
theorem Agree.bind (vs : List Int)
    (h : ∀ i ∈ is, i ∉ bs.map Prod.fst → ρ i = ρ' i) : Agree is (ρ.bind bs vs) (ρ'.bind bs vs) := by
  induction bs generalizing ρ ρ' vs with
  | nil => exact fun i hi => h i hi (by simp)
  | cons b bs ih =>
    apply ih
    intro i hi hbs
    by_cases same : i = b.1
    · subst same
      simp
    · rw [set_of_ne _ _ same, set_of_ne _ _ same]
      exact h i hi (by simp [same, hbs])

/-- A later binder of an index overrides what was set before. -/
theorem bind_set_of_mem {v : Int} (h : i ∈ bs.map Prod.fst) : (ρ.set i v).bind bs vs = ρ.bind bs vs := by
  funext j
  have agree : Agree [j] ((ρ.set i v).bind bs vs) (ρ.bind bs vs) := Agree.bind vs fun k _ out => set_of_ne ρ v fun same => out (same ▸ h)
  exact agree j (by simp)

/-! ## Running -/

theorem ranging_cons_of_mem (h : b.1 ∈ bs.map Prod.fst) : ρ.ranging (b :: bs) = ρ.ranging bs := by
  have : bs.any (fun c => c.1 == b.1) = true := by
    obtain ⟨c, hc, hcb⟩ := mem_map.1 h
    exact any_eq_true.2 ⟨c, hc, by simp [hcb]⟩
  rw [ranging, if_pos this]

theorem ranging_cons_of_not_mem (h : b.1 ∉ bs.map Prod.fst) :
    ρ.ranging (b :: bs) = (List.range b.2.toNat).flatMap fun (n : Nat) => (ρ.set b.1 (n : Int)).ranging bs := by
  have : ¬ bs.any (fun c => c.1 == b.1) = true := by
    intro hany
    obtain ⟨c, hc, hcb⟩ := any_eq_true.1 hany
    exact h (mem_map.2 ⟨c, hc, by simpa using hcb⟩)
  rw [ranging, if_neg this]

/-- Running binders over their extents binds them at the same positions in each valuation. -/
theorem exists_ranging_eq (bs : List Binder) : ∃ ps : List (List Int), ∀ ρ : Valuation, ρ.ranging bs = ps.map (ρ.bind bs) := by
  induction bs with
  | nil => exact ⟨[[]], fun ρ => rfl⟩
  | cons b bs ih =>
    obtain ⟨ps, ranging⟩ := ih
    by_cases again : b.1 ∈ bs.map Prod.fst
    · refine ⟨ps.map (0 :: ·), fun ρ => ?_⟩
      rw [ranging_cons_of_mem again, ranging, map_map]
      exact map_congr_left fun vs _ => (bind_set_of_mem again).symm
    · refine ⟨(List.range b.2.toNat).flatMap fun (n : Nat) => ps.map ((n : Int) :: ·), fun ρ => ?_⟩
      rw [ranging_cons_of_not_mem again, map_flatMap]
      refine flatMap_congr fun n _ => ?_
      rw [ranging, map_map]
      rfl

/-- An index that is not bound stays where it is. -/
theorem eq_of_mem_ranging (h : ρ' ∈ ρ.ranging bs) (hi : i ∉ bs.map Prod.fst) : ρ' i = ρ i := by
  obtain ⟨ps, ranging⟩ := exists_ranging_eq bs
  rw [ranging] at h
  obtain ⟨vs, -, rfl⟩ := mem_map.1 h
  exact bind_of_not_mem hi

theorem ranging_append (ρ : Valuation) (h : ∀ b ∈ bs, b.1 ∉ cs.map Prod.fst) :
    ρ.ranging (bs ++ cs) = (ρ.ranging bs).flatMap fun ρ' => ρ'.ranging cs := by
  induction bs generalizing ρ with
  | nil => simp [ranging]
  | cons b bs ih =>
    have tail : ∀ b ∈ bs, b.1 ∉ cs.map Prod.fst := fun c hc => h c (mem_cons_of_mem _ hc)
    have head : b.1 ∉ cs.map Prod.fst := h b mem_cons_self
    rw [cons_append]
    by_cases hb : b.1 ∈ bs.map Prod.fst
    · rw [ranging_cons_of_mem hb, ranging_cons_of_mem (by simp [mem_map.1 hb]), ih ρ tail]
    · rw [ranging_cons_of_not_mem hb, ranging_cons_of_not_mem (by rw [map_append, mem_append]; tauto),
        flatMap_assoc]
      simp only [ih _ tail]

/-- The valuations over which indices run: others stay, and the positions are in range. -/
theorem mem_ranging : ρ' ∈ ρ.ranging (bindersOf size is) ↔ (∀ i, i ∉ is → ρ' i = ρ i) ∧ InRange size is ρ' := by
  induction is generalizing ρ with
  | nil =>
    simp only [bindersOf, map_nil, ranging, mem_singleton, InRange, not_mem_nil, not_false_eq_true,
      true_implies, false_implies, implies_true, and_true]
    exact funext_iff
  | cons i is ih =>
    change ρ' ∈ ρ.ranging ((i, (size i : Int)) :: bindersOf size is) ↔ _
    by_cases hi : i ∈ is
    · rw [ranging_cons_of_mem (by simpa using hi), ih]
      constructor
      · rintro ⟨out, range⟩
        refine ⟨fun j hj => out j (fun h => hj (mem_cons_of_mem _ h)), fun j hj => range j ?_⟩
        rcases mem_cons.1 hj with rfl | hj
        · exact hi
        · exact hj
      · rintro ⟨out, range⟩
        refine ⟨fun j hj => out j ?_, fun j hj => range j (mem_cons_of_mem _ hj)⟩
        rw [mem_cons, not_or]
        exact ⟨fun h => hj (h ▸ hi), hj⟩
    · rw [ranging_cons_of_not_mem (by simpa using hi), mem_flatMap]
      simp only [mem_range, Int.toNat_natCast, ih]
      constructor
      · rintro ⟨n, hn, out, range⟩
        have here : ρ' i = n := by rw [out i hi, set_self]
        refine ⟨fun j hj => ?_, fun j hj => ?_⟩
        · rw [mem_cons, not_or] at hj
          rw [out j hj.2, set_of_ne ρ _ hj.1]
        · rcases mem_cons.1 hj with rfl | hj
          · rw [here]
            omega
          · exact range j hj
      · rintro ⟨out, range⟩
        have here := range i mem_cons_self
        refine ⟨(ρ' i).toNat, by omega, fun j hj => ?_, fun j hj => range j (mem_cons_of_mem _ hj)⟩
        by_cases same : j = i
        · subst same
          rw [set_self]
          omega
        · rw [set_of_ne ρ _ same]
          exact out j (by simp [same, hj])

theorem nodup_ranging (ρ : Valuation) (size : Index → Nat) (is : List Index) : (ρ.ranging (bindersOf size is)).Nodup := by
  induction is generalizing ρ with
  | nil => simp [bindersOf, ranging]
  | cons i is ih =>
    change (ρ.ranging ((i, (size i : Int)) :: bindersOf size is)).Nodup
    by_cases hi : i ∈ is
    · rw [ranging_cons_of_mem (by simpa using hi)]
      exact ih ρ
    · rw [ranging_cons_of_not_mem (by simpa using hi), nodup_flatMap]
      refine ⟨fun n _ => ih _, nodup_range.imp fun {m n} hmn => ?_⟩
      -- the position of the index tells the parts apart
      intro σ hm hn
      have atm := eq_of_mem_ranging (i := i) hm (by simpa using hi)
      have atn := eq_of_mem_ranging (i := i) hn (by simpa using hi)
      rw [set_self] at atm atn
      omega

/-- The valuations depend on the set of the indices alone. -/
theorem ranging_perm (ρ : Valuation) (h : ∀ i, i ∈ is ↔ i ∈ js) :
    (ρ.ranging (bindersOf size is)).Perm (ρ.ranging (bindersOf size js)) := by
  rw [perm_ext_iff_of_nodup (nodup_ranging ρ size is) (nodup_ranging ρ size js)]
  intro σ
  simp only [mem_ranging, InRange, h]

/-- Running over indices is running over some of them and then over the others. -/
theorem ranging_split (js ks : List Index) (ρ : Valuation) (h : ∀ i, i ∈ is ↔ i ∈ js ∨ i ∈ ks) (disjoint : ∀ i ∈ js, i ∉ ks) :
    (ρ.ranging (bindersOf size is)).Perm ((ρ.ranging (bindersOf size js)).flatMap fun σ => σ.ranging (bindersOf size ks)) := by
  have apart : ∀ b ∈ bindersOf size js, b.1 ∉ (bindersOf size ks).map Prod.fst := by
    intro b hb
    obtain ⟨i, hi, rfl⟩ := mem_map.1 hb
    rw [map_fst_bindersOf]
    exact disjoint i hi
  rw [← ranging_append ρ apart, ← bindersOf_append]
  exact ranging_perm ρ fun i => by rw [h, mem_append]

/-- Indices with one position each run over the one valuation in which they stand there. -/
theorem ranging_ones (ones : ∀ b ∈ bs, b.2 = 1) (ρ : Valuation) : ρ.ranging bs = [ρ.bind bs (bs.map fun _ => 0)] := by
  induction bs generalizing ρ with
  | nil => rfl
  | cons b bs ih =>
    obtain ⟨one, ones⟩ := forall_mem_cons.1 ones
    by_cases again : b.1 ∈ bs.map Prod.fst
    · rw [ranging_cons_of_mem again, ih ones]
      exact congrArg (fun σ => [σ]) (bind_set_of_mem again).symm
    · rw [ranging_cons_of_not_mem again, one, show List.range (Int.toNat 1) = [0] from rfl, flatMap_singleton]
      exact ih ones _

/-- Distinct binders run over the tuples of their positions. -/
theorem ranging_eq_tuples (ρ : Valuation) (distinct : (bs.map Prod.fst).Nodup) :
    ρ.ranging bs = (tuples (bs.map fun b => b.2.toNat)).map fun ps => ρ.bind bs (ps.map Int.ofNat) := by
  induction bs generalizing ρ with
  | nil => rfl
  | cons b bs ih =>
    obtain ⟨out, distinct⟩ := nodup_cons.1 distinct
    rw [ranging_cons_of_not_mem out, map_cons, tuples, map_flatMap]
    refine flatMap_congr fun n _ => ?_
    rw [ih _ distinct, map_map]
    rfl

/-- Distinct binders that take the same positions have the same place for the same position. -/
theorem bind_eq_bind (hb : (bs.map Prod.fst).Nodup) (hc : (cs.map Prod.fst).Nodup) (vs : List Int) {p : Index × Index}
    (hp : p ∈ (bs.map Prod.fst).zip (cs.map Prod.fst)) :
    ρ.bind bs vs p.1 = ρ'.bind cs vs p.2 := by
  induction bs generalizing cs vs ρ ρ' with
  | nil => cases hp
  | cons b bs ih =>
    cases cs with
    | nil => cases hp
    | cons c cs =>
      obtain ⟨outb, hb⟩ := nodup_cons.1 hb
      obtain ⟨outc, hc⟩ := nodup_cons.1 hc
      rw [bind, bind]
      rcases mem_cons.1 hp with rfl | hp
      · rw [bind_of_not_mem outb, bind_of_not_mem outc, set_self, set_self]
      · exact ih hb hc vs.tail hp

/-- Binders of the same extents under other names run over the same positions, one after the other. -/
theorem ranging_renamed (ρ : Valuation) (hb : (bs.map Prod.fst).Nodup) (hc : (cs.map Prod.fst).Nodup)
    (extents : bs.map Prod.snd = cs.map Prod.snd) :
    Forall₂ (fun σ τ : Valuation => (∀ p ∈ (bs.map Prod.fst).zip (cs.map Prod.fst), σ p.1 = τ p.2) ∧
      (∀ i ∉ bs.map Prod.fst, σ i = ρ i) ∧ ∀ i ∉ cs.map Prod.fst, τ i = ρ i) (ρ.ranging bs) (ρ.ranging cs) := by
  have sizes : (bs.map fun b => b.2.toNat) = cs.map fun c => c.2.toNat := by
    simpa only [map_map, Function.comp_def] using congrArg (List.map Int.toNat) extents
  rw [ranging_eq_tuples ρ hb, ranging_eq_tuples ρ hc, sizes, forall₂_map_left_iff, forall₂_map_right_iff]
  refine forall₂_same.2 fun ps _ => ⟨fun p hp => bind_eq_bind hb hc _ hp, fun i hi => ?_, fun i hi => ?_⟩
  · exact bind_of_not_mem hi
  · exact bind_of_not_mem hi

/-! ## Sums -/

section Sums

variable {K : Type} [AddCommMonoid K] {size : Index → Nat}

variable {is : List Index} {σ : Valuation}

/-- A sum over indices is a sum over some of them of sums over the others. -/
theorem sum_ranging_split (js ks : List Index) (ρ : Valuation) (g : Valuation → K)
    (h : ∀ i, i ∈ is ↔ i ∈ js ∨ i ∈ ks) (disjoint : ∀ i ∈ js, i ∉ ks) :
    ((ρ.ranging (bindersOf size is)).map g).sum =
      ((ρ.ranging (bindersOf size js)).map fun σ => ((σ.ranging (bindersOf size ks)).map g).sum).sum := by
  rw [((ranging_split js ks ρ h disjoint).map g).sum_eq, map_flatMap, flatMap_def, sum_flatten, map_map]
  rfl

/-- The valuation that puts some indices where another has them. -/
def patch (ρ σ : Valuation) (is : List Index) : Valuation := fun i => if i ∈ is then σ i else ρ i

theorem patch_agree (ρ σ : Valuation) (is : List Index) : Agree is (ρ.patch σ is) σ := fun i hi => by
  simp [patch, hi]

theorem patch_mem_ranging (ρ : Valuation) (range : InRange size is σ) : ρ.patch σ is ∈ ρ.ranging (bindersOf size is) :=
  mem_ranging.2 ⟨fun i hi => by simp [patch, hi], fun i hi => by simpa [patch, hi] using range i hi⟩

/-- Exactly one of the valuations over which indices run has them at given positions in range. -/
theorem sum_ranging_eq_at (ρ : Valuation) (range : InRange size is σ) (g : Valuation → K) :
    ((ρ.ranging (bindersOf size is)).map fun τ => if Agree is τ σ then g τ else 0).sum = g (ρ.patch σ is) := by
  classical
  have only : ∀ τ, τ ≠ ρ.patch σ is → τ ∈ ρ.ranging (bindersOf size is) → (if Agree is τ σ then g τ else 0) = 0 := by
    intro τ other hτ
    refine if_neg fun same => other (funext fun i => ?_)
    by_cases hi : i ∈ is
    · simpa [patch, hi] using same i hi
    · simpa [patch, hi] using (mem_ranging.1 hτ).1 i hi
  rw [sum_map_eq_nsmul_single _ _ only, count_eq_one_of_mem (nodup_ranging ρ size is) (patch_mem_ranging ρ range), one_nsmul,
    if_pos (patch_agree ρ σ is)]

end Sums

end Valuation

end FormCompiler
