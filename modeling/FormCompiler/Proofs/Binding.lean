import FormCompiler.Proofs.Success

/-!
# What constructors of tensors make

The constructors that bind indices, and those that put tensors together from parts. Sums over one position are carried
out where they are made.
-/

namespace FormCompiler

open FormCompiler.Expr List

/-- Binders with the extents of their indices. -/
structure Bounds (extent : Index → Extent) (bs : List Binder) : Prop where
  extent {b : Binder} : b ∈ bs → extent b.1 = some b.2
  pos {b : Binder} : b ∈ bs → 0 < b.2

namespace Bounds

variable {extent : Index → Extent} {bs : List Binder}

theorem sublist {cs : List Binder} (h : Bounds extent bs) (sub : cs ⊆ bs) : Bounds extent cs :=
  ⟨fun hb => h.extent (sub hb), fun hb => h.pos (sub hb)⟩

/-- The number of positions of an index. -/
def sizes (extent : Index → Extent) (i : Index) : Nat := ((extent i).getD 0).toNat

theorem eq_bindersOf (h : Bounds extent bs) : bs = bindersOf (sizes extent) (bs.map Prod.fst) := by
  rw [bindersOf, map_map]
  refine ((map_congr_left fun b hb => ?_).trans (map_id bs)).symm
  have := h.pos hb
  simp only [Function.comp_apply, sizes, h.extent hb, Option.getD_some, id_eq]
  exact Prod.ext rfl (by simp; omega)

theorem mapM_extent (h : Bounds extent bs) : (bs.map Prod.fst).map extent = bs.map fun b => some b.2 := by
  rw [map_map]
  exact map_congr_left fun b hb => h.extent hb

end Bounds

variable {K : Type} [Scalar K] [Field K] [Exact K]

namespace Build

variable {w : Index → Prop} {extent : Index → Extent} {body : Expr K} {bs : List Binder}

/-! ## Tensors over indices -/

omit [Scalar K] [Field K] [Exact K] in
theorem succeeds_runningIndices (is : List Index) :
    Succeeds extent (runningIndices (is.map (Slot.free (α := Expr K)))) fun js => js = is := by
  unfold runningIndices
  rw [mapM_map]
  refine (succeeds_mapM (S := fun i j => j = i) fun i _ => succeeds_pure rfl).mono fun js h => ?_
  exact (forall₂_eq_eq_eq ▸ h.flip.imp fun _ _ => id : js = is)

/-- A tensor over no index is its body, one of zeros is zero, and any other one is made as it was asked for. -/
inductive TensorOver (body : Expr K) (bs : List Binder) : Expr K → Prop where
  | body : bs = [] → TensorOver body bs body
  | zero : body.isZero = true → TensorOver body bs (.zero (bs.map fun b => some b.2))
  | node : bs ≠ [] → (∀ b ∈ bs, b.1 ∈ body.freeIndices) → TensorOver body bs (.componentTensor body bs)

omit [Field K] [Exact K] [Scalar K] in
theorem ensures_tensorOver_cases (bounds : Bounds extent bs) :
    Ensures extent (tensorOver body (bs.map Prod.fst)) fun t => body.shape = [] ∧ TensorOver body bs t := by
  unfold tensorOver componentTensor
  refine ensures_requireScalar.bind fun _ scalar => ?_
  refine ensures_ite (fun none => ensures_pure ⟨scalar, .body (by simpa using none)⟩) fun nonempty => ?_
  refine (succeeds_runningIndices _).ensures.bind fun is his => ?_
  subst his
  refine (ensures_mapM (S := fun i n => n = extent i) fun i _ => ensures_extent).bind fun shape hshape => ?_
  obtain rfl : shape = bs.map fun b => some b.2 := by
    rw [← bounds.mapM_extent, ← forall₂_eq_eq_eq, forall₂_map_right_iff]
    exact hshape.flip
  refine ensures_require.bind fun _ _ => ?_
  refine ensures_ite (fun zero => ensures_pure ⟨scalar, .zero zero⟩) fun _ => ?_
  refine ensures_require.bind fun _ free => ensures_pure ⟨scalar, ?_⟩
  have same : (bs.map Prod.fst).zip ((bs.map fun b => some b.2).filterMap id) = bs := by
    rw [filterMap_map, show (id ∘ fun b : Binder => some b.2) = some ∘ Prod.snd from rfl, filterMap_eq_map,
      ← unzip_fst, ← unzip_snd, zip_unzip]
  rw [same]
  exact .node (by simpa using nonempty) fun b hb => Indices.subset_iff.1 free (mem_map_of_mem hb)

omit [Exact K] in
theorem ensures_tensorOver (hb : WellFormed extent body) (bounds : Bounds extent bs) :
    Ensures extent (tensorOver body (bs.map Prod.fst)) (Refines w extent (.componentTensor body bs)) := by
  refine (ensures_tensorOver_cases bounds).mono fun t ht => ?_
  obtain ⟨scalar, ht⟩ := ht
  cases ht with
  | body none =>
    subst none
    refine .ofScalar rfl hb scalar (fun i hi => mem_freeIndices_componentTensor.2 ⟨hi, by simp⟩)
      (.child mem_cons_self) fun env ρ defined => ?_
    exact ⟨defined_componentTensor.1 defined, (value_componentTensor env ρ [] body []).symm⟩
  | zero zero =>
    obtain ⟨shape, rfl⟩ := isZero_iff.1 zero
    refine ⟨wellFormed_leaf trivial rfl, rfl, by simp [freeIndices], .leaf rfl _, fun env ρ idx _ _ => ?_⟩
    exact ⟨by simp [Defined], by rw [value_zero, value_componentTensor, value_zero]⟩
  | node nonempty free =>
    refine .refl (wellFormed_node ⟨scalar, nonempty, fun {b} hb => free b hb, bounds.extent, bounds.pos⟩ ?_ rfl)
    simpa [children] using hb

omit [Scalar K] [Field K] [Exact K] in
/-- A tensor over indices that are free in its scalar body, and that have positions, is made. -/
theorem succeeds_tensorOver (scalar : body.shape = []) (bounds : Bounds extent bs) (free : ∀ b ∈ bs, b.1 ∈ body.freeIndices) :
    Succeeds extent (tensorOver body (bs.map Prod.fst)) (TensorOver body bs) := by
  refine Succeeds.mono (Q := fun t => True ∧ body.shape = [] ∧ TensorOver body bs t)
    (Succeeds.and ?_ (ensures_tensorOver_cases bounds)) fun _ h => h.2.2
  unfold tensorOver componentTensor
  refine (succeeds_requireScalar scalar).bind fun _ _ => succeeds_ite (fun _ => succeeds_pure trivial) fun _ => ?_
  refine (succeeds_runningIndices _).bind fun is his => ?_
  subst his
  refine (succeeds_mapM (S := fun i n => n = extent i) fun i _ => succeeds_extent).bind fun shape hshape => ?_
  obtain rfl : shape = bs.map fun b => some b.2 := by
    rw [← bounds.mapM_extent, ← forall₂_eq_eq_eq, forall₂_map_right_iff]
    exact hshape.flip
  have full : Shape.hasOpenOrEmpty (bs.map fun b => some b.2) = false := by
    rw [Shape.hasOpenOrEmpty, any_map, any_eq_false]
    intro b hb
    have := bounds.pos hb
    simp only [Function.comp_apply, Bool.or_eq_true, beq_iff_eq, reduceCtorEq, Option.some.injEq, false_or]
    omega
  refine (succeeds_require (by rw [full]; rfl)).bind fun _ _ => succeeds_ite (fun _ => succeeds_pure trivial) fun _ => ?_
  refine (succeeds_require (Indices.subset_iff.2 fun i hi => ?_)).bind fun _ _ => succeeds_pure trivial
  obtain ⟨b, hb, rfl⟩ := mem_map.1 hi
  exact free b hb

/-! ## Sums over indices -/

omit [Exact K] in
/-- Carrying out the sums over one position is setting their indices to it. -/
theorem ensures_fixZero (hb : WellFormed extent body) (nonzero : ¬ body.isZero = true) (bounds : Bounds extent bs) (nonempty : bs ≠ []) :
    Ensures extent (do indexed (← tensorOver body (bs.map Prod.fst)) (bs.map fun _ => .fixed 0))
      (Replaces w extent (.indexed (.componentTensor body bs) (bs.map fun _ => .fixed 0))) := by
  have dims : Forall₂ (SlotFits extent) (bs.map fun _ => (.fixed 0 : Slot (Expr K))) (bs.map fun b => some b.2) := by
    rw [forall₂_map_left_iff, forall₂_map_right_iff]
    exact forall₂_same.2 fun _ _ => trivial
  have some : (bs.map fun _ => (.fixed 0 : Slot (Expr K))) ≠ [] := by simpa using nonempty
  refine (ensures_tensorOver_cases bounds).bind fun t ht => ?_
  obtain ⟨scalar, ht⟩ := ht
  cases ht with
  | body none => exact absurd none nonempty
  | zero zero => exact absurd zero nonzero
  | node _ free =>
    refine (succeeds_componentEntry some dims).ensures.mono fun r hr => ?_
    subst hr
    refine .refl (wellFormed_indexed ?_ ⟨dims, fun h => ?_⟩ some)
    · exact wellFormed_node ⟨scalar, nonempty, fun {b} hb => free b hb, bounds.extent, bounds.pos⟩ (forall_mem_singleton.2 hb) rfl
    · obtain ⟨b, -, eq⟩ := mem_map.1 h
      cases eq

/-- The binders with one position. -/
def singles (bs : List Binder) : List Binder := bs.filter fun b => b.2 ≤ 1

/-- The binders that have none of those indices. -/
def others (bs : List Binder) : List Binder := bs.filter fun b => !((singles bs).map Prod.fst).contains b.1

/-- Running over binders is running over those with more positions, the others standing at their one position. -/
theorem ranging_singles (bounds : Bounds extent bs) (ρ : Valuation) :
    (ρ.ranging bs).Perm ((ρ.ranging (others bs)).map fun σ => σ.bind (singles bs) ((singles bs).map fun _ => 0)) := by
  have single : Bounds extent (singles bs) := bounds.sublist filter_sublist.subset
  have other : Bounds extent (others bs) := bounds.sublist filter_sublist.subset
  have ones : ∀ b ∈ singles bs, b.2 = 1 := fun b hb => by
    have := single.pos hb
    have := of_decide_eq_true (mem_filter.1 hb).2
    omega
  have split := @Valuation.ranging_split (bs.map Prod.fst) (Bounds.sizes extent) ((others bs).map Prod.fst)
    ((singles bs).map Prod.fst) ρ (fun i => ?_) fun i hi => ?_
  · rw [← bounds.eq_bindersOf, ← other.eq_bindersOf, ← single.eq_bindersOf] at split
    simpa only [Valuation.ranging_ones ones, ← map_eq_flatMap] using split
  · constructor
    · intro hi
      by_cases alone : i ∈ (singles bs).map Prod.fst
      · exact .inr alone
      · obtain ⟨b, hb, rfl⟩ := mem_map.1 hi
        exact .inl (mem_map_of_mem (mem_filter.2 ⟨hb, by simpa using alone⟩))
    · rintro (hi | hi)
      · exact (filter_sublist.map _).subset hi
      · exact (filter_sublist.map _).subset hi
  · obtain ⟨b, hb, rfl⟩ := mem_map.1 hi
    simpa using (mem_filter.1 hb).2

variable {s : Expr K} {entries : List (Expr K)} {shape : List Nat}

omit [Exact K] in
/-- A sum is the sum over the binders with more positions of what stands for the body at the one position of the
others. -/
theorem replaces_others (bounds : Bounds extent bs) {r : Expr K}
    (hs : Replaces w extent (.indexed (.componentTensor body (singles bs)) ((singles bs).map fun _ => .fixed 0)) s)
    (hr : Replaces w extent (.indexSum s (others bs)) r) : Replaces w extent (.indexSum body bs) r := by
  have perm := ranging_singles bounds
  have positions : ∀ (env : Environment K) (σ : Valuation),
      ((singles bs).map fun _ => (.fixed 0 : Slot (Expr K))).map (Expr.position env σ) = (singles bs).map fun _ => 0 := fun env σ => by
    rw [map_map]
    rfl
  have total : ∀ (env : Environment K) (ρ : Valuation) (idx : List Int),
      Expr.value env (.indexSum s (others bs)) ρ idx = Expr.value env (.indexSum body bs) ρ idx := fun env ρ idx => by
    rw [Expr.value_indexSum, Expr.value_indexSum, ((perm ρ).map _).sum_eq, map_map]
    refine congrArg List.sum (map_congr_left fun σ _ => ?_)
    rw [hs.value, Expr.value_indexed, Expr.value_componentTensor, positions, Function.comp_apply]
  refine ⟨hr.follow rfl (fun i hi => ?_) ?_ fun env ρ idx _ defined => ?_, fun env ρ => (hr.value env ρ).trans (total env ρ [])⟩
  · obtain ⟨hi, out⟩ := Expr.mem_freeIndices_indexSum.1 hi
    rcases Expr.mem_freeIndices_indexed.1 (hs.free hi) with slot | hi
    · simp at slot
    · obtain ⟨hi, alone⟩ := Expr.mem_freeIndices_componentTensor.1 hi
      refine Expr.mem_freeIndices_indexSum.2 ⟨hi, fun mem => out ?_⟩
      obtain ⟨b, hb, rfl⟩ := mem_map.1 mem
      exact mem_map_of_mem (mem_filter.2 ⟨hb, by simpa using alone⟩)
  · refine (hs.simpler.trans .entry).indexSum filter_sublist filter_sublist fun i hi => ?_
    obtain ⟨b, hb, rfl⟩ := mem_map.1 hi
    simpa using (mem_filter.1 hb).2
  · refine ⟨Expr.defined_indexSum.2 fun σ hσ => ?_, total env ρ idx⟩
    refine ((hs.carries env σ).scalar rfl ?_).1
    rw [Expr.defined_indexed, Expr.defined_componentTensor, positions]
    exact Expr.defined_indexSum.1 defined _ ((perm ρ).mem_iff.2 (mem_map_of_mem hσ))

omit [Exact K] in
/-- Close a sum: without indices it is its body. -/
theorem ensures_closeSum (hs : WellFormed extent s) (scalar : s.shape = []) (bounds : Bounds extent bs) :
    Ensures extent (if bs.isEmpty then pure s else do
        require (Indices.subset (bs.map Prod.fst) s.freeIndices)
        pure (.indexSum s bs)) (Replaces w extent (.indexSum s bs)) := by
  refine ensures_ite (fun none => ensures_pure ?_) fun nonempty => ensures_require.bind fun _ free => ensures_pure (.refl ?_)
  · obtain rfl := isEmpty_iff.1 none
    refine ⟨.ofScalar rfl hs scalar (fun i hi => mem_freeIndices_indexSum.2 ⟨hi, by simp⟩) (.child mem_cons_self)
      fun env ρ defined => ?_, fun env ρ => by simp [Valuation.ranging]⟩
    exact ⟨defined_indexSum.1 defined ρ mem_cons_self, by simp [Valuation.ranging]⟩
  · refine wellFormed_node ⟨scalar, by simpa using nonempty, fun hb => ?_, bounds.extent, bounds.pos⟩ ?_ rfl
    · exact Indices.subset_iff.1 free (mem_map_of_mem hb)
    · simpa [children] using hs

omit [Exact K] in
theorem ensures_sumOver (hb : WellFormed extent body) (bounds : Bounds extent bs) :
    Ensures extent (sumOver body (bs.map Prod.fst)) (Replaces w extent (.indexSum body bs)) := by
  unfold sumOver indexSum
  refine ensures_requireScalar.bind fun _ scalar => ?_
  refine ensures_ite (fun zero => ensures_pure ?_) fun nonzero => ?_
  · obtain ⟨shape, rfl⟩ := isZero_iff.1 zero
    refine ⟨.ofScalar rfl hb scalar (by simp [freeIndices]) (.leaf rfl _) fun env ρ _ => ?_, fun env ρ => by simp⟩
    exact ⟨by simp [Defined], by simp⟩
  refine (Ensures.mono (Q := fun r => r = bs) ?_ fun _ => id).bind fun r hr => ?_
  · rw [map_map, mapM_map]
    refine (ensures_mapM (S := fun b c => c = b) fun b hb => ?_).mono fun cs h => ?_
    · refine ensures_knownExtent.bind fun n hn => ensures_pure (Prod.ext rfl ?_)
      exact Option.some.inj (hn.symm.trans (bounds.extent hb))
    · exact (forall₂_eq_eq_eq ▸ h.flip.imp fun _ _ => id : cs = bs)
  subst hr
  refine ensures_ite (fun some => ?_) fun none => ?_
  · have single : Bounds extent (singles r) := bounds.sublist filter_sublist.subset
    refine ensures_require.bind fun _ _ => ?_
    have fixed := ensures_fixZero (w := w) hb nonzero single (by simpa [singles] using some)
    have := fixed.bind fun s hs => (ensures_closeSum hs.fits hs.shape
      (bounds.sublist filter_sublist.subset : Bounds extent (others r))).mono fun c hc => replaces_others bounds hs hc
    rwa [bind_assoc] at this
  · exact ensures_closeSum hb scalar bounds

/-! ## Tensors from parts -/

/-- The entries of a table of numbers that are the values of expressions. -/
theorem entry_of_values {env : Environment K} {ρ : Valuation} {xs : List K}
    (h : Forall₂ (fun e x => Expr.value env e ρ [] = x) entries xs) (shape : List Nat) (idx : List Int) :
    (Tensor.mk shape xs.toArray).entry idx = Expr.value env (.listTensor shape entries) ρ idx := by
  rw [Expr.value_listTensor, Expr.entryAt, Tensor.entry]
  cases Tensor.resolveAll shape idx with
  | none => exact Exact.zero_eq
  | some p =>
    change (Tensor.mk shape xs.toArray).get p = _
    rw [Option.bind_some, Tensor.get, Array.getD_eq_getD_getElem?, List.getElem?_toArray]
    rcases getElem?_of_forall₂ h (position shape p) with ⟨he, hx⟩ | ⟨e, x, he, hx, same⟩
    · rw [he, hx]
      exact Exact.zero_eq
    · rw [he, hx]
      exact same.symm

/-- Close a list of scalars: constants are put into a table. -/
theorem ensures_closeList (h : ∀ e ∈ entries, WellFormed extent e)
    (scalars : ∀ e ∈ entries, e.shape = []) (length : entries.length = count shape) :
    Ensures extent (do
        if entries.isEmpty then throw .malformed
        if entries.all isConstant then literal ⟨shape, (← entries.mapM Build.value).toArray⟩
        else return .listTensor shape entries) (Refines w extent (.listTensor shape entries)) := by
  refine ensures_ite (fun _ => ensures_throw) fun _ => ensures_ite (fun _ => ?_) fun _ => ?_
  · refine (ensures_mapM fun e he => ensures_value (scalars e he)).bind fun xs hxs => ?_
    refine (ensures_literal (w := w) _ 0).mono fun r hr => hr.follow rfl (by simp [freeIndices]) (.leaf rfl _) fun env ρ idx _ _ => ?_
    refine ⟨by simp [Defined], ?_⟩
    rw [value_literal]
    exact entry_of_values (hxs.imp fun e x same => same env ρ) shape idx
  · exact ensures_pure (.refl (wellFormed_node ⟨length, scalars⟩ h rfl))

theorem ensures_listTensor (h : ∀ e ∈ entries, WellFormed extent e)
    (scalars : ∀ e ∈ entries, e.shape = []) (length : entries.length = count shape) :
    Ensures extent (listTensor shape entries) (Refines w extent (.listTensor shape entries)) := by
  unfold listTensor
  refine ensures_require.bind fun _ _ => ?_
  cases entries with
  | nil => exact ensures_throw
  | cons first rest =>
    have scalar : first.shape = [] := scalars first mem_cons_self
    refine ensures_require.bind fun _ _ => ?_
    simp only [scalar, isEmpty_nil, if_true, pure_bind]
    exact ensures_closeList h scalars length

omit [Exact K] in
theorem ensures_concatenate {ps : List (Expr K)} (h : ∀ p ∈ ps, WellFormed extent p)
    (known : ∀ p ∈ ps, (Shape.toNats? p.shape).isSome) :
    Ensures extent (concatenate ps) (Refines w extent (.concatenate ps)) := by
  unfold concatenate
  refine ensures_ite (fun zeros => ?_) fun _ => ensures_pure (.refl (wellFormed_node known h rfl))
  cases size : totalSize (shapes ps) with
  | none => exact ensures_throw
  | some n =>
    refine ensures_pure ⟨wellFormed_leaf trivial rfl, by simp [Expr.shape, size], by simp [freeIndices], .leaf rfl _,
      fun env ρ idx _ _ => ⟨by simp [Defined], ?_⟩⟩
    rw [value_zero, value_concatenate]
    cases part : partAt ps idx with
    | none => rfl
    | some p =>
      obtain ⟨shape, zero⟩ := isZero_iff.1 (all_eq_true.1 zeros p.1 (mem_of_partAt part))
      simp only [zero, value_zero]

theorem ensures_delta {i j : Slot (Expr K)} (fits : SlotsFit extent [i, j] [none, none]) :
    Ensures extent (delta i j) (Refines w extent (.delta i j)) := by
  have raw : Refines w extent (.delta i j) (.delta i j) := by
    obtain _ | ⟨hi, _ | ⟨hj, _ | _⟩⟩ := fits.dims
    refine .refl (.node ⟨hi, hj⟩ fun r hr => fits.runtime ?_)
    rcases mem_runtimeSlots_delta.1 (by simpa [parts, children] using hr) with rfl | rfl <;> simp
  unfold delta
  refine ensures_ite (fun same => ensures_pure ?_) fun differ => ?_
  · obtain rfl := eq_of_beq same
    refine .ofScalar rfl (wellFormed_leaf trivial rfl) rfl (by simp [one, freeIndices]) (.leaf rfl _) fun env ρ _ => ?_
    exact ⟨by simp [one, Defined], by rw [value_one, value_delta, if_pos rfl]⟩
  split
  · rename_i m n
    refine ensures_pure (.ofScalar rfl (wellFormed_leaf trivial rfl) rfl (by simp [zero, freeIndices]) (.leaf rfl _)
      fun env ρ _ => ?_)
    refine ⟨by simp [zero, Defined], ?_⟩
    rw [zero, value_zero, value_delta, if_neg]
    intro same
    exact differ (by simp [show m = n from same])
  · exact ensures_pure raw

/-! ## Nodes with new children -/

omit [Exact K] in
theorem ensures_sameAccess (name : String) (shape : Shape) (dims : List DimAccess) :
    Ensures extent (access (.var name shape) (accessTerms dims)) (Refines w extent (.access name shape dims : Expr K)) := by
  have same : (accessTerms dims).map (gathered (K := K)) = dims := by
    simp [accessTerms, gathered, Function.comp_def, Slot.fixed?, Slot.index?]
  refine (ensures_access_dims name shape _).mono fun r hr => ?_
  rw [hr.1, same]
  exact .refl (wellFormed_access name shape dims)

/-- Building a node again with other children gives what stands for the node with those. -/
theorem ensures_reconstruct {e : Expr K} {cs : List (Expr K)} (he : WellFormed extent e)
    (h : Forall₂ (fun c c' => c'.shape = c.shape ∧ WellFormed extent c') e.children cs)
    (view : ∀ name shape dims, e = .access name shape dims → cs = e.children) :
    Ensures extent (reconstruct e cs) (Refines w extent (e.withChildren cs)) := by
  have fits := he.here
  have all : ∀ c ∈ cs, ∃ c₀ ∈ e.children, c.shape = c₀.shape ∧ WellFormed extent c := fun c hc =>
    exists_of_forall₂ h.flip hc
  cases e with
  | binary op a b =>
    obtain _ | ⟨ha, _ | ⟨hb, _ | _⟩⟩ := h
    exact ensures_binary ha.2 hb.2
  | negation a =>
    obtain _ | ⟨ha, _ | _⟩ := h
    exact ensures_negation ha.2
  | call name args => exact ensures_call fun c hc => (all c hc).elim fun _ hc => hc.2.2
  | conditional c y n =>
    obtain _ | ⟨hc, _ | ⟨hy, _ | ⟨hn, _ | _⟩⟩⟩ := h
    exact ensures_conditional hc.2 hy.2 hn.2
  | indexed t slots =>
    obtain _ | ⟨ht, _ | _⟩ := h
    exact ensures_indexed ht.2 ⟨ht.1 ▸ fits.2, fun hr => he.runtime (mem_runtimeSlots_indexed.2 hr)⟩
  | access name shape dims =>
    obtain rfl := view name shape dims rfl
    exact ensures_sameAccess name shape dims
  | componentTensor body bs =>
    obtain _ | ⟨hb, _ | _⟩ := h
    exact ensures_tensorOver hb.2 ⟨fits.extent, fits.pos⟩
  | indexSum body bs =>
    obtain _ | ⟨hb, _ | _⟩ := h
    exact (ensures_sumOver hb.2 ⟨fits.extent, fits.pos⟩).mono fun _ => Replaces.toRefines
  | listTensor shape entries =>
    refine ensures_ite (fun length => ensures_listTensor (fun c hc => ?_) (fun c hc => ?_) (eq_of_beq length)) fun _ => ensures_throw
    · obtain ⟨c₀, -, -, fits⟩ := all c hc
      exact fits
    · obtain ⟨c₀, mem, shape, -⟩ := all c hc
      rw [shape, fits.2 c₀ mem]
  | concatenate ps =>
    refine ensures_concatenate (fun c hc => ?_) fun c hc => ?_
    · obtain ⟨c₀, -, -, fits⟩ := all c hc
      exact fits
    · obtain ⟨c₀, mem, shape, -⟩ := all c hc
      rw [shape]
      exact fits c₀ mem
  | delta i j =>
    obtain _ | _ := h
    exact ensures_delta ⟨.cons fits.1 (.cons fits.2 .nil), fun hr => he.runtime (mem_runtimeSlots_delta.2 (by simpa [eq_comm] using hr))⟩
  | literal t stamp =>
    obtain _ | _ := h
    exact ensures_literal t stamp
  | _ =>
    obtain _ | _ := h
    exact ensures_pure (.refl he)

end Build

end FormCompiler
