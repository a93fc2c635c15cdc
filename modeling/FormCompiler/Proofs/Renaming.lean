import FormCompiler.Proofs.Naming

/-!
# Expressions under new names

An expression under new names is read with each index at the position of its name. Renaming the indices of a sum does not
change it, as long as no name is one of an index that is free in the sum.
-/

namespace FormCompiler

open FormCompiler.Expr List Build

namespace Rewrite

/-! ## Names of indices -/

/-- The name of an index. -/
def renamed (names : List (Index × Index)) (i : Index) : Index := ((names.find? fun p => p.1 == i).map Prod.snd).getD i

section Names

variable {names : List (Index × Index)} {i j : Index}

theorem renamed_cons (p : Index × Index) (names : List (Index × Index)) (i : Index) :
    renamed (p :: names) i = if p.1 = i then p.2 else renamed names i := by
  rw [renamed, List.find?_cons]
  by_cases same : p.1 = i
  · simp [same]
  · have differ : (p.1 == i) = false := by simpa using same
    rw [differ, if_neg same]
    rfl

theorem renamed_of_not_mem (h : i ∉ names.map Prod.fst) : renamed names i = i := by
  induction names with
  | nil => rfl
  | cons p names ih =>
    rw [map_cons, mem_cons, not_or] at h
    rw [renamed_cons, if_neg (Ne.symm h.1), ih h.2]

theorem renamed_of_mem (once : (names.map Prod.fst).Nodup) (h : (i, j) ∈ names) : renamed names i = j := by
  induction names with
  | nil => cases h
  | cons p names ih =>
    obtain ⟨out, once⟩ := nodup_cons.1 once
    rw [renamed_cons]
    rcases mem_cons.1 h with rfl | h
    · exact if_pos rfl
    · rw [if_neg, ih once h]
      rintro rfl
      exact out (mem_map.2 ⟨_, h, rfl⟩)

/-- An index that has a name has it in the list, or stands for itself. -/
theorem renamed_mem (i : Index) : (i, renamed names i) ∈ names ∨ renamed names i = i := by
  induction names with
  | nil => exact .inr rfl
  | cons p names ih =>
    rw [renamed_cons]
    split
    · rename_i same
      exact .inl (mem_cons.2 (.inl (Prod.ext same.symm rfl)))
    · exact ih.imp (mem_cons_of_mem _) id

variable {is js inUse : List Index} {V : Index → Prop}

theorem nodup_zip_fst (once : is.Nodup) : ((is.zip js).map Prod.fst).Nodup :=
  once.sublist (by
    induction is generalizing js with
    | nil => simp
    | cons i is ih =>
      cases js with
      | nil => simp
      | cons j js => simpa using ih (nodup_cons.1 once).2)

theorem nodup_changes (once : is.Nodup) : ((changes is js).map Prod.fst).Nodup :=
  (nodup_zip_fst once).sublist (filter_sublist.map _)

/-- The names of indices that were taken. -/
theorem renamed_changes (once : is.Nodup) (h : (i, j) ∈ is.zip js) : renamed (changes is js) i = j := by
  by_cases same : i = j
  · subst same
    refine renamed_of_not_mem fun mem => ?_
    obtain ⟨p, hp, eq⟩ := mem_map.1 mem
    obtain ⟨hp, differ⟩ := mem_filter.1 hp
    -- the list has one pair for the index
    have only := renamed_of_mem (nodup_zip_fst once) h
    rw [← eq, renamed_of_mem (nodup_zip_fst once) hp] at only
    simp [eq, only] at differ
  · exact renamed_of_mem (nodup_changes once) (mem_filter.2 ⟨h, by simpa using same⟩)

theorem mem_of_mem_changes {p : Index × Index} (h : p ∈ changes is js) : p ∈ is.zip js :=
  mem_of_mem_filter h

theorem exists_mem_zip (length : is.length = js.length) (h : i ∈ is) : ∃ j, (i, j) ∈ is.zip js := by
  have first : (is.zip js).map Prod.fst = is := map_fst_zip (Nat.le_of_eq length)
  rw [← first] at h
  obtain ⟨p, hp, rfl⟩ := mem_map.1 h
  exact ⟨p.2, hp⟩

theorem renamed_changes_of_not_mem (h : i ∉ is) : renamed (changes is js) i = i := by
  refine renamed_of_not_mem fun mem => h ?_
  obtain ⟨p, hp, rfl⟩ := mem_map.1 mem
  exact (of_mem_zip (mem_of_mem_changes hp)).1

theorem renamed_changes_ne (once : is.Nodup) (h : i ∈ (changes is js).map Prod.fst) : renamed (changes is js) i ≠ i := by
  obtain ⟨p, hp, rfl⟩ := mem_map.1 h
  rw [renamed_of_mem (nodup_changes once) hp]
  simpa using Ne.symm (by simpa using (mem_filter.1 hp).2)

/-- The name of an index that was taken: its own, or one that is not visible. -/
theorem Taken.name (taken : Taken V inUse is js) (once : is.Nodup) (h : i ∈ is) :
    renamed (changes is js) i ∈ js ∧ (renamed (changes is js) i = i ∨ ¬ V (renamed (changes is js) i)) := by
  obtain ⟨j, hp⟩ := exists_mem_zip taken.own.length_eq h
  rw [renamed_changes once hp]
  exact ⟨(of_mem_zip hp).2, forall₂_zip taken.own hp⟩

/-- The index that a name was taken for. -/
theorem Taken.origin (taken : Taken V inUse is js) (h : j ∈ js) : ∃ i, (i, j) ∈ is.zip js ∧ (j = i ∨ ¬ V j) := by
  obtain ⟨i, hp⟩ := exists_mem_zip taken.own.length_eq.symm h
  rw [← zip_swap] at hp
  obtain ⟨q, hq, eq⟩ := mem_map.1 hp
  cases eq
  exact ⟨q.1, hq, forall₂_zip taken.own hq⟩

end Names

/-! ## Renamed expressions -/

section Expressions

variable {K : Type}

/-- The names that matter to an expression. -/
def relevant (names : List (Index × Index)) (e : Expr K) : List (Index × Index) :=
  names.filter fun p => e.freeIndices.contains p.1

/-- The binders that take the place of the renamed indices. -/
def nameBinders (extent : Index → Extent) (names : List (Index × Index)) : List Binder :=
  names.map fun p => (p.1, (extent p.1).getD 0)

/-- The entry, at the names, of the tensor over the indices that are renamed. -/
def atNames (extent : Index → Extent) (names : List (Index × Index)) (e : Expr K) : Expr K :=
  if (relevant names e).isEmpty then e
  else .indexed (.componentTensor e (nameBinders extent (relevant names e))) ((relevant names e).map fun p => .free p.2)

variable {extent : Index → Extent} {names : List (Index × Index)} {e : Expr K}

theorem map_fst_nameBinders (extent : Index → Extent) (names : List (Index × Index)) :
    (nameBinders extent names).map Prod.fst = names.map Prod.fst := by
  rw [nameBinders, map_map]
  rfl

theorem mem_relevant {p : Index × Index} : p ∈ relevant names e ↔ p ∈ names ∧ p.1 ∈ e.freeIndices := by
  simp [relevant]

theorem relevant_zero (h : e.isZero = true) : relevant names e = [] := by
  obtain ⟨shape, rfl⟩ := isZero_iff.1 h
  simp [relevant, freeIndices]

variable {i : Index}

/-- The name of an index that is free is the one that matters. -/
theorem renamed_relevant (h : i ∈ e.freeIndices) : renamed (relevant names e) i = renamed names i := by
  induction names with
  | nil => rfl
  | cons p names ih =>
    rw [renamed_cons, relevant, filter_cons]
    split
    · rw [renamed_cons, ← ih]
      rfl
    · rename_i out
      rw [if_neg, ← ih]
      · rfl
      · rintro rfl
        exact out (by simpa using h)

theorem shape_atNames (scalar : e.shape = []) : (atNames extent names e).shape = [] := by
  rw [atNames]
  split
  · exact scalar
  · rfl

theorem literal_atNames {x : Tensor K} {stamp : UInt64} (h : atNames extent names e = .literal x stamp) : e = .literal x stamp := by
  rw [atNames] at h
  split at h
  · exact h
  · cases h

/-- The free indices of a renamed expression are the names of its free indices. -/
theorem mem_freeIndices_atNames (once : (names.map Prod.fst).Nodup) :
    i ∈ (atNames extent names e).freeIndices ↔ ∃ j ∈ e.freeIndices, renamed names j = i := by
  rw [atNames]
  split
  · rename_i none
    have same : ∀ j ∈ e.freeIndices, renamed names j = j := fun j hj => by
      rw [← renamed_relevant hj, isEmpty_iff.1 none]
      rfl
    constructor
    · exact fun hi => ⟨i, hi, same i hi⟩
    · rintro ⟨j, hj, rfl⟩
      rwa [same j hj]
  · rw [mem_freeIndices_indexed, mem_freeIndices_componentTensor, map_fst_nameBinders]
    constructor
    · rintro (slot | ⟨hi, out⟩)
      · obtain ⟨p, hp, eq⟩ := mem_map.1 slot
        cases eq
        obtain ⟨hp, free⟩ := mem_relevant.1 hp
        exact ⟨p.1, free, renamed_of_mem once hp⟩
      · exact ⟨i, hi, by rw [← renamed_relevant hi, renamed_of_not_mem out]⟩
    · rintro ⟨j, hj, rfl⟩
      rcases (renamed_mem j : (j, renamed names j) ∈ names ∨ renamed names j = j) with mem | same
      · exact .inl (mem_map.2 ⟨_, mem_relevant.2 ⟨mem, hj⟩, rfl⟩)
      · by_cases mem : j ∈ (relevant names e).map Prod.fst
        · obtain ⟨p, hp, rfl⟩ := mem_map.1 mem
          have := renamed_of_mem once (mem_relevant.1 hp).1
          exact .inl (mem_map.2 ⟨p, hp, by rw [this]⟩)
        · exact .inr ⟨same.symm ▸ hj, same.symm ▸ mem⟩

theorem binds_atNames (h : Binds i (atNames extent names e)) : i ∈ names.map Prod.fst ∨ Binds i e := by
  rw [atNames] at h
  split at h
  · exact .inr h
  · refine (binds_entry.1 h).imp (fun mem => ?_) id
    rw [map_fst_nameBinders] at mem
    exact (filter_sublist.map _).subset mem

variable [Scalar K] [Field K]

/-- The positions of indices under names. -/
def under (names : List (Index × Index)) (ρ : Valuation) : Valuation := fun i => ρ (renamed names i)

theorem bind_nameBinders {rel : List (Index × Index)} (once : (rel.map Prod.fst).Nodup) (ρ σ : Valuation) (i : Index) :
    σ.bind (nameBinders extent rel) (rel.map fun p => ρ p.2) i = if i ∈ rel.map Prod.fst then under rel ρ i else σ i := by
  induction rel generalizing σ with
  | nil => rfl
  | cons p rel ih =>
    obtain ⟨out, once⟩ := nodup_cons.1 once
    change Valuation.bind (σ.set p.1 (ρ p.2)) (nameBinders extent rel) (rel.map fun p => ρ p.2) i = _
    rw [ih once, under, under, renamed_cons]
    by_cases later : i ∈ rel.map Prod.fst
    · have differ : p.1 ≠ i := fun same => out (same ▸ later)
      simp [later, differ]
    · by_cases here : p.1 = i
      · subst here
        simp [later, Valuation.set_self]
      · simp [later, Valuation.set_of_ne _ _ (Ne.symm here), Ne.symm here]

omit [Scalar K] [Field K] in
/-- On the free indices the binders stand where the names stand. -/
theorem agree_nameBinders (once : (names.map Prod.fst).Nodup) (ρ : Valuation) : Valuation.Agree e.freeIndices (under names ρ)
    (ρ.bind (nameBinders extent (relevant names e)) ((relevant names e).map fun p => ρ p.2)) := by
  have once' : ((relevant names e).map Prod.fst).Nodup := once.sublist (filter_sublist.map _)
  intro i hi
  rw [bind_nameBinders once', under, under, renamed_relevant hi]
  split
  · rfl
  · rename_i out
    rw [← renamed_relevant hi, renamed_of_not_mem out]

theorem positions_names (env : Environment K) (ρ : Valuation) (names : List (Index × Index)) :
    (names.map fun p => (.free p.2 : Slot (Expr K))).map (Expr.position env ρ) = names.map fun p => ρ p.2 := by
  rw [map_map]
  rfl

/-- A renamed expression is read with each index at its name. -/
theorem value_atNames (fits : Expr.WellFormed extent e) (once : (names.map Prod.fst).Nodup) (env : Environment K) (ρ : Valuation) :
    (atNames extent names e).value env ρ [] = e.value env (under names ρ) [] := by
  have agree : Valuation.Agree e.freeIndices _ (ρ.bind (nameBinders extent _) _) := agree_nameBinders once ρ
  have same : Expr.value env e _ [] = Expr.value env e _ [] := Expr.value_congr fits.runtimeClosed [] agree
  rw [atNames]
  split
  · rename_i none
    rw [isEmpty_iff.1 none] at same
    exact same.symm
  · rw [Expr.value_indexed, Expr.value_componentTensor, positions_names]
    exact same.symm

theorem carries_atNames (fits : Expr.WellFormed extent e) (scalar : e.shape = []) (once : (names.map Prod.fst).Nodup)
    (env : Environment K) (ρ : Valuation) : Expr.Carries env (under names ρ) ρ e (atNames extent names e) := by
  intro idx entry defined
  obtain rfl : idx = [] := length_eq_zero_iff.1 (by rw [entry, scalar, length_nil])
  have agree : Valuation.Agree e.freeIndices _ (ρ.bind (nameBinders extent _) _) := agree_nameBinders once ρ
  have defined' := defined.congr fits.runtimeClosed agree
  refine ⟨?_, value_atNames fits once env ρ⟩
  rw [atNames]
  split
  · rename_i none
    rw [isEmpty_iff.1 none] at defined'
    exact defined'
  · rw [Expr.defined_indexed, Expr.defined_componentTensor, positions_names]
    exact defined'

end Expressions

/-! ## Renaming in a session -/

section Session

variable {K : Type} {s : Session}

theorem leads_setExtents {rel : List (Index × Index)} {n : Index → Int} (has : ∀ p ∈ rel, s.Has p.2) :
    Leads s (Build.setExtents (rel.map fun p => (.free p.2 : Slot (Expr K))) (rel.map fun p => some (n p.1))) fun _ s' =>
      ∀ p ∈ rel, s'.extents p.2 = some (n p.1) := by
  induction rel generalizing s with
  | nil => exact leads_pure (by simp)
  | cons p rel ih =>
    obtain ⟨here, later⟩ := forall_mem_cons.1 has
    refine Leads.bind (leads_setExtent here) fun _ s₁ grows first => ?_
    refine (ih fun q hq => grows.has (later q hq)).mono fun _ s₂ grows' rest => forall_mem_cons.2 ⟨?_, rest⟩
    exact grows'.extent first

theorem entry_of_free [Scalar K] {t : Expr K} {is : List Index} (nonempty : is ≠ []) (notZero : t.isZero = false) :
    Build.entry t (is.map .free) = pure (.indexed t (is.map .free)) := by
  cases is with
  | nil => exact absurd rfl nonempty
  | cons i is =>
    have none : (List.map Slot.free (i :: is) : List (Slot (Expr K))).mapM Slot.fixed? = none := by
      rw [map_cons, mapM_cons]
      rfl
    simp only [Build.entry, notZero, none]
    rfl

variable [Scalar K] {names : List (Index × Index)} {e : Expr K}

omit [Scalar K] in
theorem bounds_nameBinders (knows : ∀ p ∈ names, s.Knows p.1) : Bounds s.extents (nameBinders s.extents names) := by
  constructor
  · rintro b hb
    obtain ⟨p, hp, rfl⟩ := mem_map.1 hb
    obtain ⟨n, known, -⟩ := knows p hp
    simp [known]
  · rintro b hb
    obtain ⟨p, hp, rfl⟩ := mem_map.1 hb
    obtain ⟨n, known, pos⟩ := knows p hp
    simpa [known] using pos

/-- The entry at the names is made once they have the extents of the indices. -/
theorem indexedAt_names (nonempty : names ≠ []) (extent : Index → Extent) (e : Expr K) :
    Build.indexedAt (.componentTensor e (nameBinders extent names)) (names.map Prod.snd) =
      Build.setExtents (names.map fun p => (.free p.2 : Slot (Expr K))) (names.map fun p => some ((extent p.1).getD 0)) >>= fun _ =>
        pure (.indexed (.componentTensor e (nameBinders extent names)) (names.map fun p => .free p.2)) := by
  have slots : (names.map Prod.snd).map (Slot.free (α := Expr K)) = names.map fun p => .free p.2 := by
    rw [map_map]
    rfl
  have shape : (Expr.componentTensor e (nameBinders extent names)).shape = names.map fun p => some ((extent p.1).getD 0) := by
    rw [Expr.shape, nameBinders, map_map]
    rfl
  rw [Build.indexedAt, Build.indexed, entry_of_free (by simpa using nonempty) rfl, slots, shape, Build.require, if_pos (by simp),
    pure_bind]

/-- Renaming gives the entry at the names, which take the extents of the indices. -/
theorem leads_applyNames (fits : WellFormed s.extents e) (scalar : e.shape = [])
    (known : ∀ p ∈ names, p.1 ∈ e.freeIndices → s.Knows p.1 ∧ s.Has p.2) :
    Leads s (applyNames names e) fun r s' => r = atNames s.extents names e ∧ WellFormed s'.extents r ∧
      ∀ p ∈ names, p.1 ∈ e.freeIndices → s'.extents p.2 = s.extents p.1 := by
  unfold applyNames
  change Leads s (if (relevant names e).isEmpty then pure e else _) _
  rw [atNames]
  have all : ∀ p ∈ relevant names e, s.Knows p.1 ∧ s.Has p.2 := fun p hp =>
    known p (mem_relevant.1 hp).1 (mem_relevant.1 hp).2
  refine leads_ite (fun none => leads_pure ⟨(if_pos none).symm, fits, fun p hp free => ?_⟩) fun there => ?_
  · have mem := mem_relevant.2 ⟨hp, free⟩
    rw [isEmpty_iff.1 none] at mem
    cases mem
  rw [if_neg there]
  have nonempty : relevant names e ≠ [] := by simpa using there
  have bounds := bounds_nameBinders fun p hp => (all p hp).1
  change Leads s (Build.tensorOver e ((relevant names e).map Prod.fst) >>= fun t =>
    Build.indexedAt t ((relevant names e).map Prod.snd)) _
  rw [← map_fst_nameBinders s.extents]
  refine (ensures_tensorOver_cases bounds).leads.bind fun t s₁ grows made => ?_
  obtain ⟨same, -, made⟩ := made
  cases made with
  | body none => exact absurd (map_eq_nil_iff.1 none) nonempty
  | zero zero => exact absurd (relevant_zero zero) nonempty
  | node _ free =>
    have tensor : WellFormed s.extents (.componentTensor e (nameBinders s.extents (relevant names e))) :=
      wellFormed_node ⟨scalar, by simpa [nameBinders] using nonempty, fun {b} hb => free b hb, bounds.extent, bounds.pos⟩
        (by simpa [children] using fits) rfl
    rw [indexedAt_names nonempty]
    refine Leads.bind (leads_setExtents (n := fun i => (s.extents i).getD 0) fun p hp => grows.has (all p hp).2)
      fun _ s₂ grows₂ set => ?_
    refine leads_pure ⟨rfl, ?_, fun p hp free => ?_⟩
    · refine wellFormed_indexed ((grows.trans grows₂).wellFormed tensor) ⟨?_, fun h => ?_⟩ (by simpa using nonempty)
      · rw [Expr.shape, nameBinders, map_map, forall₂_map_left_iff, forall₂_map_right_iff]
        exact forall₂_same.2 fun p hp => .inr (set p hp)
      · obtain ⟨p, -, eq⟩ := mem_map.1 h
        cases eq
    · have mem := mem_relevant.2 ⟨hp, free⟩
      obtain ⟨n, size⟩ := (all p mem).1.known
      rw [set p mem, size]
      rfl

variable [Field K]

/-- An expression under names, which have the extents of the indices. -/
structure Named (names : List (Index × Index)) (s : Session) (e r : Expr K) : Prop where
  fits : WellFormed s.extents r
  shape : r.shape = []
  literal {x : Tensor K} {stamp : UInt64} : r = .literal x stamp → e = .literal x stamp
  free {i : Index} : i ∈ r.freeIndices ↔ ∃ j ∈ e.freeIndices, renamed names j = i
  value (env : Environment K) (ρ : Valuation) : r.value env ρ [] = e.value env (under names ρ) []
  carries (env : Environment K) (ρ : Valuation) : Carries env (under names ρ) ρ e r
  extent {p : Index × Index} : p ∈ names → p.1 ∈ e.freeIndices → s.Knows p.1 ∧ s.extents p.2 = s.extents p.1

theorem Named.grows {s' : Session} {r : Expr K} (h : Named names s e r) (grows : s.Grows s') : Named names s' e r := by
  refine { h with fits := grows.wellFormed h.fits, extent := fun hp free => ?_ }
  obtain ⟨knows, same⟩ := h.extent hp free
  obtain ⟨n, known, -⟩ := id knows
  exact ⟨grows.knows knows, by rw [grows.extent known, grows.extent (same.trans known)]⟩

theorem leads_named (fits : WellFormed s.extents e) (scalar : e.shape = []) (once : (names.map Prod.fst).Nodup)
    (known : ∀ p ∈ names, p.1 ∈ e.freeIndices → s.Knows p.1 ∧ s.Has p.2) :
    Leads s (applyNames names e) fun r s' => Named names s' e r := by
  refine (leads_applyNames fits scalar known).mono fun r s' grows made => ?_
  obtain ⟨rfl, fits', extents⟩ := made
  refine ⟨fits', shape_atNames scalar, literal_atNames, mem_freeIndices_atNames once, value_atNames fits once,
    carries_atNames fits scalar once, fun {p} hp free => ?_⟩
  obtain ⟨n, size, pos⟩ := (known p hp free).1
  exact ⟨grows.knows ⟨n, size, pos⟩, by rw [extents p hp free, size, grows.extent size]⟩

end Session

end Rewrite

end FormCompiler
