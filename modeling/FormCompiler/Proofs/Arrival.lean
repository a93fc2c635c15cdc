import FormCompiler.Proofs.Renaming
import FormCompiler.Proofs.Success

/-!
# Names that are always found

A computation arrives if it returns, in a session that has grown. Taking names into use always arrives: only an index that
is in use is given another name, and the names that are tried come to an end. An expression can be put under its new names
because names agree with indices in extent: there are sizes for all indices, of which the known extents are some, such that
a name has the size of the index that it was given to.
-/

namespace FormCompiler

open FormCompiler.Expr List Build

/-! ## Computations that arrive -/

namespace Build

variable {α β : Type} {s : Session} {Q : α → Session → Prop} {a : α} {x : Build α} {f : α → Build β}
  {Q' : α → Session → Prop} {as : List α}

/-- What returns has the properties that it leads to. -/
theorem Arrives.and (h : Arrives s x Q) (leads : Leads s x Q') : Arrives s x fun a s' => Q a s' ∧ Q' a s' := by
  obtain ⟨a, s', run, grows, ha⟩ := h
  exact ⟨a, s', run, grows, ha, (leads a s' run).2⟩

/-- What succeeds arrives, in a session with the same indices. -/
theorem Succeeds.arrives {P : α → Prop} (h : Succeeds s.extents x P) :
    Arrives s x fun a s' => s'.extents = s.extents ∧ P a := by
  obtain ⟨a, s', run, same, ha⟩ := h s rfl
  exact ⟨a, s', run, .of_indices same, Session.extents_congr same, ha⟩

/-- Along a list, something is kept of the sessions. -/
theorem arrives_mapM {I : Session → Prop} {S : α → β → Session → Prop}
    (mono : ∀ {a b s s'}, Session.Grows s s' → S a b s → S a b s') (start : I s)
    (step : ∀ a ∈ as, ∀ s', s.Grows s' → I s' → Arrives s' (f a) fun b s'' => I s'' ∧ S a b s'') :
    Arrives s (as.mapM f) fun bs s' => I s' ∧ Forall₂ (fun a b => S a b s') as bs := by
  induction as generalizing s with
  | nil => exact arrives_pure ⟨start, .nil⟩
  | cons a as ih =>
    rw [mapM_cons]
    refine (step a mem_cons_self s (.refl s) start).bind fun b s₁ grows hb => ?_
    refine (ih hb.1 fun a' ha' s' grows' => step a' (mem_cons_of_mem _ ha') s' (grows.trans grows')).bind
      fun bs s₂ grows' hbs => arrives_pure ⟨hbs.1, .cons (mono grows' hb.2) hbs.2⟩

/-- A fold keeps an invariant of what has been passed. -/
theorem arrives_foldlM {f : β → α → Build β} {I : List α → β → Session → Prop} {b : β} (start : I [] b s)
    (step : ∀ done a rest, as = done ++ a :: rest → ∀ b s', s.Grows s' → I done b s' → Arrives s' (f b a) (I (done ++ [a]))) :
    Arrives s (as.foldlM f b) (I as) := by
  suffices ∀ rest done b s', as = done ++ rest → s.Grows s' → I done b s' → Arrives s' (rest.foldlM f b) (I as) from
    this as [] b s rfl (.refl s) start
  intro rest
  induction rest with
  | nil =>
    intro done b s' eq _ inv
    rw [append_nil] at eq
    exact arrives_pure (eq ▸ inv)
  | cons a rest ih =>
    intro done b s' eq grows inv
    rw [foldlM_cons]
    refine (step done a rest eq b s' grows inv).bind fun b' s'' grows' inv' => ?_
    exact ih (done ++ [a]) b' s'' (by simp [eq]) (grows.trans grows') inv'

/-- An index whose extent is not known, or is the given one, takes it. -/
theorem arrives_setExtent {i : Index} {n : Int} (has : s.Has i) (free : ∀ m, s.extents i = some m → m = n) :
    Arrives s (setExtent i (some n)) fun _ s' => ∀ j m, s'.extents j = some m → s.extents j = some m ∨ j = i ∧ m = n := by
  cases known : s.extents i with
  | some m =>
    obtain rfl := free m known
    refine ⟨(), s, ?_, .refl s, fun j k hj => .inl hj⟩
    rw [run_setExtent, known]
    simp only [beq_self_eq_true, if_true]
    rfl
  | none =>
    have run : (setExtent i (some n)).run.run s =
        (.ok (), ⟨s.indices.setIfInBounds i.number ⟨(s.indices.getD i.number ⟨none, none⟩).name, some n⟩, s.serial⟩) := by
      rw [run_setExtent, known]
      rfl
    refine ⟨_, _, run, (leads_setExtent has _ _ run).1, fun j m hj => ?_⟩
    rw [extents_set has] at hj
    split at hj
    · exact .inr ⟨by assumption, (Option.some.inj hj).symm⟩
    · exact .inl hj

end Build

namespace Rewrite

variable {V : Index → Prop} {s : Session} {r : Renamer} {i : Index} {size : Index → Int} {names : RenameMap}

/-! ## Sizes of names -/

/-- Names as they are given: they lead forward in the session, and agree in extent with the indices that they were given to. -/
structure Issued (names : RenameMap) (s : Session) : Prop where
  forward {p : Index × Index} : p ∈ names → p.1.number < p.2.number
  has {p : Index × Index} : p ∈ names → s.Has p.2
  alike : ∃ size, Sized size names s

theorem Issued.nil : Issued [] s := by
  refine ⟨by simp, by simp, fun i => (s.extents i).getD 0, fun known => ?_, by simp⟩
  rw [known]
  rfl

/-- The indices of the session that are not names are visible. -/
theorem Issued.reserved (h : Issued names s) : Reserved (fun i => s.Has i ∧ ∀ p ∈ names, p.2 ≠ i) names s :=
  ⟨h.forward, h.has, fun hp seen => seen.2 _ hp rfl⟩

/-- The search for a name that is not in use ends with one, and names are given as before. -/
theorem Issued.arrives_takeName (issued : Issued r.names s) (has : s.Has i) :
    Arrives s ((takeName i).run r) fun p s' => p.1 ∉ r.inUse ∧ p.2.inUse = r.inUse ++ [p.1] ∧ Issued p.2.names s' := by
  obtain ⟨size, sized⟩ := issued.alike
  refine (Rewrite.arrives_takeName issued.reserved (fun i seen => seen.1) has).mono fun p s' _ found => ?_
  obtain ⟨unused, -, inUse, names⟩ := found
  obtain ⟨size', resized, -⟩ := names.sized sized
  exact ⟨unused, inUse, names.reserved.forward, names.reserved.has, size', resized.sized⟩

/-! ## Expressions under names -/

variable {K : Type} [Scalar K] {e : Expr K} {given : RenameMap}

omit [Scalar K] in
/-- Names take the extents of the indices, as far as they agree in size. -/
theorem arrives_setExtents {rel : List (Index × Index)} {n : Index → Int} (sized : Sized size given s) (has : ∀ p ∈ rel, s.Has p.2)
    (same : ∀ p ∈ rel, n p.1 = size p.2) :
    Arrives s (Build.setExtents (rel.map fun p => (.free p.2 : Slot (Expr K))) (rel.map fun p => some (n p.1))) fun _ s' =>
      Sized size given s' := by
  induction rel generalizing s with
  | nil => exact arrives_pure sized
  | cons p rel ih =>
    obtain ⟨here, later⟩ := forall_mem_cons.1 has
    obtain ⟨size_eq, same⟩ := forall_mem_cons.1 same
    refine Arrives.bind (arrives_setExtent here fun m known => ?_) fun _ s₁ grows set => ?_
    · rw [sized.extent known, size_eq]
    · refine ih ⟨fun {i m} known => ?_, sized.name⟩ (fun q hq => grows.has (later q hq)) same
      rcases set i m known with known | ⟨rfl, rfl⟩
      · exact sized.extent known
      · exact size_eq

/-- An expression is put under names that have the sizes of the indices. -/
theorem arrives_applyNames (scalar : e.shape = []) (sized : Sized size given s) (same : ∀ p ∈ names, size p.2 = size p.1)
    (known : ∀ p ∈ names, p.1 ∈ e.freeIndices → s.Knows p.1 ∧ s.Has p.2) :
    Arrives s (applyNames names e) fun _ s' => Sized size given s' := by
  unfold applyNames
  change Arrives s (if (relevant names e).isEmpty then pure e else _) _
  have all : ∀ p ∈ relevant names e, s.Knows p.1 ∧ s.Has p.2 := fun p hp =>
    known p (mem_relevant.1 hp).1 (mem_relevant.1 hp).2
  refine arrives_ite (fun _ => arrives_pure sized) fun there => ?_
  have nonempty : relevant names e ≠ [] := by simpa using there
  have bounds := bounds_nameBinders fun p hp => (all p hp).1
  change Arrives s (Build.tensorOver e ((relevant names e).map Prod.fst) >>= fun t =>
    Build.indexedAt t ((relevant names e).map Prod.snd)) _
  rw [← map_fst_nameBinders s.extents]
  refine (succeeds_tensorOver scalar bounds fun b hb => ?_).arrives.bind fun t s₁ grows made => ?_
  · obtain ⟨p, hp, rfl⟩ := mem_map.1 hb
    exact (mem_relevant.1 hp).2
  obtain ⟨extents, made⟩ := made
  cases made with
  | body none => exact absurd (map_eq_nil_iff.1 none) nonempty
  | zero zero => exact absurd (relevant_zero zero) nonempty
  | node _ _ =>
    have sized' : Sized size given s₁ := ⟨fun known => sized.extent (extents ▸ known), sized.name⟩
    rw [indexedAt_names nonempty]
    refine Arrives.bind (arrives_setExtents (n := fun i => (s.extents i).getD 0) sized' (fun p hp => grows.has (all p hp).2)
      fun p hp => ?_) fun _ s₂ _ set => arrives_pure set
    obtain ⟨n, known⟩ := (all p hp).1.known
    rw [same p (mem_relevant.1 hp).1, known]
    exact sized.extent known

/-- No expression is put under another name of an index that has no positions. -/
theorem leads_applyNames_empty {p : Index × Index} (hp : p ∈ names) (free : p.1 ∈ e.freeIndices) (empty : s.extents p.1 = some 0) :
    Leads s (applyNames names e) fun _ _ => False := by
  have mem := mem_relevant.2 ⟨hp, free⟩
  have nonempty := ne_nil_of_mem mem
  have refused : Ensures s.extents (Build.tensorOver e ((relevant names e).map Prod.fst)) fun _ => False := by
    unfold Build.tensorOver Build.componentTensor
    refine ensures_requireScalar.bind fun _ _ => ?_
    refine ensures_ite (fun none => absurd none (by simpa using nonempty)) fun _ => ?_
    refine (succeeds_runningIndices _).ensures.bind fun is his => ?_
    subst his
    refine (ensures_mapM (S := fun i n => n = s.extents i) fun i _ => ensures_extent).bind fun shape hshape => ?_
    obtain ⟨n, hn, eq⟩ := exists_of_forall₂ hshape (mem_map_of_mem mem)
    have zero : Shape.hasOpenOrEmpty shape = true := any_eq_true.2 ⟨n, hn, by rw [eq, empty]; rfl⟩
    refine ensures_require.bind fun _ full => ?_
    rw [zero] at full
    cases full
  unfold applyNames
  change Leads s (if (relevant names e).isEmpty then pure e else _) _
  rw [if_neg (by simpa using nonempty)]
  exact refused.leads.bind fun _ _ _ h => h.2.elim

variable [Field K]

theorem arrives_named (fits : WellFormed s.extents e) (scalar : e.shape = []) (once : (names.map Prod.fst).Nodup)
    (sized : Sized size given s) (same : ∀ p ∈ names, size p.2 = size p.1)
    (known : ∀ p ∈ names, p.1 ∈ e.freeIndices → s.Knows p.1 ∧ s.Has p.2) :
    Arrives s (applyNames names e) fun r s' => Sized size given s' ∧ Named names s' e r :=
  (arrives_applyNames scalar sized same known).and (leads_named fits scalar once known)

end Rewrite

end FormCompiler
