import FormCompiler.Proofs.Effects

/-!
# What a run has done

Operations are carried out one after the other, each at all positions of its loops. The temporaries of those carried
out hold their values, sums that have been started stand at zero, and the variables that are given back have received
what the operations give.
-/

namespace FormCompiler

open FormCompiler.Expr List

open FormCompiler.Valuation (InRange Agree)

/-- An invariant that each step of a fold establishes for one more member. -/
theorem foldlM_invariant {σ β : Type} {f : σ → β → Option σ} {P : List β → σ → Prop} {xs : List β}
    (step : ∀ ys x zs st, xs = ys ++ x :: zs → P ys st → ∃ st', f st x = some st' ∧ P (ys ++ [x]) st') {st : σ}
    (start : P [] st) : ∃ st', xs.foldlM f st = some st' ∧ P xs st' := by
  have run : ∀ zs ys st, xs = ys ++ zs → P ys st → ∃ st', zs.foldlM f st = some st' ∧ P xs st' := by
    intro zs
    induction zs with
    | nil =>
      intro ys st split inv
      exact ⟨st, rfl, by rwa [split, append_nil]⟩
    | cons z zs ih =>
      intro ys st split inv
      obtain ⟨st₁, here, inv₁⟩ := step ys z zs st split inv
      obtain ⟨st', rest, done⟩ := ih (ys ++ [z]) st₁ (by simpa using split) inv₁
      exact ⟨st', by rw [foldlM_cons, here]; exact rest, done⟩
  exact run xs [] st rfl start

variable {K : Type} [Scalar K] [Field K]

/-! ## Loops around one operation -/

section Loops

variable [Exact K] (T : List (Expr K)) (env : Environment K) (σs : List Valuation) (st₀ : RunState K) {o : Operation K}

/-- A loop that stores entries of one temporary, each with a property that depends on its indices alone. -/
theorem foldlM_put {t : Expr K} {G : Valuation → (List Int → Option K) → Prop}
    (congr : ∀ σ σ' f, Agree t.freeIndices σ σ' → G σ f → G σ' f)
    (step : ∀ σ ∈ σs, ∀ st : RunState K, st.contents = st₀.contents → (∀ u ≠ t, ∀ τ, st.load u τ = st₀.load u τ) →
      ∃ f, o.effect T env σ st = some (.put t σ f) ∧ G σ f) :
    ∃ st, σs.foldlM (fun st σ => o.run T env σ st) st₀ = some st ∧ st.contents = st₀.contents ∧
      (∀ u ≠ t, ∀ τ, st.load u τ = st₀.load u τ) ∧
      ∀ τ, (∃ σ ∈ σs, Agree t.freeIndices σ τ) → ∃ f, st.load t τ = some f ∧ G τ f := by
  refine foldlM_invariant (P := fun done (st : RunState K) => st.contents = st₀.contents ∧ (∀ u ≠ t, ∀ τ, st.load u τ = st₀.load u τ) ∧
    ∀ τ, (∃ σ ∈ done, Agree t.freeIndices σ τ) → ∃ f, st.load t τ = some f ∧ G τ f) ?_ ⟨rfl, fun _ _ _ => rfl, by simp⟩
  rintro done σ rest st rfl ⟨contents, others, stored⟩
  obtain ⟨f, effect, good⟩ := step σ (by simp) st contents others
  refine ⟨st.store t σ f, by rw [Operation.run_eq, effect]; rfl, contents, fun u ne τ => ?_, fun τ reached => ?_⟩
  · rw [RunState.load_store, if_neg fun h => ne h.1, others u ne]
  · rw [RunState.load_store]
    by_cases here : Agree t.freeIndices τ σ
    · exact ⟨f, if_pos ⟨rfl, here⟩, congr σ τ f (fun i hi => (here i hi).symm) good⟩
    · rw [if_neg fun h => here h.2]
      refine stored τ ?_
      obtain ⟨σ', mem, agree⟩ := reached
      rcases mem_append.1 mem with mem | mem
      · exact ⟨σ', mem, agree⟩
      · obtain rfl : σ' = σ := by simpa using mem
        exact absurd (fun i hi => (agree i hi).symm) here

omit [Exact K] in
/-- A loop that adds to entries of variables. -/
theorem foldlM_add (given : String → Shape → Prop) {P : Valuation → VarEntry} {X : Valuation → K}
    (step : ∀ σ ∈ σs, ∀ st : RunState K, st.stored = st₀.stored → AgreeBut given st.contents st₀.contents →
      o.effect T env σ st = some (.add (P σ) (X σ)) ∧ given (P σ).name (P σ).shape) :
    ∃ st, σs.foldlM (fun st σ => o.run T env σ st) st₀ = some st ∧ st.stored = st₀.stored ∧
      AgreeBut given st.contents st₀.contents ∧
      ∀ name shape idx, st.contents name shape idx = st₀.contents name shape idx +
        (σs.map fun σ => if (⟨name, shape, idx⟩ : VarEntry) = P σ then X σ else 0).sum := by
  refine foldlM_invariant (P := fun done (st : RunState K) => st.stored = st₀.stored ∧ AgreeBut given st.contents st₀.contents ∧
    ∀ name shape idx, st.contents name shape idx = st₀.contents name shape idx +
      (done.map fun σ => if (⟨name, shape, idx⟩ : VarEntry) = P σ then X σ else 0).sum) ?_
    ⟨rfl, fun _ _ _ => rfl, fun _ _ _ => by simp⟩
  rintro done σ rest st rfl ⟨stored, same, contents⟩
  obtain ⟨effect, mem⟩ := step σ (by simp) st stored same
  refine ⟨st.addTo (P σ) (X σ), by rw [Operation.run_eq, effect]; rfl, stored, fun name shape out => ?_,
    fun name shape idx => ?_⟩
  · rw [← same name shape out]
    funext idx
    have : ¬ (⟨name, shape, idx⟩ : VarEntry) = P σ := by
      intro here
      exact out (by simpa [← here] using mem)
    simp [RunState.addTo, this]
  · simp only [RunState.addTo, contents, map_append, sum_append, map_cons, map_nil, sum_cons,
      sum_nil, add_zero, add_assoc]

/-- A loop that adds to a sum which has been started. -/
theorem foldlM_accumulate {size : Index → Nat} {s : Expr K} {y : Valuation → K}
    (range : ∀ σ ∈ σs, InRange size s.freeIndices σ)
    (start : ∀ τ, InRange size s.freeIndices τ → ∃ f, st₀.load s τ = some f ∧ f [] = some 0)
    (step : ∀ σ ∈ σs, ∀ st : RunState K, st.contents = st₀.contents → (∀ u ≠ s, ∀ τ, st.load u τ = st₀.load u τ) →
      (Operation.summand s).read T env st σ [] = some (y σ)) :
    ∃ st, σs.foldlM (fun st σ => (Operation.accumulate s).run T env σ st) st₀ = some st ∧ st.contents = st₀.contents ∧
      (∀ u ≠ s, ∀ τ, st.load u τ = st₀.load u τ) ∧ ∀ τ, InRange size s.freeIndices τ → ∃ f, st.load s τ = some f ∧
        f [] = some (σs.map fun σ => if Agree s.freeIndices σ τ then y σ else 0).sum := by
  refine foldlM_invariant (P := fun done (st : RunState K) => st.contents = st₀.contents ∧
    (∀ u ≠ s, ∀ τ, st.load u τ = st₀.load u τ) ∧ ∀ τ, InRange size s.freeIndices τ → ∃ f, st.load s τ = some f ∧
      f [] = some (done.map fun σ => if Agree s.freeIndices σ τ then y σ else 0).sum) ?_
    ⟨rfl, fun _ _ _ => rfl, by simpa using start⟩
  rintro done σ rest st rfl ⟨contents, others, sums⟩
  have read := step σ (by simp) st contents others
  obtain ⟨f, found, sum⟩ := sums σ (range σ (by simp))
  refine ⟨st.store s σ fun _ => some ((done.map fun σ' => if Agree s.freeIndices σ' σ then y σ' else 0).sum + y σ), ?_,
    contents, fun u ne τ => ?_, fun τ hτ => ?_⟩
  · simp [Operation.run, found, sum, read]
  · rw [RunState.load_store, if_neg fun h => ne h.1, others u ne]
  · rw [RunState.load_store]
    simp only [map_append, sum_append, map_cons, map_nil, sum_cons, sum_nil, add_zero]
    by_cases here : Agree s.freeIndices σ τ
    · have same : ∀ σ', Agree s.freeIndices σ' σ ↔ Agree s.freeIndices σ' τ := fun σ' =>
        ⟨fun h i hi => (h i hi).trans (here i hi), fun h i hi => (h i hi).trans (here i hi).symm⟩
      refine ⟨_, if_pos ⟨trivial, fun i hi => (here i hi).symm⟩, ?_⟩
      simp only [same, if_pos here]
    · rw [if_neg fun h => here fun i hi => (h.2 i hi).symm]
      obtain ⟨g, found, sum⟩ := sums τ hτ
      exact ⟨g, found, by rw [sum, if_neg here, add_zero]⟩

end Loops

/-! ## What is given -/

/-- What an operation gives to an entry of a variable: a sum over the positions of its target at which that entry is
addressed. -/
def Operation.contribution (env : Environment K) (size : Index → Nat) (ρ : Valuation) (p : VarEntry) : Operation K → K
  | .give v e | .giveSum v e =>
    ((ρ.ranging (bindersOf size v.freeIndices)).map fun σ => if placeOf env σ v = some p then e.value env σ [] else 0).sum
  | _ => 0

section Sums

variable {env : Environment K} {size : Index → Nat}

variable {body : Expr K} {bs : List Binder} {is : List Index}

omit [Field K] in
/-- Binders of known extents. -/
theorem Expr.BindersFit.eq_bindersOf
    (fits : BindersFit (fun i => some (size i : Int)) body bs) : bs = bindersOf size (bs.map Prod.fst) := by
  rw [bindersOf, map_map]
  refine (map_id bs).symm.trans (map_congr_left fun b hb => ?_)
  exact Prod.ext rfl (Option.some.inj (fits.extent hb)).symm

/-- A sum over the indices of a summand is a sum over those of the sum and then over the binders. -/
theorem sum_summand (fits : BindersFit (fun i => some (size i : Int)) body bs) (free : ∀ i, i ∈ is ↔ i ∈ body.freeIndices)
    (ρ : Valuation) (g : Valuation → K) :
    ((ρ.ranging (bindersOf size is)).map g).sum =
      ((ρ.ranging (bindersOf size (indexSum body bs).freeIndices)).map fun τ => ((τ.ranging bs).map g).sum).sum := by
  have binders := fits.eq_bindersOf
  rw [Valuation.sum_ranging_split (indexSum body bs).freeIndices (bs.map Prod.fst) ρ g, ← binders]
  · intro i
    rw [free, mem_freeIndices_indexSum]
    refine ⟨fun h => ?_, fun h => ?_⟩
    · by_cases bound : i ∈ bs.map Prod.fst
      · exact .inr bound
      · exact .inl ⟨h, bound⟩
    · rcases h with h | h
      · exact h.1
      · obtain ⟨b, hb, rfl⟩ := mem_map.1 h
        exact fits.free hb
  · exact fun i hi => (mem_freeIndices_indexSum.1 hi).2

/-- The summands at one position of a sum add up to its value. -/
theorem sum_agree_eq_value (fits : BindersFit (fun i => some (size i : Int)) body bs)
    (closed : Everywhere RuntimeClosed (.indexSum body bs))
    (free : ∀ i, i ∈ is ↔ i ∈ body.freeIndices) (ρ : Valuation) {τ : Valuation}
    (range : InRange size (indexSum body bs).freeIndices τ) :
    ((ρ.ranging (bindersOf size is)).map fun σ =>
      if Agree (indexSum body bs).freeIndices σ τ then body.value env σ [] else 0).sum =
      (indexSum body bs).value env τ [] := by
  have inner : ∀ τ' : Valuation, ((τ'.ranging bs).map fun σ =>
      if Agree (indexSum body bs).freeIndices σ τ then body.value env σ [] else 0).sum =
        if Agree (indexSum body bs).freeIndices τ' τ then (indexSum body bs).value env τ' [] else 0 := by
    intro τ'
    have same : ∀ σ ∈ τ'.ranging bs,
        (Agree (indexSum body bs).freeIndices σ τ ↔ Agree (indexSum body bs).freeIndices τ' τ) := by
      intro σ hσ
      refine forall₂_congr fun i hi => ?_
      rw [Valuation.eq_of_mem_ranging hσ (mem_freeIndices_indexSum.1 hi).2]
    rw [map_congr_left fun σ hσ => if_congr (same σ hσ) rfl rfl, value_indexSum]
    split
    · rfl
    · simp
  rw [sum_summand fits free ρ, map_congr_left fun τ' _ => inner τ', Valuation.sum_ranging_eq_at ρ range]
  exact value_congr closed [] (Valuation.patch_agree ρ τ _)

/-- The entry that a target addresses depends on its indices alone. -/
theorem Expr.Target.placeOf_agree [Exact K] {given : String → Shape → Prop} {v : Expr K} (h : v.Target given) {ρ σ : Valuation}
    (agree : Agree v.freeIndices ρ σ) : placeOf env ρ v = placeOf env σ v := by
  obtain ⟨name, shape, -, rfl | ⟨slots, rfl, lookup⟩ | ⟨dims, rfl⟩⟩ := h
  · rfl
  · refine congrArg (fun idx => some (VarEntry.mk name shape idx)) (map_congr_left fun s hs => ?_)
    refine position_congr (fun i hi => ?_) fun r hr => ?_
    · exact agree i (mem_freeIndices_indexed.2 (.inl (hi ▸ hs)))
    · obtain ⟨name, shape, idx, -, -, val⟩ := (lookup r (hr ▸ hs)).entry (T := []) (by simp)
      rw [val, val]
  · exact congrArg (fun idx => some (VarEntry.mk name shape idx)) (access_congr agree)

end Sums

/-- What a run has done when some operations have been carried out. -/
structure Progress (env : Environment K) (size : Index → Nat) (given : String → Shape → Prop) (ρ : Valuation)
    (done : List (Operation K)) (st : RunState K) : Prop where
  same : AgreeBut given st.contents env.tensor
  holds {t : Expr K} : .evaluate t ∈ done ∨ .accumulate t ∈ done → t.Holds env size st
  started {s : Expr K} : .initialise s ∈ done → .accumulate s ∉ done →
    ∀ τ, InRange size s.freeIndices τ → ∃ f, st.load s τ = some f ∧ f [] = some 0
  contents (name : String) (shape : Shape) (idx : List Int) : st.contents name shape idx =
    env.tensor name shape idx + (done.map fun o => o.contribution env size ρ ⟨name, shape, idx⟩).sum

namespace Progress

variable [Exact K] {env : Environment K} {size : Index → Nat} {given : String → Shape → Prop} {roots T : List (Expr K)}
  {done rest : List (Operation K)} {o : Operation K} {ρ : Valuation} {st st' : RunState K} {t : Expr K}

section Next

variable (work : Workload env size given roots T (done ++ o :: rest))
include work

omit [Exact K] in
/-- What comes before the next operation has been carried out. -/
theorem mem_of_before {p : Operation K} (h : Before (done ++ o :: rest) p o) : p ∈ done := by
  rcases mem_append.1 h.left with mem | mem
  · exact mem
  · exfalso
    rcases mem_cons.1 mem with rfl | mem
    · exact Before.asymm work.nodup h h
    · refine Before.asymm work.nodup h (before_iff.2 ⟨done ++ [o], rest, by simp, by simp, mem⟩)

omit [Exact K] in
/-- The temporary that the next operation writes has not been computed yet. -/
theorem fresh (writes : o.writes? = some t) : .evaluate t ∉ done ∧ .accumulate t ∉ done := by
  have mem : o ∈ done ++ o :: rest := by simp
  have past : ∀ {p}, p ∈ done → p ∈ done ++ o :: rest := fun h => mem_append_left _ h
  have late : o ∉ done := fun h => Before.asymm work.nodup (before_append_cons h) (before_append_cons h)
  have apart : ∀ s, .evaluate s ∈ done ++ o :: rest → s.isSum = true → False := fun s h sum => by
    simp [(work.evaluated h).1] at sum
  cases o with
  | evaluate e =>
    cases writes
    exact ⟨late, fun h => apart t mem (work.sum (past h) (.inr (.inl rfl))).1⟩
  | initialise s =>
    cases writes
    obtain ⟨sum, first, -⟩ := work.sum mem (.inl rfl)
    exact ⟨fun h => apart t (past h) sum, fun h => Before.asymm work.nodup first (before_append_cons h)⟩
  | accumulate s =>
    cases writes
    exact ⟨fun h => apart t (past h) (work.sum mem (.inr (.inl rfl))).1, late⟩
  | _ => cases writes

/-- What the next operation refers to reads as its value, also after entries have been written that the operation
itself writes. -/
theorem read (h : Progress env size given ρ done st) (contents : AgreeBut given st'.contents st.contents)
    (others : ∀ u, o.writes? ≠ some u → ∀ τ, st'.load u τ = st.load u τ) {x : Expr K} (hx : x ∈ o.refs) {τ : Valuation}
    (range : InRange size x.freeIndices τ) {idx : List Int} (entry : within x.shape idx = true ∨ x.isVar = true) :
    x.read T env st' τ idx = some (x.value env τ idx) := by
  have mem : o ∈ done ++ o :: rest := by simp
  refine (work.plain mem hx).read_eq_value work.computed work.readable
    (fun name shape out => (contents name shape out).trans (h.same name shape out)) (work.ref mem hx) ?_ range entry
  intro u meets σ hσ
  have computed : .evaluate u ∈ done ∨ .accumulate u ∈ done := by
    rcases work.temporary.1 meets.mem with found | found
    · exact .inl (mem_of_before work (work.before mem hx meets found rfl))
    · exact .inr (mem_of_before work (work.before mem hx meets found rfl))
  rw [others u fun writes => ?_]
  · exact h.holds computed σ hσ
  · exact computed.elim (fresh work writes).1 (fresh work writes).2

/-- Carrying out an operation that writes a temporary. -/
theorem write (h : Progress env size given ρ done st) (writes : o.writes? = some t) (contents : st'.contents = st.contents)
    (others : ∀ u ≠ t, ∀ τ, st'.load u τ = st.load u τ)
    (holds : o = .evaluate t ∨ o = .accumulate t → t.Holds env size st')
    (started : o = .initialise t → ∀ τ, InRange size t.freeIndices τ → ∃ f, st'.load t τ = some f ∧ f [] = some 0) :
    Progress env size given ρ (done ++ [o]) st' := by
  have nothing : ∀ p, o.contribution env size ρ p = 0 := fun p => by cases o <;> first | rfl | cases writes
  refine ⟨contents ▸ h.same, fun {u} computed => ?_, fun {u} start unsummed τ hτ => ?_, fun name shape idx => ?_⟩
  · by_cases same : u = t
    · subst same
      refine holds ?_
      have := fresh work writes
      simpa [this, eq_comm] using computed
    · have ne : o.writes? ≠ some u := fun h => same (Option.some.inj (h.symm.trans writes))
      intro τ hτ
      rw [others u same τ]
      refine h.holds ?_ τ hτ
      simp only [mem_append, mem_singleton] at computed
      rcases computed with (done | rfl) | (done | rfl)
      · exact .inl done
      · exact absurd rfl ne
      · exact .inr done
      · exact absurd rfl ne
  · by_cases same : u = t
    · subst same
      have late : .initialise u ∉ done := fun early => by
        have mem : o ∈ done ++ o :: rest := by simp
        have past : .initialise u ∈ done ++ o :: rest := mem_append_left _ early
        cases o with
        | evaluate e =>
          cases writes
          simpa [(work.evaluated mem).1] using (work.sum past (.inl rfl)).1
        | initialise s =>
          cases writes
          exact Before.asymm work.nodup (before_append_cons early) (before_append_cons early)
        | accumulate s =>
          cases writes
          exact unsummed (by simp)
        | _ => cases writes
      refine started ?_ τ hτ
      simpa [late, eq_comm] using start
    · rw [others u same τ]
      refine h.started ?_ (fun early => unsummed (mem_append_left _ early)) τ hτ
      refine (mem_append.1 start).resolve_right fun here => ?_
      obtain rfl : .initialise u = o := by simpa using here
      exact same (Option.some.inj writes)
  · rw [contents, h.contents name shape idx]
    simp [nothing]

end Next

/-! ## One operation after the other -/

/-- The next operation can be carried out at all positions of its loops. -/
def Advances (env : Environment K) (size : Index → Nat) (given : String → Shape → Prop) (T : List (Expr K)) (ρ : Valuation)
    (done : List (Operation K)) (o : Operation K) (st : RunState K) (is : List Index) : Prop :=
  ∃ st', (ρ.ranging (bindersOf size is)).foldlM (fun st σ => o.run T env σ st) st = some st' ∧
    Progress env size given ρ (done ++ [o]) st'

section Step

variable (work : Workload env size given roots T (done ++ o :: rest)) (h : Progress env size given ρ done st)
  {is : List Index} (loops : ∀ i, i ∈ is ↔ i ∈ o.loopExpr.freeIndices)
include work h loops

variable {e s v : Expr K}

omit [Scalar K] [Field K] [Exact K] work h in
/-- The loops pass by all positions in range. -/
theorem exists_agree (ρ : Valuation) {τ : Valuation} (hτ : InRange size o.loopExpr.freeIndices τ) :
    ∃ σ ∈ ρ.ranging (bindersOf size is), Agree o.loopExpr.freeIndices σ τ :=
  ⟨_, Valuation.patch_mem_ranging ρ (hτ.mono fun i hi => (loops i).1 hi),
    (Valuation.patch_agree ρ τ is).mono fun i hi => (loops i).2 hi⟩

theorem step_evaluate (ho : o = .evaluate e) : Advances env size given T ρ done o st is := by
  subst ho
  have mem : .evaluate e ∈ done ++ .evaluate e :: rest := by simp
  have reach := work.subject mem rfl
  have closed := reach.closed work.readable
  have node : ∀ σ ∈ ρ.ranging (bindersOf size is), ∀ st₁ : RunState K, st₁.contents = st.contents →
      (∀ u ≠ e, ∀ τ, st₁.load u τ = st.load u τ) → ∀ idx, within e.shape idx = true →
        e.readNode T env st₁ σ idx = some (e.value env σ idx) := by
    intro σ hσ st₁ contents others idx entry
    have range : InRange size e.freeIndices σ := (Valuation.mem_ranging.1 hσ).2.mono fun i hi => (loops i).2 hi
    refine readNode_eq_value work.computed (contents ▸ h.same) (work.readable e reach)
      (fun c hc => work.readable c (.child reach hc)) (work.evaluated mem).1 (fun c hc τ idx hτ entry => ?_) range (.inl entry)
    exact read work h (fun _ _ _ => by rw [contents]) (fun u ne τ => others u (fun same => ne (same ▸ rfl)) τ) hc hτ entry
  obtain ⟨st', run, contents, others, stored⟩ := foldlM_put T env (ρ.ranging (bindersOf size is)) st (t := e)
    (o := .evaluate e) (G := fun σ f => ∀ idx, within e.shape idx = true → f idx = some (e.value env σ idx))
    (fun σ σ' f agree good idx entry => by rw [good idx entry, value_congr closed idx agree])
    fun σ hσ st₁ contents others => by
      have node := node σ hσ st₁ contents others
      have complete : completeTable e.shape (e.readNode T env st₁ σ) = true := by
        unfold completeTable
        split
        · rename_i extents known
          rw [all_eq_true]
          intro idx hidx
          rw [node _ (eq_ofNats_of_toNats? known ▸ within_ofNats (mem_tuples.1 hidx))]
          rfl
        · rfl
      refine ⟨cropped e.shape (e.readNode T env st₁ σ), by simp [Operation.effect, complete], fun idx entry => ?_⟩
      rw [cropped, if_pos entry, node idx entry]
  refine ⟨st', run, write work h rfl contents others (fun _ τ hτ => ?_) (by simp)⟩
  exact stored τ (exists_agree loops ρ hτ)

theorem step_initialise (ho : o = .initialise s) : Advances env size given T ρ done o st is := by
  subst ho
  obtain ⟨st', run, contents, others, stored⟩ := foldlM_put T env (ρ.ranging (bindersOf size is)) st (t := s)
    (o := .initialise s) (G := fun _ f => f [] = some 0) (fun _ _ _ _ good => good) fun σ _ _ _ _ => ⟨_, rfl, rfl⟩
  refine ⟨st', run, write work h rfl contents others (by simp) fun _ τ hτ => ?_⟩
  exact stored τ (exists_agree loops ρ hτ)

theorem step_accumulate (ho : o = .accumulate s) : Advances env size given T ρ done o st is := by
  subst ho
  have mem : .accumulate s ∈ done ++ .accumulate s :: rest := by simp
  obtain ⟨sum, first, -⟩ := work.sum mem (.inr (.inl rfl))
  have reach := work.subject mem rfl
  have closed := reach.closed work.readable
  have started := h.started (mem_of_before work first) (fresh work rfl).2
  cases s with
  | indexSum body bs =>
    have fits : BindersFit (fun i => some (size i : Int)) body bs := (work.readable _ reach).fits
    have range : ∀ σ ∈ ρ.ranging (bindersOf size is), InRange size body.freeIndices σ := fun σ hσ =>
      (Valuation.mem_ranging.1 hσ).2.mono fun i hi => (loops i).2 hi
    obtain ⟨st', run, contents, others, sums⟩ := foldlM_accumulate T env (ρ.ranging (bindersOf size is)) st
      (y := fun σ => body.value env σ [])
      (fun σ hσ => (range σ hσ).mono fun i hi => (mem_freeIndices_indexSum.1 hi).1) started
      fun σ hσ st₁ contents others =>
        read work h (fun _ _ _ => by rw [contents]) (fun u ne τ => others u (fun same => ne (same ▸ rfl)) τ)
          (x := body) mem_cons_self (range σ hσ) (.inl (by rw [fits.scalar]; rfl))
    refine ⟨st', run, write work h rfl contents others (fun _ τ hτ => ?_) (by simp)⟩
    obtain ⟨f, found, value⟩ := sums τ hτ
    refine ⟨f, found, fun idx entry => ?_⟩
    obtain rfl : idx = [] := by cases idx <;> simp_all [shape, within]
    rw [value, sum_agree_eq_value fits closed loops ρ hτ]
  | _ => cases sum

omit loops in
/-- An operation that gives: a sum over its positions is added to the entries that they address. -/
theorem step_add {x : Expr K} (target : v.Target given) (writes : o.writes? = none)
    (effect : ∀ σ (st : RunState K), o.effect T env σ st =
      (placeOf (st.environment env) σ v).bind fun p => (x.read T env st σ []).bind fun y => some (.add p y))
    (hx : x ∈ o.refs) (scalar : x.shape = []) (range : ∀ σ ∈ ρ.ranging (bindersOf size is), InRange size x.freeIndices σ)
    (total : ∀ p, ((ρ.ranging (bindersOf size is)).map fun σ =>
      if placeOf env σ v = some p then x.value env σ [] else 0).sum = o.contribution env size ρ p) : Advances env size given T ρ done o st is := by
  obtain ⟨name, shape, mem, place⟩ := target.place
  choose idx at_ using fun σ => place env σ
  obtain ⟨st', run, stored, same, contents⟩ := foldlM_add T env (ρ.ranging (bindersOf size is)) st given
    (o := o) (P := fun σ => ⟨name, shape, idx σ⟩) (X := fun σ => x.value env σ []) fun σ hσ st₁ stored same => by
      have agree : AgreeBut given st₁.contents env.tensor :=
        fun name shape out => (same name shape out).trans (h.same name shape out)
      have here : placeOf (st₁.environment env) σ v = some ⟨name, shape, idx σ⟩ :=
        (target.placeOf_congr env agree σ).trans (at_ σ)
      have entry : within x.shape [] = true := by
        rw [scalar]
        rfl
      have read := read work h same (fun u _ τ => by rw [RunState.load, RunState.load, stored]) hx (range σ hσ) (.inl entry)
      rw [effect σ st₁, here, read]
      exact ⟨rfl, mem⟩
  have nothing : ∀ t, o ≠ .evaluate t ∧ o ≠ .accumulate t ∧ o ≠ .initialise t := fun t => by
    cases o <;> simp_all [Operation.writes?]
  have loads : ∀ u τ, st'.load u τ = st.load u τ := fun u τ => by rw [RunState.load, RunState.load, stored]
  refine ⟨st', run, fun name shape out => (same name shape out).trans (h.same name shape out), fun {t} computed τ hτ => ?_,
    fun {s} start unsummed τ hτ => ?_, fun name' shape' idx' => ?_⟩
  · rw [loads]
    refine h.holds ?_ τ hτ
    simpa [(nothing t).1.symm, (nothing t).2.1.symm] using computed
  · rw [loads]
    refine h.started ?_ (fun early => unsummed (mem_append_left _ early)) τ hτ
    simpa [(nothing s).2.2.symm] using start
  · rw [contents, h.contents, map_append, sum_append, map_singleton, sum_singleton, ← total, add_assoc]
    simp only [at_, Option.some.injEq, eq_comm]

theorem step_give (ho : o = .give v e) : Advances env size given T ρ done o st is := by
  subst ho
  have mem : .give v e ∈ done ++ .give v e :: rest := by simp
  obtain ⟨target, scalar, sub⟩ := work.give mem
  refine step_add work h target rfl (fun _ _ => rfl) (by simp [Operation.refs]) scalar (fun σ hσ => ?_) fun p => ?_
  · exact (Valuation.mem_ranging.1 hσ).2.mono fun i hi => (loops i).2 (sub hi)
  · exact ((Valuation.ranging_perm ρ loops).map _).sum_eq

theorem step_giveSum (ho : o = .giveSum v s) : Advances env size given T ρ done o st is := by
  subst ho
  have mem : .giveSum v s ∈ done ++ .giveSum v s :: rest := by simp
  obtain ⟨target, reach, sum, free⟩ := work.giveSum mem
  cases s with
  | indexSum body bs =>
    have fits : BindersFit (fun i => some (size i : Int)) body bs := (work.readable _ reach).fits
    refine step_add work h target rfl (fun _ _ => rfl) (x := body) mem_cons_self fits.scalar (fun σ hσ => ?_) fun p => ?_
    · exact (Valuation.mem_ranging.1 hσ).2.mono fun i hi => (loops i).2 hi
    · -- the entry addressed does not change while the binders run
      have inner : ∀ τ : Valuation, ((τ.ranging bs).map fun σ =>
          if placeOf env σ v = some p then body.value env σ [] else 0).sum =
            if placeOf env τ v = some p then (indexSum body bs).value env τ [] else 0 := by
        intro τ
        have same : ∀ σ ∈ τ.ranging bs, placeOf env σ v = placeOf env τ v := fun σ hσ =>
          target.placeOf_agree fun i hi =>
            Valuation.eq_of_mem_ranging hσ (mem_freeIndices_indexSum.1 ((free i).1 hi)).2
        rw [map_congr_left fun σ hσ => by rw [same σ hσ], value_indexSum]
        split
        · rfl
        · simp
      rw [sum_summand fits loops ρ, map_congr_left fun τ _ => inner τ]
      exact ((Valuation.ranging_perm ρ fun i => (free i).symm).map _).sum_eq
  | _ => cases sum

theorem step : Advances env size given T ρ done o st is := by
  cases ho : o with
  | evaluate e => exact ho ▸ step_evaluate work h loops ho
  | initialise s => exact ho ▸ step_initialise work h loops ho
  | accumulate s => exact ho ▸ step_accumulate work h loops ho
  | give v e => exact ho ▸ step_give work h loops ho
  | giveSum v s => exact ho ▸ step_giveSum work h loops ho
  | hold e =>
    refine ⟨st, ?_, h.same, fun computed => h.holds (by simpa using computed), fun start unsummed => ?_, ?_⟩
    · induction ρ.ranging (bindersOf size is) with
      | nil => rfl
      | cons σ σs ih => simpa [Operation.run] using ih
    · exact h.started (by simpa using start) fun early => unsummed (mem_append_left _ early)
    · simpa [Operation.contribution] using h.contents

end Step

/-- Operations carried out one after the other, from contents of variables alone. -/
theorem run {ops : List (Operation K)} (work : Workload env size given roots T ops) (order : IndexOrder)
    (ρ : Valuation) :
    ∃ st, Statement.runAll T env size (ops.map fun op => (op.loops order, op)) ρ ⟨env.tensor, fun _ _ => none⟩ = some st ∧
      Progress env size given ρ ops st := by
  rw [Statement.runAll, foldlM_map]
  refine foldlM_invariant (P := fun done st => Progress env size given ρ done st) ?_ ⟨fun _ _ _ => rfl, ?_, ?_, ?_⟩
  · rintro done o rest st rfl inv
    exact step work inv fun i => Operation.mem_loops
  · simp
  · simp
  · simp

end Progress

end FormCompiler
