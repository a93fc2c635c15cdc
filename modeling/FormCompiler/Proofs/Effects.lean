import FormCompiler.Proofs.Fusion
import FormCompiler.Proofs.Reading

/-!
# What operations do to a run

An operation stores one entry of a temporary or adds to one entry of a variable. Its effect is found by reading, and
depends on the temporaries that it reads, at the positions of the loops around it. Two operations at different
positions of a loop that they share commute, since all that is done for a temporary comes before all that reads it:
these are the facts that allow loops to be shared.
-/

namespace FormCompiler

open FormCompiler.Expr List

open FormCompiler.Valuation (InRange Agree)

variable {K : Type} [Scalar K] [Field K]

/-! ## Effects -/

/-- What one operation does to a run. -/
inductive Effect (K : Type) where
  | keep
  | put (e : Expr K) (ρ : Valuation) (f : List Int → Option K)
  | add (p : VarEntry) (x : K)

/-- The run after an effect. -/
def Effect.apply : Effect K → RunState K → RunState K
  | .keep, st => st
  | .put e ρ f, st => st.store e ρ f
  | .add p x, st => st.addTo p x

/-- The effect of an operation, found by reading. -/
def Operation.effect (T : List (Expr K)) (env : Environment K) (ρ : Valuation) (st : RunState K) :
    Operation K → Option (Effect K)
  | .evaluate e =>
    let f := e.readNode T env st ρ
    if completeTable e.shape f then some (.put e ρ (cropped e.shape f)) else none
  | .initialise s => some (.put s ρ fun _ => some 0)
  | .accumulate s => do
    let x ← (st.load s ρ).bind (· [])
    let y ← (summand s).read T env st ρ []
    return .put s ρ fun _ => some (x + y)
  | .hold _ => some .keep
  | .give v e => do
    let p ← placeOf (st.environment env) ρ v
    return .add p (← e.read T env st ρ [])
  | .giveSum v s => do
    let p ← placeOf (st.environment env) ρ v
    return .add p (← (summand s).read T env st ρ [])

theorem Operation.run_eq (T : List (Expr K)) (env : Environment K) (ρ : Valuation) (st : RunState K)
    (op : Operation K) : op.run T env ρ st = (op.effect T env ρ st).map fun a => a.apply st := by
  cases op with
  | evaluate e =>
    simp only [run, effect]
    split <;> rfl
  | initialise s => rfl
  | accumulate s =>
    simp only [run, effect]
    cases (st.load s ρ).bind (· []) with
    | none => rfl
    | some x => cases (summand s).read T env st ρ [] <;> rfl
  | hold e => rfl
  | give v e =>
    simp only [run, effect]
    cases placeOf (st.environment env) ρ v with
    | none => rfl
    | some p => cases e.read T env st ρ [] <;> rfl
  | giveSum v s =>
    simp only [run, effect]
    cases placeOf (st.environment env) ρ v with
    | none => rfl
    | some p => cases (summand s).read T env st ρ [] <;> rfl

/-- Operations commute if neither changes the effect of the other, and the effects commute. -/
theorem commutes_of_effects {f g : RunState K → Option (Effect K)}
    (hf : ∀ st b, g st = some b → f (b.apply st) = f st) (hg : ∀ st a, f st = some a → g (a.apply st) = g st)
    (both : ∀ st a b, f st = some a → g st = some b → a.apply (b.apply st) = b.apply (a.apply st)) :
    Commutes (fun st => (f st).map fun a => a.apply st) (fun st => (g st).map fun a => a.apply st) := by
  intro st
  cases ha : f st with
  | none =>
    cases hb : g st with
    | none => simp [ha, hb]
    | some b => simp [hf st b hb, ha, hb]
  | some a =>
    cases hb : g st with
    | none => simp [hg st a ha, ha, hb]
    | some b => simp [hf st b hb, hg st a ha, ha, hb, both st a b ha hb]

section Apply

variable [Exact K]

theorem RunState.stored_store (st : RunState K) (e e' : Expr K) (ρ : Valuation) (f : List Int → Option K)
    (at_ : List Int) :
    (st.store e ρ f).stored e' at_ = if e' = e ∧ at_ = ρ.on e.freeIndices then some f else st.stored e' at_ := by
  simp [store]

theorem RunState.load_store (st : RunState K) (e e' : Expr K) (ρ σ : Valuation) (f : List Int → Option K) :
    (st.store e ρ f).load e' σ = if e' = e ∧ Agree e.freeIndices σ ρ then some f else st.load e' σ := by
  rw [load, stored_store]
  by_cases same : e' = e
  · subst same
    simp only [Valuation.on_eq_on]
    rfl
  · simp [load, same]

/-- Effects commute unless they store the same entry. -/
theorem Effect.apply_comm {a b : Effect K} (st : RunState K)
    (apart : ∀ e ρ f σ g, a = .put e ρ f → b = .put e σ g → ¬ Agree e.freeIndices ρ σ) :
    a.apply (b.apply st) = b.apply (a.apply st) := by
  cases a with
  | keep => rfl
  | put e ρ f =>
    cases b with
    | keep => rfl
    | add p x => rfl
    | put e' σ g =>
      refine congrArg (RunState.mk st.contents) (funext fun t => funext fun at_ => ?_)
      change ((st.store e' σ g).store e ρ f).stored t at_ = ((st.store e ρ f).store e' σ g).stored t at_
      rw [RunState.stored_store, RunState.stored_store, RunState.stored_store, RunState.stored_store]
      split_ifs with first second
      · obtain ⟨rfl, here⟩ := first
        obtain ⟨rfl, there⟩ := second
        exact absurd (Valuation.on_eq_on.1 (here.symm.trans there)) (apart t ρ f σ g rfl rfl)
      all_goals rfl
  | add p x =>
    cases b with
    | keep => rfl
    | put e σ g => rfl
    | add q y =>
      simp only [apply, RunState.addTo, RunState.mk.injEq, and_true]
      funext name shape idx
      rw [add_right_comm]

end Apply

/-! ## What effects depend on -/

/-- What a sum may be added to: an entry of a variable that is given back. -/
def Expr.Target (given : String → Shape → Prop) (v : Expr K) : Prop :=
  ∃ name shape, given name shape ∧ (v = .var name shape ∨
    (∃ slots, v = .indexed (.var name shape) slots ∧ ∀ r, .runtime r ∈ slots → Lookup given r) ∨
    ∃ dims, v = .access name shape dims)

namespace Operation

/-- The temporary that an operation stores an entry of. -/
def writes? : Operation K → Option (Expr K)
  | .evaluate e | .initialise e | .accumulate e => some e
  | _ => none

/-- The temporaries that an operation reads entries of. -/
def Reads (T : List (Expr K)) (op : Operation K) (t : Expr K) : Prop :=
  (∃ x ∈ op.refs, x.Meets T t) ∨ op = .accumulate t

end Operation

variable [Exact K]

section Target

variable {given : String → Shape → Prop} {v : Expr K}

omit [Exact K] in
/-- A target addresses an entry of a variable that is given back. -/
theorem Expr.Target.place (h : v.Target given) :
    ∃ name shape, given name shape ∧ ∀ env ρ, ∃ idx, placeOf env ρ v = some ⟨name, shape, idx⟩ := by
  obtain ⟨name, shape, mem, rfl | ⟨slots, rfl, -⟩ | ⟨dims, rfl⟩⟩ := h <;>
    exact ⟨name, shape, mem, fun env ρ => ⟨_, rfl⟩⟩

/-- Which entry it is depends on no variable that is given back. -/
theorem Expr.Target.placeOf_congr (h : v.Target given) (env : Environment K) {c c' : String → Shape → List Int → K}
    (same : AgreeBut given c c') (ρ : Valuation) :
    placeOf { env with tensor := c } ρ v = placeOf { env with tensor := c' } ρ v := by
  obtain ⟨name, shape, -, rfl | ⟨slots, rfl, lookup⟩ | ⟨dims, rfl⟩⟩ := h
  · rfl
  · refine congrArg (fun idx => some (VarEntry.mk name shape idx)) (map_congr_left fun s hs => ?_)
    cases s with
    | fixed n => rfl
    | free i => rfl
    | runtime r =>
      obtain ⟨name, shape, idx, out, -, val⟩ := (lookup r hs).entry (T := []) (by simp)
      simp only [position, val, same name shape out]
  · rfl

end Target

/-- Operations that can be carried out: they are arranged, what they refer to can be read, and what they give has the
indices of its target. -/
structure Workload (env : Environment K) (size : Index → Nat) (given : String → Shape → Prop) (roots T : List (Expr K))
    (ops : List (Operation K)) : Prop extends Arranged T ops where
  readable : ∀ e, Reachable roots e → e.Readable env size given
  subject {o : Operation K} {x : Expr K} : o ∈ ops → o.subject? = some x → Reachable roots x
  ref {o : Operation K} {x : Expr K} : o ∈ ops → x ∈ o.refs → Reachable roots x
  give {v e : Expr K} : .give v e ∈ ops → v.Target given ∧ e.shape = [] ∧ e.freeIndices ⊆ v.freeIndices
  giveSum {v s : Expr K} : .giveSum v s ∈ ops → v.Target given ∧ Reachable roots s ∧ s.isSum = true ∧
    ∀ i, i ∈ v.freeIndices ↔ i ∈ s.freeIndices

namespace Workload

variable {env : Environment K} {size : Index → Nat} {given : String → Shape → Prop} {roots T : List (Expr K)}
  {ops : List (Operation K)} {o : Operation K}

omit [Exact K] in
/-- An effect stores an entry of the temporary that the operation writes, or adds to a variable that is given back. -/
theorem effect_cases (work : Workload env size given roots T ops) (ho : o ∈ ops) {ρ : Valuation} {st : RunState K}
    {a : Effect K} (h : o.effect T env ρ st = some a) :
    a = .keep ∨ (∃ t f, o.writes? = some t ∧ a = .put t ρ f) ∨ ∃ p x, given p.name p.shape ∧ a = .add p x := by
  have add : ∀ {v : Expr K} {x : K} {p : VarEntry}, v.Target given → placeOf (st.environment env) ρ v = some p →
      given p.name p.shape := by
    intro v x p target found
    obtain ⟨name, shape, mem, place⟩ := target.place
    obtain ⟨idx, at_⟩ := place (st.environment env) ρ
    rw [at_] at found
    cases found
    exact mem
  cases o with
  | evaluate e =>
    simp only [Operation.effect] at h
    split at h
    · cases h
      exact .inr (.inl ⟨e, _, rfl, rfl⟩)
    · cases h
  | initialise s =>
    cases h
    exact .inr (.inl ⟨s, _, rfl, rfl⟩)
  | accumulate s =>
    obtain ⟨x, -, h⟩ := Option.bind_eq_some_iff.1 h
    obtain ⟨y, -, h⟩ := Option.bind_eq_some_iff.1 h
    cases h
    exact .inr (.inl ⟨s, _, rfl, rfl⟩)
  | hold e =>
    cases h
    exact .inl rfl
  | give v e =>
    obtain ⟨p, hp, h⟩ := Option.bind_eq_some_iff.1 h
    obtain ⟨x, -, h⟩ := Option.bind_eq_some_iff.1 h
    cases h
    exact .inr (.inr ⟨p, x, add (x := x) (work.give ho).1 hp, rfl⟩)
  | giveSum v s =>
    obtain ⟨p, hp, h⟩ := Option.bind_eq_some_iff.1 h
    obtain ⟨x, -, h⟩ := Option.bind_eq_some_iff.1 h
    cases h
    exact .inr (.inr ⟨p, x, add (x := x) (work.giveSum ho).1 hp, rfl⟩)

/-- The effect of an operation depends on the temporaries that it reads, at positions that agree with those of its
loops. -/
theorem effect_congr (work : Workload env size given roots T ops) (ho : o ∈ ops) {ρ : Valuation} {st st' : RunState K}
    (same : AgreeBut given st.contents st'.contents)
    (loads : ∀ t, o.Reads T t → ∀ σ, Agree o.loopExpr.freeIndices σ ρ → st.load t σ = st'.load t σ) :
    o.effect T env ρ st = o.effect T env ρ st' := by
  have read : ∀ x ∈ o.refs, ∀ σ, Agree o.loopExpr.freeIndices σ ρ → ∀ idx,
      x.read T env st σ idx = x.read T env st' σ idx := fun x hx σ agree idx =>
    (work.plain ho hx).read_congr work.computed work.readable same (work.ref ho hx)
      (fun t meets => loads t (.inl ⟨x, hx, meets⟩) σ agree) idx
  have here : ∀ x ∈ o.refs, ∀ idx, x.read T env st ρ idx = x.read T env st' ρ idx :=
    fun x hx idx => read x hx ρ (fun _ _ => rfl) idx
  have place : ∀ {v : Expr K}, v.Target given →
      placeOf (st.environment env) ρ v = placeOf (st'.environment env) ρ v :=
    fun target => target.placeOf_congr env same ρ
  cases o with
  | evaluate e =>
    have node : e.readNode T env st ρ = e.readNode T env st' ρ := by
      funext idx
      refine readNode_congr work.computed work.readable same (work.subject ho rfl) (work.evaluated ho).1 ?_ idx
      rintro c hc σ (rfl | ⟨-, agree⟩) idx
      · exact here c hc idx
      · exact read c hc σ agree idx
    simp only [Operation.effect, node]
  | initialise s => rfl
  | accumulate s =>
    simp only [Operation.effect, loads s (.inr rfl) ρ fun _ _ => rfl, here (Operation.summand s) (by simp [Operation.refs])]
  | hold e => rfl
  | give v e => simp only [Operation.effect, place (work.give ho).1, here e (by simp [Operation.refs])]
  | giveSum v s =>
    simp only [Operation.effect, place (work.giveSum ho).1, here (Operation.summand s) (by simp [Operation.refs])]

/-! ## Shared loops -/

section Shared

variable {os : List (Operation K)} {i : Index} {a b : Operation K} {t : Expr K}

omit [Exact K] in
/-- A temporary that neighbours write and then read has the indices that they loop over: the place that is held after a
sum stands between. -/
theorem mem_freeIndices_of_reads (work : Workload env size given roots T ops) (part : os <:+: ops)
    (all : ∀ o ∈ os, i ∈ o.loopExpr.freeIndices) (hab : Before os a b) (writes : a.writes? = some t)
    (reads : b.Reads T t) : i ∈ t.freeIndices := by
  have mem : ∀ o ∈ os, o ∈ ops := fun o ho => part.subset ho
  cases a with
  | evaluate e =>
    cases writes
    exact all _ hab.left
  | initialise s =>
    cases writes
    exact all _ hab.left
  | accumulate s =>
    cases writes
    obtain ⟨-, -, held⟩ := work.sum (mem _ hab.left) (.inr (.inl rfl))
    rcases reads with ⟨x, hx, meets⟩ | rfl
    · have after := work.before (mem b hab.right) hx meets held.right rfl
      exact all _ (held.mem_of_infix work.nodup part hab.left hab.right after)
    · exact absurd hab (Before.asymm (work.nodup.sublist part.sublist) hab)
  | hold e => cases writes
  | give v e => cases writes
  | giveSum v s => cases writes

omit [Exact K] in
/-- No operation reads a temporary that a later one writes. -/
theorem not_reads_of_before (work : Workload env size given roots T ops) (hab : Before ops a b)
    (writes : b.writes? = some t) : ¬ a.Reads T t := by
  have about : b.subject? = some t := by cases b <;> first | exact writes | cases writes
  rintro (⟨x, hx, meets⟩ | rfl)
  · exact Before.asymm work.nodup hab (work.before hab.left hx meets hab.right about)
  · obtain ⟨sum, first, -⟩ := work.sum hab.left (.inr (.inl rfl))
    cases b with
    | evaluate e =>
      cases writes
      simp [(work.evaluated hab.right).1] at sum
    | initialise s =>
      cases writes
      exact Before.asymm work.nodup hab first
    | accumulate s =>
      cases writes
      exact Before.asymm work.nodup hab hab
    | _ => cases writes

omit [Exact K] in
/-- Two operations that write the same temporary: one starts it. -/
theorem mem_freeIndices_of_writes (work : Workload env size given roots T ops) (part : os <:+: ops)
    (all : ∀ o ∈ os, i ∈ o.loopExpr.freeIndices) (hab : Before os a b) (first : a.writes? = some t)
    (second : b.writes? = some t) : i ∈ t.freeIndices := by
  cases a with
  | evaluate e =>
    cases first
    exact all _ hab.left
  | initialise s =>
    cases first
    exact all _ hab.left
  | accumulate s =>
    cases first
    exact absurd (.inr rfl) (work.not_reads_of_before (List.Sublist.trans hab part.sublist) second)
  | _ => cases first

/-- Operations at different positions of a loop that they share commute. -/
theorem commutes (work : Workload env size given roots T ops) (part : os <:+: ops)
    (all : ∀ o ∈ os, i ∈ o.loopExpr.freeIndices) (hab : Before os a b) {ρ σ : Valuation} (apart : ρ i ≠ σ i) :
    Commutes (b.run T env ρ) (a.run T env σ) := by
  have later : Before ops a b := List.Sublist.trans hab part.sublist
  have unmoved : ∀ (p : VarEntry) (x : K) (st : RunState K), given p.name p.shape →
      AgreeBut given (st.addTo p x).contents st.contents := by
    intro p x st mem name shape out
    funext idx
    have : ¬ (⟨name, shape, idx⟩ : VarEntry) = p := by
      rintro rfl
      exact out mem
    simp [RunState.addTo, this]
  have runs : ∀ (o : Operation K) (τ : Valuation), o.run T env τ = fun st => (o.effect T env τ st).map fun e => e.apply st :=
    fun o τ => funext fun st => o.run_eq T env τ st
  rw [runs, runs]
  refine commutes_of_effects (fun st e found => ?_) (fun st e found => ?_) fun st e e' found found' => ?_
  · -- what the earlier one stores at its position is not read at the other
    rcases work.effect_cases later.left found with rfl | ⟨t, f, writes, rfl⟩ | ⟨p, x, mem, rfl⟩
    · rfl
    · refine work.effect_congr later.right (fun _ _ _ => rfl) fun u reads τ agree => ?_
      rw [Effect.apply, RunState.load_store, if_neg]
      rintro ⟨rfl, same⟩
      have hi := work.mem_freeIndices_of_reads part all hab writes reads
      exact apart ((agree i (all b hab.right)).symm.trans (same i hi))
    · exact work.effect_congr later.right (unmoved p x st mem) fun u _ τ _ => rfl
  · -- the earlier one does not read what the later one stores
    rcases work.effect_cases later.right found with rfl | ⟨t, f, writes, rfl⟩ | ⟨p, x, mem, rfl⟩
    · rfl
    · refine work.effect_congr later.left (fun _ _ _ => rfl) fun u reads τ agree => ?_
      rw [Effect.apply, RunState.load_store, if_neg]
      rintro ⟨rfl, -⟩
      exact work.not_reads_of_before later writes reads
    · exact work.effect_congr later.left (unmoved p x st mem) fun u _ τ _ => rfl
  · refine Effect.apply_comm st fun t τ f τ' g put put' agree => ?_
    subst put put'
    rcases work.effect_cases later.right found with h | ⟨u, f', writes, h⟩ | ⟨p, x, -, h⟩ <;> cases h
    rcases work.effect_cases later.left found' with h | ⟨u', f'', writes', h⟩ | ⟨p, x, -, h⟩ <;> cases h
    exact apart (agree i (work.mem_freeIndices_of_writes part all hab writes' writes))

/-- Operations that can be carried out may share loops. -/
theorem fusible (work : Workload env size given roots T ops) (order : IndexOrder) :
    Statement.Fusible T env (ops.map fun op => (op.loops order, op)) := by
  intro qs part i all
  obtain ⟨l, r, parts⟩ := part
  obtain ⟨front, rest, rfl, hfront, -⟩ := map_eq_append_iff.1 parts.symm
  obtain ⟨before, os, rfl, -, rfl⟩ := map_eq_append_iff.1 hfront
  refine pairwise_map.2 (pairwise_iff_forall_sublist.2 fun {a b} hab ρ σ apart => ?_)
  have part : os <:+: before ++ os ++ rest := ⟨before, rest, rfl⟩
  refine work.commutes part (fun o ho => ?_) hab apart
  exact Operation.mem_loops.1 (all _ (mem_map_of_mem ho))

end Shared

end Workload

end FormCompiler
