import FormCompiler.Proofs.Entries
import FormCompiler.Proofs.Execution
import FormCompiler.Proofs.Temporaries

/-!
# Reading gives the value

An expression that is read while its temporaries hold their values gives its value. What is read depends on the
temporaries that are met on the way down, at the positions of the reading, and on variables that are not given back.
-/

namespace FormCompiler

open List

open FormCompiler.Valuation (InRange)

/-! ## Entries of a shape -/

section Entries

theorem within_ofNats {extents idx : List Nat} (h : Forall₂ (· < ·) idx extents) :
    within (Shape.ofNats extents) (idx.map Int.ofNat) = true := by
  induction h with
  | nil => rfl
  | cons lt _ ih =>
    refine within_cons.2 ⟨⟨by simp, ?_⟩, ih⟩
    intro m hm
    cases hm
    exact Int.ofNat_lt.2 lt

/-- Binders at an entry of their tensor stand in range. -/
theorem Valuation.inRange_bind {size : Index → Nat} {is : List Index} {bs : List Binder} {ρ : Valuation} {idx : List Int}
    (extents : ∀ b ∈ bs, b.2 = size b.1) (entry : within (bs.map fun b => some b.2) idx = true)
    (range : ∀ i ∈ is, i ∉ bs.map Prod.fst → 0 ≤ ρ i ∧ ρ i < size i) : InRange size is (ρ.bind bs idx) := by
  induction bs generalizing ρ idx with
  | nil => exact fun i hi => range i hi (by simp)
  | cons b bs ih =>
    cases idx with
    | nil => cases entry
    | cons v vs =>
      obtain ⟨⟨nonneg, below⟩, rest⟩ := within_cons.1 entry
      refine ih (fun c hc => extents c (mem_cons_of_mem _ hc)) rest fun i hi hbs => ?_
      by_cases same : i = b.1
      · subst same
        rw [set_self, headD_cons, ← extents b mem_cons_self]
        exact ⟨nonneg, below _ rfl⟩
      · rw [set_of_ne ρ _ same]
        exact range i hi (by simp [same, hbs])

end Entries

variable {K : Type} [Scalar K] [Field K] [Exact K]

namespace Expr

omit [Scalar K] [Field K] [Exact K] in
/-- The entry of a part lies in the part. -/
theorem within_of_partAt {ps : List (Expr K)} {idx : List Int} {p : Expr K × List Int}
    (known : (Shape.toNats? p.1.shape).isSome) (h : partAt ps idx = some p) : within p.1.shape p.2 = true := by
  obtain ⟨place, -, h⟩ := Option.bind_eq_some_iff.1 h
  obtain ⟨⟨k, inner⟩, located, h⟩ := Option.bind_eq_some_iff.1 h
  obtain ⟨c, hc, h⟩ := Option.bind_eq_some_iff.1 h
  cases h
  obtain ⟨n, hn, lt⟩ := locatePart_lt located
  obtain rfl : n = count c.extents := by simpa [hc] using hn.symm
  obtain ⟨extents, known⟩ := Option.isSome_iff_exists.1 known
  have shape : c.shape = Shape.ofNats c.extents := by
    rw [Expr.extents, known, Option.getD_some]
    exact eq_ofNats_of_toNats? known
  rw [shape]
  exact within_ofNats (unravel_lt lt)

omit [Scalar K] [Field K] [Exact K] in
theorem freeIndices_subset_of_mem_children {e c : Expr K} (hc : c ∈ e.children) (plain : e.isBinder = false) :
    c.freeIndices ⊆ e.freeIndices := by
  have none : e.ownBinders = [] := by cases e <;> first | rfl | cases plain
  exact fun i hi => mem_freeIndices_iff.2 (.inr ⟨⟨c, hc, hi⟩, by simp [none]⟩)

/-! ## Rules of reading -/

section Rules

variable {T : List (Expr K)} {env : Environment K} {st : RunState K} {e : Expr K} (ρ : Valuation) (idx : List Int)

theorem read_of_mem (h : e ∈ T) : e.read T env st ρ idx = (st.load e ρ).bind (· idx) := by
  rw [read, if_pos (contains_iff_mem.2 h)]

theorem read_of_not_mem (h : e ∉ T) : e.read T env st ρ idx = e.readNode T env st ρ idx := by
  rw [read, if_neg (fun mem => h (contains_iff_mem.1 mem))]
  rfl

omit [Exact K] in
theorem readNode_call (name : String) (args : List (Expr K)) :
    (call name args).readNode T env st ρ idx =
      (args.mapM fun a : Expr K => a.read T env st ρ []).bind fun xs => some (env.call name xs) := by
  conv_rhs => rw [← attach_map_subtype_val args, mapM_map]
  rfl

/-- The position of a slot whose expression is read. -/
def readSlot (T : List (Expr K)) (env : Environment K) (st : RunState K) (ρ : Valuation) (s : Slot (Expr K)) :
    Option Int :=
  slotAt (st.environment env) ρ s fun r _ => r.read T env st ρ []

section

omit [Exact K]

theorem readNode_indexed (t : Expr K) (slots : List (Slot (Expr K))) :
    (indexed t slots).readNode T env st ρ idx =
      (slots.mapM (readSlot T env st ρ)).bind fun positions => t.read T env st ρ positions := by
  conv_rhs => rw [← attach_map_subtype_val slots, mapM_map]
  rfl

theorem readNode_delta (i j : Slot (Expr K)) :
    (delta i j).readNode T env st ρ idx =
      (readSlot T env st ρ i).bind fun u => (readSlot T env st ρ j).bind fun v => some (if u = v then 1 else 0) := rfl

theorem readNode_listTensor (shape : List Nat) (entries : List (Expr K)) :
    (listTensor shape entries).readNode T env st ρ idx = match entryAt shape entries idx with
      | some c => c.read T env st ρ []
      | none => some 0 := by
  simp only [readNode, meaningStep]
  split
  · rename_i c h
    rw [h]
  · rename_i h
    rw [h]
    rfl

theorem readNode_concatenate (ps : List (Expr K)) :
    (concatenate ps).readNode T env st ρ idx = match partAt ps idx with
      | some (c, entry) => c.read T env st ρ entry
      | none => some 0 := by
  simp only [readNode, meaningStep]
  split
  · rename_i c entry h
    rw [h]
  · rename_i h
    rw [h]
    rfl

end

end Rules

/-! ## Nodes that can be read -/

/-- What a position at run time may be: an entry of a variable at fixed places, where the variable is not one of those
given back. -/
def Lookup (given : String → Shape → Prop) (r : Expr K) : Prop :=
  ∃ name shape, ¬ given name shape ∧ (r = .var name shape ∨
    (∃ ns : List Int, r = .indexed (.var name shape) (ns.map .fixed)) ∨
    ∃ ns : List Int, r = .access name shape (ns.map fun n => ⟨n, []⟩))

/-- Is the expression a variable? -/
def isVar : Expr K → Bool
  | .var _ _ => true
  | _ => false

/-- A node that a run can read, where some variables are given back: it is made as the constructors make it for
indices of known sizes, entries are taken within tensors that are not variables, and no variable that is given back is
read. -/
structure Readable (env : Environment K) (size : Index → Nat) (given : String → Shape → Prop) (e : Expr K) : Prop where
  fits : NodeFits (fun i => some (size i : Int)) e
  entries {t : Expr K} {slots : List (Slot (Expr K))} : e = .indexed t slots → t.isVar = false → ∀ ρ : Valuation,
    InRange size e.freeIndices ρ → within t.shape (slots.map (position env ρ)) = true
  unread {name : String} {shape : Shape} : e = .var name shape → ¬ given name shape
  lookups {r : Expr K} : r ∈ e.runtimeSlots → Lookup given r

/-- Contents that agree but for the variables that are given back. -/
def AgreeBut (given : String → Shape → Prop) (c c' : String → Shape → List Int → K) : Prop :=
  ∀ name shape, ¬ given name shape → c name shape = c' name shape

section Closed

omit [Scalar K] [Field K] [Exact K] in
theorem Lookup.closed {given : String → Shape → Prop} {r : Expr K} (h : Lookup given r) :
    Everywhere RuntimeClosed r := by
  have var : ∀ name shape, Everywhere RuntimeClosed (.var name shape : Expr K) := fun name shape =>
    .node (by simp [RuntimeClosed, runtimeSlots]) (by simp [parts, children, runtimeSlots])
  obtain ⟨name, shape, -, rfl | ⟨ns, rfl⟩ | ⟨ns, rfl⟩⟩ := h
  · exact var name shape
  · have none : (ns.map Slot.fixed).filterMap Slot.expr? = ([] : List (Expr K)) := by
      simp [filterMap_eq_nil_iff, Slot.expr?]
    refine .node ?_ ?_
    · simp [RuntimeClosed, runtimeSlots, none]
    · simpa [parts, children, runtimeSlots, none] using var name shape
  · refine .node (by simp [RuntimeClosed, runtimeSlots]) ?_
    simpa [parts, children, runtimeSlots] using var name shape

omit [Scalar K] [Field K] [Exact K] in
/-- A property of all parts of the roots is one of all parts of what is reachable from them. -/
theorem Reachable.everywhere {P : Expr K → Prop} {roots : List (Expr K)} {e : Expr K} (h : Reachable roots e)
    (all : ∀ r ∈ roots, Everywhere P r) : Everywhere P e := by
  induction h with
  | root mem => exact all _ mem
  | child _ mem ih => exact ih.child mem

/-- What can be read has a value that depends on its free indices alone. -/
theorem Reachable.closed {env : Environment K} {size : Index → Nat} {given : String → Shape → Prop}
    {roots : List (Expr K)} (readable : ∀ e, Reachable roots e → Readable env size given e) {e : Expr K}
    (h : Reachable roots e) : Everywhere RuntimeClosed e :=
  .node (readable e h).fits.runtimeClosed fun c hc =>
    if child : c ∈ e.children then
      have := sizeOf_lt_of_mem_children child
      Reachable.closed readable (.child h child)
    else ((readable e h).lookups ((mem_append.1 hc).resolve_left child)).closed
termination_by sizeOf e

end Closed

section Values

variable {T : List (Expr K)} {env : Environment K} {size : Index → Nat} {given : String → Shape → Prop}
  {st : RunState K} (computed : ∀ t ∈ T, t.isSum = true ∨ t.isComputed = true)
include computed

/-- A lookup reads one entry of a variable that is not given back. -/
theorem Lookup.entry {r : Expr K} (h : Lookup given r) :
    ∃ name shape idx, ¬ given name shape ∧ (∀ env st ρ, r.read T env st ρ [] = some (st.contents name shape idx)) ∧
      ∀ (env : Environment K) ρ, value env r ρ [] = env.tensor name shape idx := by
  have absent : ∀ x : Expr K, x.isSum = false → x.isComputed = false → x ∉ T := by
    intro x sum plain mem
    simpa [sum, plain] using computed x mem
  obtain ⟨name, shape, out, rfl | ⟨ns, rfl⟩ | ⟨ns, rfl⟩⟩ := h
  · refine ⟨name, shape, [], out, fun env st ρ => ?_, fun env ρ => value_var env ρ [] name shape⟩
    rw [read_of_not_mem ρ [] (absent _ rfl rfl)]
    rfl
  · refine ⟨name, shape, ns, out, fun env st ρ => ?_, fun env ρ => ?_⟩
    · have fixed : (ns.map .fixed).mapM (readSlot T env st ρ) = some ns := by
        rw [mapM_map]
        exact (mapM_eq_pure fun n _ => rfl).trans (by simp)
      rw [read_of_not_mem ρ [] (absent _ rfl rfl), readNode_indexed, fixed, Option.bind_some,
        read_of_not_mem ρ ns (absent _ rfl rfl)]
      rfl
    · rw [value_indexed, value_var, map_map]
      simp [Function.comp_def, position]
  · refine ⟨name, shape, ns, out, fun env st ρ => ?_, fun env ρ => ?_⟩
    · rw [read_of_not_mem ρ [] (absent _ rfl rfl)]
      simp [readNode, meaningStep, DimAccess.at, RunState.environment, Function.comp_def]
    · simp [DimAccess.at, Function.comp_def]

variable {s : Slot (Expr K)} {st' : RunState K} {e : Expr K} {ρ : Valuation} {idx : List Int}

theorem readSlot_eq_position (lookup : ∀ r, s = .runtime r → Lookup given r)
    (same : AgreeBut given st.contents env.tensor) (ρ : Valuation) :
    readSlot T env st ρ s = some (position env ρ s) := by
  cases s with
  | fixed n => rfl
  | free i => rfl
  | runtime r =>
    obtain ⟨name, shape, idx, out, read, val⟩ := (lookup r rfl).entry computed
    simp only [readSlot, slotAt, position, read, val, same name shape out]
    rfl

theorem readSlot_congr (lookup : ∀ r, s = .runtime r → Lookup given r)
    (same : AgreeBut given st.contents st'.contents) (ρ : Valuation) :
    readSlot T env st ρ s = readSlot T env st' ρ s := by
  cases s with
  | fixed n => rfl
  | free i => rfl
  | runtime r =>
    obtain ⟨name, shape, idx, out, read, val⟩ := (lookup r rfl).entry computed
    simp only [readSlot, slotAt, read, same name shape out]
    rfl

/-- A node that is no sum is computed to its value, if its parts are. -/
theorem readNode_eq_value (same : AgreeBut given st.contents env.tensor)
    (readable : Readable env size given e) (below : ∀ c ∈ e.children, Readable env size given c)
    (plain : e.isSum = false)
    (child : ∀ c ∈ e.children, ∀ (σ : Valuation) idx, InRange size c.freeIndices σ →
      within c.shape idx = true ∨ c.isVar = true → c.read T env st σ idx = some (value env c σ idx)) (range : InRange size e.freeIndices ρ)
    (entry : within e.shape idx = true ∨ e.isVar = true) :
    e.readNode T env st ρ idx = some (value env e ρ idx) := by
  have scalar : ∀ c ∈ e.children, c.shape = [] → e.isBinder = false →
      c.read T env st ρ [] = some (value env c ρ []) := by
    intro c hc shape binder
    refine child c hc ρ [] (range.mono (freeIndices_subset_of_mem_children hc binder)) (.inl ?_)
    rw [shape]
    rfl
  have fits := readable.fits
  cases e with
  | var name shape =>
    have := same name shape (readable.unread rfl)
    simp [readNode, meaningStep, RunState.environment, this]
  | access name shape dims =>
    have := same name shape ((below _ (by simp [children])).unread rfl)
    simp [readNode, meaningStep, RunState.environment, this]
  | binary op a b =>
    simp only [readNode, meaningStep, scalar a (by simp [children]) fits.1 rfl,
      scalar b (by simp [children]) fits.2 rfl, value_binary]
    rfl
  | negation a =>
    simp only [readNode, meaningStep, scalar a (by simp [children]) fits rfl, value_negation]
    rfl
  | call name args =>
    have values : (args.mapM fun a : Expr K => a.read T env st ρ []) = some (args.map fun a => value env a ρ []) :=
      mapM_eq_pure fun a ha => scalar a ha (fits a ha) rfl
    rw [readNode_call, values, value_call]
    rfl
  | conditional c y n =>
    have entry : within y.shape idx = true := by simpa [isVar, shape] using entry
    have yes := child y (by simp [children]) ρ idx
      (range.mono (freeIndices_subset_of_mem_children (by simp [children]) rfl)) (.inl entry)
    have no := child n (by simp [children]) ρ idx
      (range.mono (freeIndices_subset_of_mem_children (by simp [children]) rfl)) (.inl (fits.2 ▸ entry))
    simp only [readNode, meaningStep, scalar c (by simp [children]) fits.1 rfl, yes, no, value_conditional]
    rfl
  | indexed t slots =>
    have positions : slots.mapM (readSlot T env st ρ) = some (slots.map (position env ρ)) :=
      mapM_eq_pure fun s hs => readSlot_eq_position computed (fun r hr => readable.lookups
        (mem_runtimeSlots_indexed.2 (hr ▸ hs))) same ρ
    rw [readNode_indexed, positions, Option.bind_some, value_indexed]
    refine child t (by simp [children]) ρ _
      (range.mono (freeIndices_subset_of_mem_children (by simp [children]) rfl)) ?_
    cases h : t.isVar with
    | true => exact .inr rfl
    | false => exact .inl (readable.entries rfl h ρ range)
  | componentTensor body bs =>
    rw [value_componentTensor]
    refine child body (by simp [children]) _ [] ?_ (.inl (by rw [fits.scalar]; rfl))
    refine Valuation.inRange_bind (fun b hb => ?_) (by simpa [isVar, shape] using entry) fun i hi hbs => ?_
    · exact (Option.some.inj (fits.extent hb)).symm
    · exact range i (mem_freeIndices_componentTensor.2 ⟨hi, hbs⟩)
  | indexSum body bs => cases plain
  | listTensor shape entries =>
    rw [readNode_listTensor, value_listTensor]
    cases hc : entryAt shape entries idx with
    | none => rfl
    | some c => exact scalar c (mem_of_entryAt hc) (fits.2 c (mem_of_entryAt hc)) rfl
  | concatenate ps =>
    rw [readNode_concatenate, value_concatenate]
    cases hc : partAt ps idx with
    | none => rfl
    | some p =>
      have mem := mem_of_partAt hc
      exact child p.1 mem ρ p.2 (range.mono (freeIndices_subset_of_mem_children mem rfl))
        (.inl (within_of_partAt (fits p.1 mem) hc))
  | delta i j =>
    rw [readNode_delta, value_delta,
      readSlot_eq_position computed (fun r hr => readable.lookups (mem_runtimeSlots_delta.2 (.inl hr))) same ρ,
      readSlot_eq_position computed (fun r hr => readable.lookups (mem_runtimeSlots_delta.2 (.inr hr))) same ρ]
    rfl
  | failure shape kind text serial => simp [readNode, meaningStep, RunState.environment]
  | _ => simp [readNode, meaningStep]

/-- A temporary holds its value at all positions in range. -/
def Holds (env : Environment K) (size : Index → Nat) (st : RunState K) (t : Expr K) : Prop :=
  ∀ ρ : Valuation, InRange size t.freeIndices ρ →
    ∃ f, st.load t ρ = some f ∧ ∀ idx, within t.shape idx = true → f idx = some (value env t ρ idx)

variable {roots : List (Expr K)} (readable : ∀ e, Reachable roots e → Readable env size given e)
include readable

variable {x : Expr K}

/-- An expression reads as its value, if the temporaries that are met hold theirs. -/
theorem Plain.read_eq_value (same : AgreeBut given st.contents env.tensor) (plain : x.Plain T)
    (reach : Reachable roots x) (holds : ∀ t, x.Meets T t → t.Holds env size st)
    (range : InRange size x.freeIndices ρ) (entry : within x.shape idx = true ∨ x.isVar = true) :
    x.read T env st ρ idx = some (value env x ρ idx) := by
  induction plain generalizing ρ idx with
  | @temporary x mem =>
    obtain ⟨f, found, entries⟩ := holds x (.here mem) ρ range
    rw [read_of_mem ρ idx mem, found, Option.bind_some]
    refine entries idx (entry.resolve_right fun var => ?_)
    cases x with
    | var name shape => simpa [isSum, isComputed] using computed _ mem
    | _ => cases var
  | @node x absent binder _ ih =>
    rw [read_of_not_mem ρ idx absent]
    refine readNode_eq_value computed same (readable x reach) (fun c hc => readable c (.child reach hc)) ?_
      (fun c hc σ idx range entry => ?_) range entry
    · cases x <;> simp_all [isBinder, isSum]
    · exact ih c hc (.child reach hc) (fun t meets => holds t (.under absent hc meets)) range entry

/-- What a node that is no sum is computed to depends on its parts, read at positions that agree on its indices. -/
theorem readNode_congr (same : AgreeBut given st.contents st'.contents) (reach : Reachable roots e) (plain : e.isSum = false)
    (child : ∀ c ∈ e.children, ∀ σ, σ = ρ ∨ e.isBinder = true ∧ Valuation.Agree e.freeIndices σ ρ →
      ∀ idx, c.read T env st σ idx = c.read T env st' σ idx) (idx : List Int) :
    e.readNode T env st ρ idx = e.readNode T env st' ρ idx := by
  have here : ∀ c ∈ e.children, ∀ idx, c.read T env st ρ idx = c.read T env st' ρ idx :=
    fun c hc idx => child c hc ρ (.inl rfl) idx
  have lookups := fun r hr => (readable e reach).lookups (r := r) hr
  cases e with
  | var name shape =>
    have := same name shape ((readable _ reach).unread rfl)
    simp [readNode, meaningStep, RunState.environment, this]
  | access name shape dims =>
    have := same name shape ((readable _ (.child reach (by simp [children]))).unread rfl)
    simp [readNode, meaningStep, RunState.environment, this]
  | binary op a b =>
    simp only [readNode, meaningStep, here a (by simp [children]), here b (by simp [children])]
  | negation a => simp only [readNode, meaningStep, here a (by simp [children])]
  | call name args =>
    have args : (args.mapM fun a : Expr K => a.read T env st ρ []) = args.mapM fun a => a.read T env st' ρ [] :=
      mapM_congr fun a ha => here a ha []
    rw [readNode_call, readNode_call, args]
  | conditional c y n =>
    simp only [readNode, meaningStep, here c (by simp [children]), here y (by simp [children]),
      here n (by simp [children])]
  | indexed t slots =>
    have slot : ∀ s ∈ slots, readSlot T env st ρ s = readSlot T env st' ρ s := fun s hs =>
      readSlot_congr computed (fun r hr => lookups r (mem_runtimeSlots_indexed.2 (hr ▸ hs))) same ρ
    rw [readNode_indexed, readNode_indexed, mapM_congr slot]
    simp only [here t (by simp [children])]
  | componentTensor body bs =>
    refine child body (by simp [children]) (ρ.bind bs idx) (.inr ⟨rfl, fun i hi => ?_⟩) []
    exact Valuation.bind_of_not_mem (mem_freeIndices_componentTensor.1 hi).2
  | indexSum body bs => cases plain
  | listTensor shape entries =>
    rw [readNode_listTensor, readNode_listTensor]
    cases hc : entryAt shape entries idx with
    | none => rfl
    | some c => exact here c (mem_of_entryAt hc) []
  | concatenate ps =>
    rw [readNode_concatenate, readNode_concatenate]
    cases hc : partAt ps idx with
    | none => rfl
    | some p => exact here p.1 (mem_of_partAt hc) p.2
  | delta i j =>
    rw [readNode_delta, readNode_delta,
      readSlot_congr computed (fun r hr => lookups r (mem_runtimeSlots_delta.2 (.inl hr))) same ρ,
      readSlot_congr computed (fun r hr => lookups r (mem_runtimeSlots_delta.2 (.inr hr))) same ρ]
  | _ => simp [readNode, meaningStep, RunState.environment]

/-- What is read depends on the temporaries that are met, at the positions of the reading. -/
theorem Plain.read_congr (same : AgreeBut given st.contents st'.contents) (plain : x.Plain T) (reach : Reachable roots x)
    (loads : ∀ t, x.Meets T t → st.load t ρ = st'.load t ρ) (idx : List Int) :
    x.read T env st ρ idx = x.read T env st' ρ idx := by
  induction plain generalizing idx with
  | @temporary x mem => rw [read_of_mem ρ idx mem, read_of_mem ρ idx mem, loads x (.here mem)]
  | @node x absent binder _ ih =>
    rw [read_of_not_mem ρ idx absent, read_of_not_mem ρ idx absent]
    refine readNode_congr computed readable same reach ?_ (fun c hc σ at_ idx => ?_) idx
    · cases x <;> simp_all [isBinder, isSum]
    · obtain rfl : σ = ρ := at_.resolve_right fun h => by simp [binder] at h
      exact ih c hc (.child reach hc) (fun t meets => loads t (.under absent hc meets)) idx

end Values

end Expr

end FormCompiler
