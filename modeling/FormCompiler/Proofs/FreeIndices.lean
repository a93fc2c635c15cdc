import FormCompiler.Proofs.Constructions

/-!
# Free indices are exact

The constructors see to it that what becomes known at run time depends on no index. So the free indices that an expression
keeps are those that occur in it outside of all scopes of theirs, and its value depends on nothing else.
-/

namespace FormCompiler

open List

namespace Expr

variable {K : Type}

/-- An index occurs where no node above binds it: in the slots of a node, or in a part. -/
inductive OccursFree (i : Index) : Expr K → Prop where
  | here {e : Expr K} : i ∈ e.ownIndices → OccursFree i e
  | part {e c : Expr K} : c ∈ e.parts → OccursFree i c → i ∉ e.ownBinders.map Prod.fst → OccursFree i e

/-- What becomes known at run time depends on no index, wherever it is asked for. -/
abbrev RunsClosed (e : Expr K) : Prop := Everywhere RuntimeClosed e

variable {e r : Expr K} {es : List (Expr K)}

theorem mem_freeIndices_iff_occursFree (closed : RunsClosed e) {i : Index} : i ∈ e.freeIndices ↔ OccursFree i e := by
  induction closed with
  | @node e here _ ih =>
    rw [mem_freeIndices_iff]
    constructor
    · rintro (own | ⟨⟨c, hc, free⟩, out⟩)
      · exact .here own
      · exact .part (mem_append_left _ hc) ((ih c (mem_append_left _ hc)).1 free) out
    · rintro (own | ⟨hc, occurs, out⟩)
      · exact .inl own
      · have free := (ih _ hc).2 occurs
        rcases mem_append.1 hc with child | runtime
        · exact .inr ⟨⟨_, child, free⟩, out⟩
        · rw [here _ runtime] at free
          cases free

theorem RunsClosed.inner (none : e.runtimeSlots = []) (below : ∀ c ∈ e.children, RunsClosed c) : RunsClosed e := by
  refine .node (fun r hr => absurd (none ▸ hr) not_mem_nil) ?_
  rw [parts, none, append_nil]
  exact below

theorem RunsClosed.leaf (none : e.parts = []) : RunsClosed e := by
  obtain ⟨children, runtime⟩ := append_eq_nil_iff.1 none
  exact .inner runtime fun c hc => absurd (children ▸ hc) not_mem_nil

/-- Run-time positions are closed. -/
def ReadsClosed (_ : Expr K) (slots : List (Slot (Expr K))) : Prop := ∀ r, .runtime r ∈ slots → r.freeIndices = [] ∧ RunsClosed r

/-- What is made of such expressions, and reads at such values, is such an expression. -/
theorem Made.runsClosed {is : List Index} (made : Made ReadsClosed es is r)
    (closed : ∀ e ∈ es, RunsClosed e) : RunsClosed r := by
  induction made with
  | literal => exact .leaf rfl
  | zero => exact .leaf rfl
  | operand he => exact closed _ he
  | listed _ he ih => exact ih.child he
  | @join is e kind children =>
    refine .inner ?_ (children ▸ closed)
    cases e with
    | binary | negation | call | conditional | listTensor | concatenate => rfl
    | _ => cases kind
  | indexed _ read ih =>
    refine .node (fun r hr => (read r (mem_runtimeSlots_indexed.1 hr)).1) ?_
    exact forall_mem_append.2 ⟨forall_mem_singleton.2 ih, fun r hr => (read r (mem_runtimeSlots_indexed.1 hr)).2⟩
  | componentTensor _ _ ih => exact .inner rfl (forall_mem_singleton.2 ih)
  | indexSum _ _ ih => exact .inner rfl (forall_mem_singleton.2 ih)

/-- What a construction returns in some session. -/
def Returns {α : Type} (x : Build α) (a : α) : Prop := ∃ s s', x.run.run s = (.ok a, s')

/-- A slot is a position, an index, or a value at run time for which the constructor is asked. -/
def SlotMade (slot : Slot (Expr K)) : Prop := ∀ r, slot = .runtime r → Returns (Build.runtimeSlot r) slot

theorem SlotMade.closed (h : SlotMade (.runtime r)) : r.freeIndices = [] := by
  obtain ⟨s, s', run⟩ := h r rfl
  unfold Build.runtimeSlot Build.require at run
  cases free : r.freeIndices with
  | nil => rfl
  | cons i is =>
    rw [free] at run
    cases run

variable [Scalar K]

/-- The constructors with their operands. -/
inductive Construction : List (Expr K) → Build (Expr K) → Prop where
  | leaf {e : Expr K} : e.parts = [] → Construction [] (pure e)
  | literal (t : Tensor K) : Construction [] (Build.literal t)
  | binary (op : BinaryOp) (a b : Expr K) : Construction [a, b] (Build.binary op a b)
  | negation (a : Expr K) : Construction [a] (Build.negation a)
  | call (name : String) (args : List (Expr K)) : Construction args (Build.call name args)
  | conditional (c y n : Expr K) : Construction [c, y, n] (Build.conditional c y n)
  | indexed (t : Expr K) (slots : List (Slot (Expr K))) : (∀ slot ∈ slots, SlotMade slot) →
      Construction (t :: slots.filterMap Slot.expr?) (Build.indexed t slots)
  | access (t : Expr K) (dims : List (Int × List (Slot (Expr K) × Stride))) : Construction [t] (Build.access t dims)
  | componentTensor (a : Expr K) (is : List Index) : Construction [a] (Build.tensorOver a is)
  | indexSum (a : Expr K) (is : List Index) : Construction [a] (Build.sumOver a is)
  | listTensor (shape : List Nat) (entries : List (Expr K)) : Construction entries (Build.listTensor shape entries)
  | concatenate (ps : List (Expr K)) : Construction ps (Build.concatenate ps)
  | delta (i j : Slot (Expr K)) : SlotMade i → SlotMade j → Construction ([i, j].filterMap Slot.expr?) (Build.delta i j)

/-- The expressions that the constructors make, one of the other. -/
inductive Obtainable : Expr K → Prop where
  | make {es : List (Expr K)} {x : Build (Expr K)} {e : Expr K} : Construction es x → (∀ a ∈ es, Obtainable a) → Returns x e →
      Obtainable e

open Build in
theorem Construction.runsClosed {x : Build (Expr K)} (h : Construction es x) (closed : ∀ a ∈ es, RunsClosed a) :
    Meets (fun _ => True) (fun _ => True) x RunsClosed := by
  have fixed : Fixes (ReadsClosed (K := K)) := fun _ r hr => by simp at hr
  cases h with
  | leaf none => exact meets_pure (.leaf none)
  | literal t =>
    refine meets_ite (fun _ => meets_pure (.leaf rfl)) fun _ => meets_ite (fun _ => ?_) fun _ => meets_pure (.leaf rfl)
    exact Suits.any.nextSerial.bind fun _ _ => meets_pure (.leaf rfl)
  | binary op => exact (Suits.any.made_binary op).mono fun r (made : Made _ _ [] r) => made.runsClosed closed
  | negation => exact Suits.any.requireScalar.bind fun _ _ => meets_pure (.inner rfl closed)
  | call => exact Suits.any.require.bind fun _ _ => meets_pure (.inner rfl closed)
  | conditional => exact Suits.any.made_conditional.mono fun r (made : Made _ _ [] r) => made.runsClosed closed
  | indexed t slots made =>
    have slot : ReadsClosed t slots := fun r hr =>
      ⟨(made _ hr).closed, closed r (mem_cons_of_mem _ (mem_filterMap.2 ⟨_, hr, rfl⟩))⟩
    refine (Suits.any.made_indexed (.operand mem_cons_self) fun _ => slot).mono fun r (made : Made _ [t] [] r) => ?_
    exact made.runsClosed (forall_mem_singleton.2 (closed t mem_cons_self))
  | access t dims =>
    refine (Suits.any.access t dims).mono ?_
    rintro _ ⟨name, shape, ds, rfl⟩
    exact .inner rfl (forall_mem_singleton.2 (.leaf rfl))
  | componentTensor a is =>
    have all : (is ++ []).Subperm is := (Perm.of_eq (append_nil is)).subperm
    exact (Suits.any.made_tensorOver (.operand mem_cons_self) all).mono fun r made => made.runsClosed closed
  | indexSum a is =>
    have all : (is ++ []).Subperm is := (Perm.of_eq (append_nil is)).subperm
    exact (Suits.any.made_sumOver fixed (.operand mem_cons_self) all).mono fun r made => made.runsClosed closed
  | listTensor =>
    refine (Suits.any.made_listTensor fixed).mono fun r (made : ∃ fs, Made _ fs [] r ∧ _) => ?_
    obtain ⟨fs, made, -, each⟩ := made
    refine made.runsClosed fun f hf => ?_
    obtain ⟨e, he, made⟩ := each f hf
    exact made.runsClosed (forall_mem_singleton.2 (closed e he))
  | concatenate =>
    refine meets_ite (fun _ => ?_) fun _ => meets_pure (.inner rfl closed)
    split
    · exact meets_pure (.leaf rfl)
    · exact meets_throw trivial
  | delta i j hi hj =>
    refine Suits.made_delta.mono fun r (made : Made ReadsClosed [] [] r ∨ _) => ?_
    rcases made with made | ⟨-, rfl⟩
    · exact made.runsClosed fun _ h => absurd h not_mem_nil
    · refine .node (fun r hr => ?_) closed
      rcases mem_runtimeSlots_delta.1 hr with rfl | rfl
      · exact hi.closed
      · exact hj.closed

theorem Obtainable.runsClosed (h : Obtainable e) : RunsClosed e := by
  induction h with
  | @make es x e construction _ returns ih =>
    obtain ⟨s, s', run⟩ := returns
    exact (construction.runsClosed ih s _ s' trivial run).2

/-- The free indices of an expression that the constructors make are those that occur free in it, each once, and for all contents
of the variables its value depends on nothing else. -/
theorem freeIndices_exact [Field K] {e : Expr K} (h : Obtainable e) : e.freeIndices.Nodup ∧
    (∀ i, i ∈ e.freeIndices ↔ OccursFree i e) ∧
    ∀ env ρ ρ', Valuation.Agree e.freeIndices ρ ρ' → value env e ρ = value env e ρ' :=
  ⟨nodup_freeIndices e, fun _ => mem_freeIndices_iff_occursFree h.runsClosed,
    fun _ _ _ agree => funext fun idx => value_congr h.runsClosed idx agree⟩

/-- The sum of `x[j]` over `j` has no free index: `j` occurs below its binder only. -/
theorem freeIndices_total : ∃ e : Expr ℚ, Obtainable e ∧ (∃ c ∈ e.children, OccursFree ⟨0⟩ c) ∧ ¬OccursFree ⟨0⟩ e ∧
    ∀ env ρ ρ', value env e ρ = value env e ρ' := by
  let x : Expr ℚ := .var "x" [some 2]
  have free : (indexed x [.free ⟨0⟩]).freeIndices = [⟨0⟩] := by
    simp only [x, freeIndices]
    rfl
  have leaf : Obtainable x := .make (.leaf (e := x) rfl) (fun _ h => absurd h not_mem_nil) ⟨default, _, rfl⟩
  have entry : Obtainable (.indexed x [.free ⟨0⟩]) := by
    refine .make (.indexed x [.free ⟨0⟩] (forall_mem_singleton.2 ?_)) (forall_mem_singleton.2 leaf) ⟨⟨#[⟨none, none⟩], 1⟩, _, by rfl⟩
    exact fun r h => by cases h
  have sum : Obtainable (.indexSum (.indexed x [.free ⟨0⟩]) [(⟨0⟩, 2)]) := by
    refine .make (.indexSum _ [⟨0⟩]) (forall_mem_singleton.2 entry) ⟨⟨#[⟨none, some 2⟩], 1⟩, ⟨#[⟨none, some 2⟩], 1⟩, ?_⟩
    unfold Build.sumOver Build.indexSum
    simp only [free]
    rfl
  obtain ⟨-, occurs, same⟩ := freeIndices_exact sum
  have none : (indexSum (.indexed x [.free ⟨0⟩]) [(⟨0⟩, 2)]).freeIndices = [] := by simp [freeIndices, free, Indices.diff]
  rw [none] at occurs same
  exact ⟨_, sum, ⟨_, mem_singleton_self _, .here (by decide)⟩, fun h => not_mem_nil ((occurs _).2 h),
    fun env ρ ρ' => same env ρ ρ' fun _ h => absurd h not_mem_nil⟩

end Expr

end FormCompiler
