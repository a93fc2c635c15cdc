import FormCompiler.Proofs.WellFormed

/-!
# Where expressions are defined

Zero to the power of zero has no value: the constructors take a power of zero for zero and a power to zero for one.
An expression is defined at an entry if no such power is met when its value is found. What is put in the place of an
expression has to carry its value wherever that is defined.
-/

namespace FormCompiler

open List

namespace Expr

variable {K : Type} [Scalar K] [Field K]

/-- Is the value of an expression at an entry found without zero to the power of zero? Both branches of a choice count;
what becomes known at run time does not. -/
def Defined (env : Environment K) (e : Expr K) (ρ : Valuation) (idx : List Int) : Prop :=
  match e with
  | .binary op a b =>
    Defined env a ρ [] ∧ Defined env b ρ [] ∧ (op = .power → ¬ (value env a ρ [] = 0 ∧ value env b ρ [] = 0))
  | .negation a => Defined env a ρ []
  | .call _ args => ∀ a ∈ args, Defined env a ρ []
  | .conditional c y n => Defined env c ρ [] ∧ Defined env y ρ idx ∧ Defined env n ρ idx
  | .indexed t slots => Defined env t ρ (slots.map (position env ρ))
  | .componentTensor body bs => Defined env body (ρ.bind bs idx) []
  | .indexSum body bs => ∀ σ ∈ ρ.ranging bs, Defined env body σ []
  | .listTensor shape entries => ∀ c (h : entryAt shape entries idx = some c),
    have := sizeOf_lt_of_mem (mem_of_entryAt h)
    Defined env c ρ []
  | .concatenate ps => ∀ p (h : partAt ps idx = some p),
    have := sizeOf_lt_of_mem (mem_of_partAt h)
    Defined env p.1 ρ p.2
  | _ => True
termination_by sizeOf e

section Rules

variable {env : Environment K} {ρ : Valuation} {idx : List Int}

variable {a body : Expr K} {bs : List Binder}

theorem defined_binary {op : BinaryOp} {b : Expr K} : Defined env (binary op a b) ρ idx ↔
    Defined env a ρ [] ∧ Defined env b ρ [] ∧ (op = .power → ¬ (value env a ρ [] = 0 ∧ value env b ρ [] = 0)) := by
  rw [Defined]

theorem defined_negation : Defined env (negation a) ρ idx ↔ Defined env a ρ [] := by
  rw [Defined]

theorem defined_call {name : String} {args : List (Expr K)} :
    Defined env (call name args) ρ idx ↔ ∀ a ∈ args, Defined env a ρ [] := by
  rw [Defined]

theorem defined_conditional {c y n : Expr K} : Defined env (conditional c y n) ρ idx ↔
    Defined env c ρ [] ∧ Defined env y ρ idx ∧ Defined env n ρ idx := by
  rw [Defined]

theorem defined_indexed {t : Expr K} {slots : List (Slot (Expr K))} :
    Defined env (indexed t slots) ρ idx ↔ Defined env t ρ (slots.map (position env ρ)) := by
  rw [Defined]

theorem defined_componentTensor : Defined env (componentTensor body bs) ρ idx ↔ Defined env body (ρ.bind bs idx) [] := by
  rw [Defined]

theorem defined_indexSum : Defined env (indexSum body bs) ρ idx ↔ ∀ σ ∈ ρ.ranging bs, Defined env body σ [] := by
  rw [Defined]

theorem defined_listTensor {shape : List Nat} {entries : List (Expr K)} :
    Defined env (listTensor shape entries) ρ idx ↔ ∀ c, entryAt shape entries idx = some c → Defined env c ρ [] := by
  rw [Defined]

theorem defined_concatenate {ps : List (Expr K)} :
    Defined env (concatenate ps) ρ idx ↔ ∀ p, partAt ps idx = some p → Defined env p.1 ρ p.2 := by
  rw [Defined]

end Rules

/-- Whether an expression is defined depends on its free indices alone. -/
theorem Defined.congr {env : Environment K} {e : Expr K} (closed : Everywhere RuntimeClosed e) {ρ ρ' : Valuation} {idx : List Int}
    (h : Valuation.Agree e.freeIndices ρ ρ') (defined : Defined env e ρ idx) : Defined env e ρ' idx := by
  induction closed generalizing ρ ρ' idx with
  | @node e here parts ih =>
    have child : ∀ c ∈ e.children, ∀ vs idx, Defined env c (ρ.bind e.ownBinders vs) idx → Defined env c (ρ'.bind e.ownBinders vs) idx :=
      fun c hc vs idx => ih c (mem_append_left _ hc) (agree_child hc h vs)
    have same : e.ownBinders = [] → ∀ c ∈ e.children, ∀ idx,
        value env c ρ idx = value env c ρ' idx ∧ (Defined env c ρ idx → Defined env c ρ' idx) := by
      intro none c hc idx
      have val : value env c _ idx = value env c _ idx := value_congr (parts c (mem_append_left _ hc)) idx (agree_child hc h [])
      have this := child c hc [] idx
      rw [none] at val this
      exact ⟨val, this⟩
    cases e with
    | binary op a b =>
      rw [defined_binary] at defined ⊢
      obtain ⟨left, below⟩ := same rfl a (by simp [children]) []
      obtain ⟨right, below'⟩ := same rfl b (by simp [children]) []
      rw [← left, ← right]
      exact ⟨below defined.1, below' defined.2.1, defined.2.2⟩
    | negation a =>
      rw [defined_negation] at defined ⊢
      exact (same rfl a (by simp [children]) []).2 defined
    | call name args =>
      rw [defined_call] at defined ⊢
      exact fun a ha => (same rfl a ha []).2 (defined a ha)
    | conditional c y n =>
      rw [defined_conditional] at defined ⊢
      exact ⟨(same rfl c (by simp [children]) []).2 defined.1, (same rfl y (by simp [children]) _).2 defined.2.1,
        (same rfl n (by simp [children]) _).2 defined.2.2⟩
    | indexed t slots =>
      rw [defined_indexed] at defined ⊢
      have positions : slots.map (position env ρ) = slots.map (position env ρ') := by
        refine map_congr_left fun s hs => position_congr ?_ ?_
        · rintro i rfl
          exact h i (mem_freeIndices_indexed.2 (.inl hs))
        · rintro r rfl
          have mem := mem_runtimeSlots_indexed (t := t).2 hs
          refine value_congr (parts r (mem_append_right _ mem)) [] ?_
          rw [here r mem]
          exact fun i hi => absurd hi not_mem_nil
      rw [← positions]
      exact (same rfl t (by simp [children]) _).2 defined
    | componentTensor body bs =>
      rw [defined_componentTensor] at defined ⊢
      exact child body (by simp [children]) idx [] defined
    | indexSum body bs =>
      rw [defined_indexSum] at defined ⊢
      obtain ⟨ps, ranging⟩ := Valuation.exists_ranging_eq bs
      simp only [ranging, forall_mem_map] at defined ⊢
      exact fun vs hvs => child body (by simp [children]) vs [] (defined vs hvs)
    | listTensor shape entries =>
      rw [defined_listTensor] at defined ⊢
      exact fun c hc => (same rfl c (mem_of_entryAt hc) []).2 (defined c hc)
    | concatenate ps =>
      rw [defined_concatenate] at defined ⊢
      exact fun p hp => (same rfl p.1 (mem_of_partAt hp) _).2 (defined p hp)
    | _ => simp [Defined]

end Expr

end FormCompiler
