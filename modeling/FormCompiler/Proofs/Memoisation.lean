import FormCompiler.Proofs.Passes

/-!
# Kept results are the plain ones

A body that is pure calls the function on smaller expressions and goes on with what comes back. Whatever it makes of that, the
results that are kept are those of plain recursion, at every moment of a run, so that each call returns what plain recursion
gives.
-/

namespace FormCompiler

open List Build

namespace Expr

variable {K α β σ : Type}

/-- What a pure body does with an expression: it has a result, or it calls the function on a smaller expression with an argument
and goes on with what comes back. -/
inductive Calls (α β : Type) (e : Expr K) where
  | result (b : β)
  | call (c : Expr K) (smaller : sizeOf c < sizeOf e) (a : α) (next : β → Calls α β e)

/-- Carry out the calls by the given means, with a look before each of them and at the end. -/
def Calls.perform {m : Type → Type} [Monad m] {e : Expr K} (look : m PUnit) (self : (c : Expr K) → sizeOf c < sizeOf e → α → m β) :
    Calls α β e → m β
  | .result b => do
    look
    return b
  | .call c smaller a next => do
    look
    let b ← self c smaller a
    (next b).perform look self

/-- The result of plain recursion. -/
def plain (body : (e : Expr K) → Calls Unit β e) (e : Expr K) : β :=
  Id.run (recurse (fun e self => (body e).perform (pure ⟨⟩) fun c smaller _ => self c smaller) e)

def plainArg (body : (e : Expr K) → α → Calls α β e) (e : Expr K) (a : α) : β :=
  Id.run (recurseArg (fun e self a => (body e a).perform (pure ⟨⟩) self) e a)

theorem plain_eq (body : (e : Expr K) → Calls Unit β e) (e : Expr K) :
    plain body e = Id.run ((body e).perform (pure ⟨⟩) fun c _ _ => pure (plain body c)) := by
  rw [plain, recurse]
  rfl

theorem plainArg_eq (body : (e : Expr K) → α → Calls α β e) (e : Expr K) (a : α) :
    plainArg body e a = Id.run ((body e a).perform (pure ⟨⟩) fun c _ a => pure (plainArg body c a)) := by
  rw [plainArg, recurseArg]
  rfl

open Classical in
/-- Refuse to go on unless the store has the property. -/
noncomputable def demand (P : σ → Prop) : StateT σ Build PUnit := do
  if P (← get) then return ⟨⟩ else throw (.requirement "")

/-- From each store with the property the result is found, without a change of the session, and the property is kept. -/
def Finds (P : σ → Prop) (x : StateT σ Build β) (b : β) : Prop := ∀ st, P st → ∃ st', P st' ∧ x.run st = pure (b, st')

theorem finds_perform {P : σ → Prop} {e : Expr K} {self : (c : Expr K) → sizeOf c < sizeOf e → α → StateT σ Build β}
    {known : Expr K → α → β} (h : ∀ c smaller a, Finds P (self c smaller a) (known c a)) (calls : Calls α β e) :
    Finds P (calls.perform (demand P) self) (Id.run (calls.perform (pure ⟨⟩) fun c _ a => pure (known c a))) := by
  have looked {st : σ} (inv : P st) : (demand P).run st = pure (⟨⟩, st) := by simp [demand, inv]
  induction calls with
  | result b =>
    intro st inv
    refine ⟨st, inv, ?_⟩
    rw [Calls.perform, StateT.run_bind, looked inv, pure_bind]
    rfl
  | call c smaller a next ih =>
    intro st inv
    obtain ⟨st', inv', run⟩ := h c smaller a st inv
    obtain ⟨st'', inv'', rest⟩ := ih (known c a) st' inv'
    refine ⟨st'', inv'', ?_⟩
    rw [Calls.perform, StateT.run_bind, looked inv, pure_bind, StateT.run_bind, run, pure_bind, rest]
    rfl

theorem finds_mapM {γ : Type} {P : σ → Prop} {f : γ → StateT σ Build β} {known : γ → β} (h : ∀ a, Finds P (f a) (known a))
    (as : List γ) : Finds P (as.mapM f) (as.map known) := by
  induction as with
  | nil => exact fun st inv => ⟨st, inv, rfl⟩
  | cons a as ih =>
    intro st inv
    obtain ⟨st', inv', first⟩ := h a st inv
    obtain ⟨st'', inv'', rest⟩ := ih st' inv'
    refine ⟨st'', inv'', ?_⟩
    rw [mapM_cons, StateT.run_bind, first, pure_bind, StateT.run_bind, rest, pure_bind]
    rfl

variable [Scalar K] [StrictSame K]

theorem finds_memoise (body : (e : Expr K) → Calls Unit β e) (e : Expr K) : Finds (Kept fun e r => r = plain body e)
    (memoise (fun e self => (body e).perform (demand (Kept fun e r => r = plain body e)) fun c smaller _ => self c smaller) e)
    (plain body e) := by
  intro st inv
  rw [run_memoise]
  cases found : st[e]? with
  | some r => exact ⟨st, inv, by rw [inv e r found]⟩
  | none =>
    obtain ⟨st', inv', run⟩ := finds_perform (fun c smaller _ => finds_memoise body c) (body e) st inv
    rw [← plain_eq] at run
    exact ⟨st'.insert e (plain body e), inv'.insert rfl, by rw [run]; rfl⟩
termination_by sizeOf e

theorem finds_memoiseArg [BEq α] [LawfulBEq α] [Hashable α] (body : (e : Expr K) → α → Calls α β e) (e : Expr K) (a : α) :
    Finds (KeptArg fun e a r => r = plainArg body e a)
      (memoiseArg (fun e self a => (body e a).perform (demand (KeptArg fun e a r => r = plainArg body e a)) self) e a)
      (plainArg body e a) := by
  intro st inv
  rw [run_memoiseArg]
  cases found : st[(e, a)]? with
  | some r => exact ⟨st, inv, by rw [inv e a r found]⟩
  | none =>
    obtain ⟨st', inv', run⟩ := finds_perform (fun c smaller a => finds_memoiseArg body c a) (body e a) st inv
    rw [← plainArg_eq] at run
    exact ⟨st'.insert (e, a) (plainArg body e a), inv'.insert rfl, by rw [run]; rfl⟩
termination_by sizeOf e

/-- Expressions one after the other, with the same store, and with and without an argument: each call returns what plain recursion
gives. All that is kept is what plain recursion gives, also in between: a look at the store that finds anything else there would
be refused. -/
theorem memoised_eq_plain [BEq α] [LawfulBEq α] [Hashable α] (body : (e : Expr K) → Calls Unit β e)
    (bodyArg : (e : Expr K) → α → Calls α β e) (roots : List (Expr K)) (calls : List (Expr K × α)) :
    (∃ store : Store K β, (Kept fun e r => r = plain body e) store ∧
      (roots.mapM (memoise fun e self =>
        (body e).perform (demand (Kept fun e r => r = plain body e)) fun c smaller _ => self c smaller)).run ∅ =
      pure (roots.map (plain body), store)) ∧
    ∃ store : StoreArg K α β, (KeptArg fun e a r => r = plainArg bodyArg e a) store ∧
      (calls.mapM fun p => memoiseArg (fun e self a =>
        (bodyArg e a).perform (demand (KeptArg fun e a r => r = plainArg bodyArg e a)) self) p.1 p.2).run ∅ =
      pure (calls.map fun p => plainArg bodyArg p.1 p.2, store) :=
  ⟨finds_mapM (finds_memoise body) roots ∅ fun e r found => by simp at found,
    finds_mapM (fun p => finds_memoiseArg bodyArg p.1 p.2) calls ∅ fun e a r found => by simp at found⟩

/-- The sum of the depths of all leaves, below the given depth. -/
def leafDepths : (e : Expr K) → Nat → Calls Nat Nat e
  | .binary op a b, d => .call a (sizeOf_left op a b) (d + 1) fun m => .call b (sizeOf_right op a b) (d + 1) fun n => .result (m + n)
  | _, d => .result d

/-- A fourth power, in which the square and what is squared are met twice at the same depth. -/
theorem memoised_fourthPower : ∃ (x : Expr ℚ) (store : StoreArg ℚ Nat Nat),
    ([(Expr.binary .product (.binary .product x x) (.binary .product x x), 0), (x, 1)].mapM fun p => memoiseArg (fun e self a =>
      (leafDepths e a).perform (demand (KeptArg fun e a r => r = plainArg leafDepths e a)) self) p.1 p.2).run ∅ =
    pure ([8, 1], store) := by
  obtain ⟨-, store, -, run⟩ := memoised_eq_plain (K := ℚ) (fun _ => .result 0) leafDepths []
    [(.binary .product (.binary .product (.var "x" []) (.var "x" [])) (.binary .product (.var "x" []) (.var "x" [])), 0), (.var "x" [], 1)]
  have leaf (d : Nat) : plainArg leafDepths (.var "x" [] : Expr ℚ) d = d := plainArg_eq ..
  have node (a b : Expr ℚ) (d : Nat) : plainArg leafDepths (.binary .product a b) d =
      plainArg leafDepths a (d + 1) + plainArg leafDepths b (d + 1) := plainArg_eq ..
  exact ⟨.var "x" [], store, run.trans (by simp [leaf, node])⟩

end Expr

end FormCompiler
