import FormCompiler.Proofs.Carrying

/-!
# Where indices are bound

No index of an unshadowed expression is both free and bound, and none is bound below itself. A product clashes if an index
is bound in both factors and one of its scopes branches into sums: once the product is multiplied out, parts of the one
scope meet the other. Rewriting does not add scopes, and does not make any of this worse.

Sums over some indices may be written out, position by position; they count as branching.
-/

namespace FormCompiler

open List

namespace Expr

variable {K : Type} {w : Index → Prop}

/-- A node of an expression has the property. -/
inductive Somewhere (P : Expr K → Prop) : Expr K → Prop where
  | here {e : Expr K} : P e → Somewhere P e
  | child {e c : Expr K} : c ∈ e.children → Somewhere P c → Somewhere P e

theorem somewhere_iff {P : Expr K → Prop} {e : Expr K} : Somewhere P e ↔ P e ∨ ∃ c ∈ e.children, Somewhere P c := by
  constructor
  · rintro (here | ⟨hc, below⟩)
    · exact .inl here
    · exact .inr ⟨_, hc, below⟩
  · rintro (here | ⟨c, hc, below⟩)
    · exact .here here
    · exact .child hc below

/-! ## Binders, branches and clashes -/

/-- Somewhere the index is bound. -/
def Binds (i : Index) : Expr K → Prop := Somewhere fun d => i ∈ d.ownBinders.map Prod.fst

/-- The node is a sum of alternatives, or may be written as one. -/
def Branches (w : Index → Prop) : Expr K → Prop
  | .binary .sum _ _ | .conditional _ _ _ => True
  | .indexSum _ bs => ∃ b ∈ bs, w b.1
  | _ => False

/-- Somewhere a sum branches. -/
def Branching (w : Index → Prop) : Expr K → Prop := Somewhere (Branches w)

/-- The node has the index for a binder, and its scope branches. -/
def SpreadsHere (w : Index → Prop) (i : Index) (d : Expr K) : Prop :=
  i ∈ d.ownBinders.map Prod.fst ∧ ((∃ b ∈ d.ownBinders, w b.1) ∨ ∃ c ∈ d.children, Branching w c)

/-- Somewhere a scope of the index branches. -/
def Spreads (w : Index → Prop) (i : Index) : Expr K → Prop := Somewhere (SpreadsHere w i)

/-- Somewhere an index is bound twice in one place, or below itself. -/
def Nested : Expr K → Prop :=
  Somewhere fun d => ¬ (d.ownBinders.map Prod.fst).Nodup ∨ ∃ i ∈ d.ownBinders.map Prod.fst, ∃ c ∈ d.children, Binds i c

/-- The children of a node that are multiplied with each other. A choice is multiplied with its condition. -/
def factorPairs : Expr K → List (Expr K × Expr K)
  | .binary .product a b | .binary .quotient a b => [(a, b), (b, a)]
  | .conditional c y n => [(c, y), (y, c), (c, n), (n, c)]
  | _ => []

/-- Somewhere two factors bind the same index, and a scope of it branches. -/
def Clashing (w : Index → Prop) : Expr K → Prop :=
  Somewhere fun d => ∃ p ∈ d.factorPairs, ∃ i, Spreads w i p.1 ∧ Binds i p.2

/-! ### Sums, and entries of tensors made of components -/

section Scope

variable {i : Index} {body : Expr K} {bs : List Binder} {slots : List (Slot (Expr K))}

variable {P : Expr K → Prop}

theorem somewhere_indexSum : Somewhere P (.indexSum body bs) ↔ P (.indexSum body bs) ∨ Somewhere P body := by
  rw [somewhere_iff]
  simp only [children, mem_singleton, exists_eq_left]

theorem somewhere_entry (here : ¬ P (.indexed (.componentTensor body bs) slots)) :
    Somewhere P (.indexed (.componentTensor body bs) slots) ↔ P (.componentTensor body bs) ∨ Somewhere P body := by
  rw [somewhere_iff, or_iff_right here]
  simp only [children, mem_singleton, exists_eq_left]
  rw [somewhere_iff]
  simp only [children, mem_singleton, exists_eq_left]

theorem binds_indexSum : Binds i (.indexSum body bs) ↔ i ∈ bs.map Prod.fst ∨ Binds i body := somewhere_indexSum

theorem branching_indexSum : Branching w (.indexSum body bs) ↔ (∃ b ∈ bs, w b.1) ∨ Branching w body := somewhere_indexSum

theorem nested_indexSum : Nested (.indexSum body bs) ↔
    (¬ (bs.map Prod.fst).Nodup ∨ ∃ i ∈ bs.map Prod.fst, Binds i body) ∨ Nested body :=
  somewhere_indexSum.trans (by simp [ownBinders, children, Nested])

theorem binds_entry : Binds i (.indexed (.componentTensor body bs) slots) ↔ i ∈ bs.map Prod.fst ∨ Binds i body :=
  somewhere_entry (by simp [ownBinders])

theorem nested_entry : Nested (.indexed (.componentTensor body bs) slots) ↔
    (¬ (bs.map Prod.fst).Nodup ∨ ∃ i ∈ bs.map Prod.fst, Binds i body) ∨ Nested body :=
  (somewhere_entry (by simp [ownBinders])).trans (by simp [ownBinders, children, Nested])

end Scope

/-! ## Expressions with less structure -/

/-- An expression binds, branches and clashes nowhere that another one does not. -/
structure Simpler (w : Index → Prop) (r e : Expr K) : Prop where
  binds {i : Index} : Binds i r → Binds i e
  branching : Branching w r → Branching w e
  spreads {i : Index} : Spreads w i r → Spreads w i e
  nested : Nested r → Nested e
  clashing : Clashing w r → Clashing w e

namespace Simpler

variable {r e : Expr K}

theorem refl (e : Expr K) : Simpler w e e := ⟨id, id, id, id, id⟩

variable {c body : Expr K} {bs : List Binder}

theorem trans (first : Simpler w r c) (second : Simpler w c e) : Simpler w r e :=
  ⟨second.binds ∘ first.binds, second.branching ∘ first.branching, second.spreads ∘ first.spreads,
    second.nested ∘ first.nested, second.clashing ∘ first.clashing⟩

theorem child (h : c ∈ e.children) : Simpler w c e :=
  ⟨.child h, .child h, .child h, .child h, .child h⟩

/-- A node whose children are simpler than an expression, if the expression has what stands at the node itself. -/
theorem of_children (children : ∀ c ∈ r.children, Simpler w c e) (binds : ∀ i ∈ r.ownBinders.map Prod.fst, Binds i e)
    (branches : Branches w r → Branching w e) (spreads : ∀ i, SpreadsHere w i r → Spreads w i e)
    (twice : ¬ (r.ownBinders.map Prod.fst).Nodup → Nested e)
    (nested : ∀ i ∈ r.ownBinders.map Prod.fst, ∀ c ∈ r.children, Binds i c → Nested e)
    (pairs : ∀ p ∈ r.factorPairs, ∀ i, Spreads w i p.1 → Binds i p.2 → Clashing w e) : Simpler w r e where
  binds h := (somewhere_iff.1 h).elim (binds _) fun ⟨c, hc, below⟩ => (children c hc).binds below
  branching h := (somewhere_iff.1 h).elim branches fun ⟨c, hc, below⟩ => (children c hc).branching below
  spreads h := (somewhere_iff.1 h).elim (spreads _) fun ⟨c, hc, below⟩ => (children c hc).spreads below
  nested h := (somewhere_iff.1 h).elim (fun here => here.elim twice fun ⟨i, hi, c, hc, bound⟩ => nested i hi c hc bound)
    fun ⟨c, hc, below⟩ => (children c hc).nested below
  clashing h := (somewhere_iff.1 h).elim (fun ⟨p, hp, i, first, second⟩ => pairs p hp i first second)
    fun ⟨c, hc, below⟩ => (children c hc).clashing below

/-- A node whose children are simpler than those of another one, and whose binders are among those of the other one. -/
theorem node (own : r.ownBinders.Sublist e.ownBinders) (branches : Branches w r → Branching w e)
    (children : ∀ c' ∈ r.children, ∃ c ∈ e.children, Simpler w c' c)
    (pairs : ∀ p ∈ r.factorPairs, ∀ i, Spreads w i p.1 → Binds i p.2 → Clashing w e) : Simpler w r e := by
  have sub : ∀ i, i ∈ r.ownBinders.map Prod.fst → i ∈ e.ownBinders.map Prod.fst := fun i hi => (own.map _).subset hi
  refine .of_children (fun c' hc' => ?_) (fun i hi => .here (sub i hi)) branches ?_
    (fun twice => .here (.inl fun once => twice (once.sublist (own.map _)))) (fun i hi c' hc' bound => ?_) pairs
  · obtain ⟨c, hc, simpler⟩ := children c' hc'
    exact simpler.trans (.child hc)
  · rintro i ⟨bound, ⟨b, hb, out⟩ | ⟨c', hc', h⟩⟩
    · exact .here ⟨sub i bound, .inl ⟨b, own.subset hb, out⟩⟩
    · obtain ⟨c, hc, simpler⟩ := children c' hc'
      exact .here ⟨sub i bound, .inr ⟨c, hc, simpler.branching h⟩⟩
  · obtain ⟨c, hc, simpler⟩ := children c' hc'
    exact .here (.inr ⟨i, sub i hi, c, hc, simpler.binds bound⟩)

/-- A node without binders whose children are simpler than an expression. -/
theorem gather (own : r.ownBinders = []) (branches : Branches w r → Branching w e) (children : ∀ c ∈ r.children, Simpler w c e)
    (pairs : ∀ p ∈ r.factorPairs, ∀ i, Spreads w i p.1 → Binds i p.2 → Clashing w e) : Simpler w r e := by
  have unbound : ∀ i, i ∉ r.ownBinders.map Prod.fst := by simp [own]
  exact .of_children children (fun i hi => absurd hi (unbound i)) branches (fun i here => absurd here.1 (unbound i))
    (fun twice => absurd (by simp [own]) twice) (fun i hi => absurd hi (unbound i)) pairs

theorem leaf (none : r.children = []) (e : Expr K) : Simpler w r e := by
  have plain : r.ownBinders = [] ∧ ¬ Branches w r ∧ r.factorPairs = [] := by
    cases r with
    | binary | negation | conditional | indexed | componentTensor | indexSum | access => cases none
    | _ => exact ⟨rfl, id, rfl⟩
  refine .gather plain.1 (fun here => absurd here plain.2.1) ?_ ?_
  · rw [none]
    exact fun c hc => absurd hc not_mem_nil
  · rw [plain.2.2]
    exact fun p hp => absurd hp not_mem_nil

/-- An entry of the tensor that has the binders of a sum for its dimensions. -/
theorem entry {slots : List (Slot (Expr K))} : Simpler w (.indexed (.componentTensor body bs) slots) (.indexSum body bs) := by
  refine .gather rfl (by rintro ⟨⟩) (fun c hc => ?_) (by rintro p ⟨⟩)
  obtain rfl := mem_singleton.1 hc
  exact .node (.refl _) (by rintro ⟨⟩) (fun c hc => ⟨c, hc, .refl c⟩) (by rintro p ⟨⟩)

/-- A sum over some of the binders, of what is simpler than the sum over the others. -/
theorem indexSum {cs ds : List Binder} (h : Simpler w r (.indexSum body cs)) (inner : cs.Sublist bs)
    (outer : ds.Sublist bs) (apart : ∀ i ∈ ds.map Prod.fst, i ∉ cs.map Prod.fst) :
    Simpler w (.indexSum r ds) (.indexSum body bs) := by
  have outer' : ∀ i ∈ ds.map Prod.fst, i ∈ bs.map Prod.fst := fun i hi => (outer.map _).subset hi
  have more : Simpler w (.indexSum body cs) (.indexSum body bs) :=
    .node inner (fun ⟨b, hb, out⟩ => .here ⟨b, inner.subset hb, out⟩) (fun c hc => ⟨c, hc, .refl c⟩) (by rintro p ⟨⟩)
  refine .of_children (fun c hc => mem_singleton.1 hc ▸ h.trans more) (fun i hi => .here (outer' i hi))
    (fun ⟨b, hb, out⟩ => .here ⟨b, outer.subset hb, out⟩) ?_ (fun twice => ?_) (fun i hi c hc bound => ?_) (by rintro p ⟨⟩)
  · rintro i ⟨own, ⟨b, hb, out⟩ | ⟨c, hc, below⟩⟩
    · exact .here ⟨outer' i own, .inl ⟨b, outer.subset hb, out⟩⟩
    · obtain rfl := mem_singleton.1 hc
      refine .here ⟨outer' i own, (branching_indexSum.1 (h.branching below)).imp ?_ fun below => ⟨body, mem_cons_self, below⟩⟩
      exact fun ⟨b, hb, out⟩ => ⟨b, inner.subset hb, out⟩
  · exact .here (.inl fun once => twice (once.sublist (outer.map _)))
  · obtain rfl := mem_singleton.1 hc
    have below := (binds_indexSum.1 (h.binds bound)).resolve_left (apart i hi)
    exact .here (.inr ⟨i, outer' i hi, body, mem_cons_self, below⟩)

/-- The same node with simpler children. -/
theorem withChildren {cs : List (Expr K)} (h : Forall₂ (fun c c' => Simpler w c' c) e.children cs) :
    Simpler w (e.withChildren cs) e := by
  have all : ∀ c' ∈ cs, ∃ c ∈ e.children, Simpler w c' c := fun c' hc' => exists_of_forall₂ h.flip hc'
  have clash : ∀ {p q : Expr K × Expr K}, q ∈ e.factorPairs → Simpler w p.1 q.1 → Simpler w p.2 q.2 → ∀ i, Spreads w i p.1 →
      Binds i p.2 → Clashing w e := fun mem first second i spreads binds =>
    .here ⟨_, mem, i, first.spreads spreads, second.binds binds⟩
  cases e with
  | binary op a b =>
    obtain _ | ⟨ha, _ | ⟨hb, _ | _⟩⟩ := h
    refine .node (.refl _) (fun here => .here ?_) all fun p hp => ?_
    · cases op <;> exact here
    · cases op with
      | product | quotient =>
        rcases mem_pair.1 hp with rfl | rfl
        · exact clash mem_cons_self ha hb
        · exact clash (mem_cons_of_mem _ mem_cons_self) hb ha
      | _ => cases hp
  | conditional c y n =>
    obtain _ | ⟨hc, _ | ⟨hy, _ | ⟨hn, _ | _⟩⟩⟩ := h
    refine .node (.refl _) (fun here => .here here) all fun p hp => ?_
    obtain _ | ⟨_, _ | ⟨_, _ | ⟨_, _ | ⟨_, _ | _⟩⟩⟩⟩ := hp
    · exact clash (List.Mem.head _) hc hy
    · exact clash (.tail _ (.head _)) hy hc
    · exact clash (.tail _ (.tail _ (.head _))) hc hn
    · exact clash (.tail _ (.tail _ (.tail _ (.head _)))) hn hc
  | negation | indexed | componentTensor =>
    obtain _ | ⟨_, _ | _⟩ := h
    exact .node (.refl _) (by rintro ⟨⟩) all (by rintro p ⟨⟩)
  | indexSum body bs =>
    obtain _ | ⟨hb, _ | _⟩ := h
    exact .node (.refl _) (fun here => .here here) all (by rintro p ⟨⟩)
  | call | listTensor | concatenate => exact .node (.refl _) (by rintro ⟨⟩) all (by rintro p ⟨⟩)
  | _ => exact .refl _

end Simpler

/-! ## Unshadowed expressions -/

/-- No index is both free and bound, and none is bound below itself. -/
structure Unshadowed (e : Expr K) : Prop where
  free : ∀ i ∈ e.freeIndices, ¬ Binds i e
  nested : ¬ Nested e

namespace Unshadowed

variable {e : Expr K}

theorem child {c : Expr K} (h : Unshadowed e) (hc : c ∈ e.children) : Unshadowed c := by
  refine ⟨fun i free bound => ?_, fun nested => h.nested (.child hc nested)⟩
  by_cases own : i ∈ e.ownBinders.map Prod.fst
  · exact h.nested (.here (.inr ⟨i, own, c, hc, bound⟩))
  · exact h.free i (mem_freeIndices_iff.2 (.inr ⟨⟨c, hc, free⟩, own⟩)) (.child hc bound)

theorem of_simpler {r : Expr K} (h : Unshadowed e) (simpler : Simpler w r e) (free : r.freeIndices ⊆ e.freeIndices) : Unshadowed r :=
  ⟨fun i hi bound => h.free i (free hi) (simpler.binds bound), fun nested => h.nested (simpler.nested nested)⟩

theorem nodup_binders (h : Unshadowed e) : (e.ownBinders.map Prod.fst).Nodup := by
  by_contra twice
  exact h.nested (.here (.inl twice))

end Unshadowed

end Expr

end FormCompiler
