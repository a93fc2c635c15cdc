import FormCompiler.Proofs.Sizes
import FormCompiler.Proofs.Substituting

/-!
# Nodes that do not come up

Constructors put together what they are given. Of the nodes that were not there before, only zero tensors, deltas and
indexings can have a property that constructors do not see to, so that expressions without a node of such a kind stay
without, also when indices are replaced.
-/

namespace FormCompiler

open FormCompiler.Expr List

namespace Expr

variable {K : Type} {P : Expr K → Prop}

/-! ## Kinds of nodes -/

/-- No node of the expression has the property. -/
def Lacks (P : Expr K → Prop) (e : Expr K) : Prop := ¬ Somewhere P e

/-- Nodes of a kind that constructors do not make: neither zero tensors with entries, nor other nodes than zero tensors, deltas and
indexings, as long as they bind only indices of some kind. -/
structure Spares (P : Expr K → Prop) (binds : Index → Prop) : Prop where
  node {e : Expr K} : e.isZero = false → (∀ i j, e ≠ .delta i j) → (∀ t slots, e ≠ .indexed t slots) →
    (∀ b ∈ e.ownBinders, binds b.1) → ¬ P e
  zero {shape : Shape} : ¬ Vacant shape → ¬ P (.zero shape)

/-- Zero tensors without entries have the property, all or none of them, deltas may have it, and so may indexings other
than those at fixed positions. -/
structure Rare (P : Expr K → Prop) : Prop where
  node {e : Expr K} : P e →
    (∃ ns, e = .zero (Shape.ofNats ns) ∧ count ns = 0) ∨ (∃ i j, e = .delta i j) ∨ ∃ t slots, e = .indexed t slots
  empty {ns ms : List Nat} : P (.zero (Shape.ofNats ns)) → count ms = 0 → P (.zero (Shape.ofNats ms))
  read {t : Expr K} {ks : List Int} : Positions t.shape ks → ¬ P (.indexed t (ks.map .fixed))

theorem Lacks.child {e c : Expr K} (h : Lacks P e) (hc : c ∈ e.children) : Lacks P c := fun below => h (.child hc below)

theorem Lacks.here {e : Expr K} (h : Lacks P e) : ¬ P e := fun here => h (.here here)

theorem Lacks.node {e : Expr K} (here : ¬ P e) (h : ∀ c ∈ e.children, Lacks P c) : Lacks P e := by
  intro there
  rcases somewhere_iff.1 there with own | ⟨c, hc, below⟩
  · exact here own
  · exact h c hc below

theorem Lacks.leaf {e : Expr K} (here : ¬ P e) (none : e.children = []) : Lacks P e :=
  .node here fun _ hc => absurd (none ▸ hc) not_mem_nil

/-! ## Constructors -/

section Constructors

variable {reads : Expr K → List (Slot (Expr K)) → Prop} {binds : Index → Prop} {es cs : List (Expr K)} {is : List Index} {e r : Expr K}

theorem Made.lacks (made : Made reads es is r) (spares : Spares P binds) (read : ∀ t slots, reads t slots → ¬ P (.indexed t slots))
    (hes : ∀ e ∈ es, Lacks P e) (his : ∀ i ∈ is, binds i) : Lacks P r := by
  induction made with
  | literal => exact .leaf (spares.node rfl nofun nofun nofun) rfl
  | zero full => exact .leaf (spares.zero full) rfl
  | operand he => exact hes _ he
  | listed _ he ih => exact (ih his).child he
  | @join is e kind children =>
    refine .node ?_ (children ▸ hes)
    cases e with
    | binary | negation | call | conditional | listTensor | concatenate => exact spares.node rfl nofun nofun nofun
    | _ => cases kind
  | indexed _ here ih => exact .node (read _ _ here) (forall_mem_singleton.2 (ih his))
  | componentTensor _ sub ih =>
    obtain ⟨own, rest⟩ := forall_mem_append.1 fun i hi => his i (sub.subset hi)
    exact .node (spares.node rfl nofun nofun (forall_mem_map.1 own)) (forall_mem_singleton.2 (ih rest))
  | indexSum _ sub ih =>
    obtain ⟨own, rest⟩ := forall_mem_append.1 fun i hi => his i (sub.subset hi)
    exact .node (spares.node rfl nofun nofun (forall_mem_map.1 own)) (forall_mem_singleton.2 (ih rest))

theorem Spares.access (spares : Spares P binds) {name : String} {shape : Shape} {dims : List DimAccess} :
    Lacks P (.access name shape dims) := by
  have var : Lacks P (.var name shape) := .leaf (spares.node rfl nofun nofun nofun) rfl
  exact .node (spares.node rfl nofun nofun nofun) (forall_mem_singleton.2 var)

/-- A node that is made again from children without such nodes, unless all is zero or nothing is left of it. -/
theorem Remade.lacks (remade : Remade reads e cs r) (spares : Spares P binds) (read : ∀ t slots, reads t slots → ¬ P (.indexed t slots))
    (hcs : ∀ c ∈ cs, Lacks P c) (own : ∀ b ∈ e.ownBinders, binds b.1)
    (zeros : ∀ ps n, e = .concatenate ps → cs.all isZero = true → totalSize (shapes cs) = some n → ¬ P (.zero [some n]))
    (leaf : cs = [] → r.children = [] → ¬ P r) : Lacks P r := by
  cases remade with
  | made made => exact made.lacks spares read hcs (forall_mem_map.2 own)
  | listed _ made _ each =>
    refine made.lacks spares read (fun f hf => ?_) nofun
    obtain ⟨c, hc, made⟩ := each f hf
    exact made.lacks spares read (forall_mem_singleton.2 (hcs c hc)) nofun
  | zeros eq all total => exact .leaf (zeros _ _ eq all total) rfl
  | access => exact spares.access
  | leaf none children => exact .leaf (leaf none children) children

/-- A property that only zero tensors, deltas and indexings have. -/
theorem Rare.spares (rare : Rare P) : Spares P fun _ => True where
  node zero delta indexed _ here := by
    rcases rare.node here with ⟨ns, rfl, -⟩ | ⟨i, j, rfl⟩ | ⟨t, slots, rfl⟩
    · cases zero
    · exact delta i j rfl
    · exact indexed t slots rfl
  zero full here := by
    rcases rare.node here with ⟨ns, same, none⟩ | ⟨i, j, same⟩ | ⟨t, slots, same⟩
    · exact full ⟨ns, zero.inj same, none⟩
    · cases same
    · cases same

/-- A concatenation of zero tensors has the property with its parts. -/
theorem Rare.remade (rare : Rare P) (remade : Remade (fun t slots => ¬ P (.indexed t slots)) e cs r) (some : cs ≠ [])
    (hcs : ∀ c ∈ cs, Lacks P c) (known : ∀ ps, e = .concatenate ps → ∀ c ∈ cs, c.Sized) : Lacks P r := by
  refine remade.lacks rare.spares (fun _ _ => id) hcs (fun _ _ => trivial) (fun ps n eq zeros total here => ?_) fun none => absurd none some
  obtain ⟨p, hp⟩ := exists_mem_of_ne_nil cs some
  obtain rfl : n = Int.ofNat (cs.map Expr.size).sum :=
    Option.some.inj (total.symm.trans (List.cons.inj (Expr.shape_concatenate (known ps eq))).1)
  rcases rare.node here with ⟨ns, same, none⟩ | ⟨i, j, same⟩ | ⟨t, slots, same⟩
  · obtain rfl := Expr.ofNats_injective (Expr.zero.inj same : Shape.ofNats [(cs.map Expr.size).sum] = Shape.ofNats ns)
    have size : p.size = 0 := by
      have := le_sum_of_mem (mem_map_of_mem (f := Expr.size) hp)
      simp only [count, foldl_cons, foldl_nil] at none
      omega
    obtain ⟨shape, rfl⟩ := Expr.isZero_iff.1 (all_eq_true.1 zeros p hp)
    have own := rare.empty (show P (.zero (Shape.ofNats [(cs.map Expr.size).sum])) from here) size
    rw [← (known ps eq _ hp).shape_eq] at own
    exact (hcs _ hp).here own
  · cases same
  · cases same

end Constructors

end Expr

/-! ## Replacement of indices -/

namespace Rewrite

variable {K : Type} [Scalar K] [Field K] [Exact K] {w : Index → Prop} {extent : Index → Extent} {P : Expr K → Prop}

/-- What has to be known of an expression and rules so that no delta and no indexing with the property comes up. -/
structure Guards (extent : Index → Extent) (P : Expr K → Prop) (Own : Expr K → Substitution K → Prop) : Prop where
  restrict {e : Expr K} {rules : Substitution K} : Own e rules → Own e (rules.restrict e)
  delta {i j : Slot (Expr K)} {rules : Substitution K} : ¬ P (.delta i j) → Own (.delta i j) rules →
    rules.applySlot i ≠ rules.applySlot j → ¬ P (.delta (rules.applySlot i) (rules.applySlot j))
  read {t t' : Expr K} {slots : List (Slot (Expr K))} {rules : Substitution K} : ¬ P (.indexed t slots) →
    Own (.indexed t slots) rules → t'.shape = t.shape → ¬ P (.indexed t' (slots.map rules.applySlot))
  inline {body : Expr K} {bs : List Binder} {slots : List (Slot (Expr K))} {rules : Substitution K} :
    (Expr.indexed (.componentTensor body bs) slots).WellFormed extent → ¬ P (.indexed (.componentTensor body bs) slots) →
    Own (.indexed (.componentTensor body bs) slots) rules →
    Own body (rules.insertAll ((bs.map Prod.fst).zip (slots.map rules.applySlot)))
  child {e c : Expr K} {rules : Substitution K} : Own e rules → c ∈ e.children → Own c rules

variable {Own : Expr K → Substitution K → Prop}

omit [Exact K] in
/-- One step makes no node with the property. -/
theorem Stepped.lacks (rare : Rare P) (guards : Guards extent P Own) {e r : Expr K} {rules : Substitution K}
    (fits : e.WellFormed extent) (lacks : Lacks P e) (own : Own e rules)
    (h : Stepped w extent (fun t slots => ¬ P (.indexed t slots)) (fun c rules c' => Substituted w extent rules c c' ∧
      (Lacks P c ∧ Own c rules → Lacks P c')) rules e r) : Lacks P r := by
  cases h with
  | delta _ made =>
    rcases made with rfl | made | ⟨differ, rfl⟩
    · exact lacks
    · exact made.lacks rare.spares (fun _ _ => id) nofun nofun
    · exact .leaf (guards.delta lacks.here own differ) rfl
  | inline hr =>
    exact hr.2 ⟨(lacks.child mem_cons_self).child mem_cons_self, guards.inline fits lacks.here own⟩
  | indexed _ ht _ made =>
    rcases made with rfl | made
    · exact lacks
    · have tensor := ht.2 ⟨lacks.child mem_cons_self, guards.child own mem_cons_self⟩
      exact made.lacks rare.spares (fun _ _ => id) (forall_mem_singleton.2 tensor) nofun
  | access _ made =>
    obtain ⟨dims, rfl, -⟩ := made
    exact rare.spares.access
  | node _ hcs _ made =>
    rcases made with rfl | ⟨some, made⟩
    · exact lacks
    refine rare.remade made some (fun c hc => ?_) fun ps eq c hc => ?_
    · obtain ⟨c₀, mem, -, hc⟩ := exists_of_forall₂ hcs.flip hc
      exact hc ⟨lacks.child mem, guards.child own mem⟩
    · subst eq
      obtain ⟨c₀, mem, sub, -⟩ := exists_of_forall₂ hcs.flip hc
      rw [Expr.Sized, sub.shape]
      exact fits.here c₀ mem

/-- Carrying out the indexings of tensors made of components makes no node with the property. -/
theorem ensures_inlineComponents_lacks (rare : Rare P) (guards : Guards extent P Own) {es : List (Expr K)}
    (fits : ∀ e ∈ es, e.WellFormed extent) (scopes : ∀ e ∈ es, e.Unshadowed) :
    Build.Ensures extent (inlineComponents es) fun rs =>
      Forall₂ (fun e r => Refines w extent e r ∧ (Lacks P e ∧ Own e [] → Lacks P r)) es rs := by
  refine ensures_inlineComponents_with (A := fun e rules => Lacks P e ∧ Own e rules) (T := fun _ _ => Lacks P)
    (R := fun t slots => ¬ P (.indexed t slots)) rare.read (fun known same => guards.read known.1.here (guards.restrict known.2) same)
    (fun pre known h => ?_) fits scopes
  exact h.lacks rare guards pre.fits known.1 (guards.restrict known.2)

end Rewrite

/-! ## Zero tensors without entries -/

namespace Expr

variable {K : Type}

/-- No zero tensor in the expression is without entries. -/
def Solid (e : Expr K) : Prop := ¬ Somewhere (fun d => ∃ s, d = .zero (Shape.ofNats s) ∧ count s = 0) e

theorem rare_emptyZero : Rare fun d : Expr K => ∃ s, d = .zero (Shape.ofNats s) ∧ count s = 0 :=
  ⟨.inl, fun _ none => ⟨_, rfl, none⟩, fun _ => by rintro ⟨s, ⟨⟩, -⟩⟩

theorem Solid.child {e c : Expr K} (h : Solid e) (hc : c ∈ e.children) : Solid c := Lacks.child h hc

theorem Solid.node {e : Expr K} (other : e.isZero = false) (h : ∀ c ∈ e.children, Solid c) : Solid e := by
  refine Lacks.node ?_ h
  rintro ⟨s, rfl, -⟩
  cases other

theorem solid_leaf {e : Expr K} (other : e.isZero = false) (none : e.children = []) : Solid e := by
  refine .node other ?_
  rw [none]
  exact fun c hc => absurd hc not_mem_nil

theorem solid_zero_ofNats {s : List Nat} (h : count s ≠ 0) : Solid (.zero (Shape.ofNats s) : Expr K) :=
  Lacks.leaf (rare_emptyZero.spares.zero (not_vacant_ofNats _ h)) rfl

theorem solid_scalarZero : Solid (Build.zero : Expr K) := solid_zero_ofNats (s := []) Nat.one_ne_zero

end Expr

namespace Build

/-- Indexing makes no zero tensor without entries, also where the tensor is one. -/
theorem solid_indexed {K : Type} [Scalar K] {t : Expr K} {slots : List (Slot (Expr K))} (ht : ∀ c ∈ t.children, c.Solid)
    (scalar : t.shape = [] → t.Solid) : Meets (fun _ => True) (fun _ => True) (indexed t slots) Solid := by
  cases zero : t.isZero with
  | false =>
    refine (Suits.any.made_indexed (.operand mem_cons_self) fun _ => ?_).mono fun r (made : Made _ [t] [] r) =>
      made.lacks rare_emptyZero.spares (fun _ _ => id) (forall_mem_singleton.2 (Solid.node zero ht)) nofun
    rintro ⟨s, ⟨⟩, -⟩
  | true =>
    refine Suits.any.require.bind fun _ rank => (Suits.any.setExtents slots _).bind fun _ _ => ?_
    refine meets_ite (fun none => meets_pure (scalar ?_)) fun _ => meets_ite (fun _ => meets_pure solid_scalarZero) (absurd zero)
    rw [isEmpty_iff.1 none] at rank
    exact length_eq_zero_iff.1 (eq_of_beq rank)

end Build

namespace Rewrite

variable {K : Type} [Scalar K] [Field K] [Exact K] {w : Index → Prop} {extent : Index → Extent}

/-- Carrying out the indexings of tensors made of components makes no zero tensor without entries. -/
theorem ensures_inlineComponents_solid {es : List (Expr K)} (fits : ∀ e ∈ es, e.WellFormed extent)
    (scopes : ∀ e ∈ es, e.Unshadowed) (solid : ∀ e ∈ es, e.Solid) :
    Build.Ensures extent (inlineComponents es) fun rs => Forall₂ (fun e r => Refines w extent e r ∧ r.Solid) es rs := by
  have guards : Guards extent (fun d : Expr K => ∃ s, d = .zero (Shape.ofNats s) ∧ count s = 0) fun _ _ => True := by
    refine ⟨fun _ => trivial, fun _ _ _ => ?_, fun _ _ _ => ?_, fun _ _ _ => trivial, fun _ _ => trivial⟩
    all_goals rintro ⟨s, ⟨⟩, -⟩
  refine (ensures_inlineComponents_lacks (w := w) rare_emptyZero guards fits scopes).mono fun rs hrs => ?_
  refine forall₂_iff_zip.2 ⟨hrs.length_eq, fun {e r} mem => ?_⟩
  obtain ⟨refines, rest⟩ := forall₂_zip hrs mem
  exact ⟨refines, rest ⟨solid e (of_mem_zip mem).1, trivial⟩⟩

end Rewrite

end FormCompiler
