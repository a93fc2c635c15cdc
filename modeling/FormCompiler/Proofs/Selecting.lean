import FormCompiler.Proofs.Lacking
import FormCompiler.Proofs.Placement
import FormCompiler.Proofs.Slicing
import FormCompiler.Rewrite.Selection

/-!
# Selection gives the expression selected

Expressions of one shape among which a slot selects are pushed together from the top down. On the way, shapes need not
agree: parts of concatenations may have different shapes, and a scalar may stand beside a zero tensor. What is selected
is then never larger than the expressions, unless a zero tensor has no entries; since it is as large in the end, it has
been as large on the way.
-/

namespace FormCompiler

open FormCompiler.Expr List Build

namespace Rewrite

/-! ## Kinds of nodes -/

section KindNames

variable {K : Type}

theorem opName_injective {a b : BinaryOp} (plain : ∀ c, a ≠ .compare c) (h : opName b = opName a) : b = a := by
  cases a <;> cases b <;> first | rfl | exact absurd rfl (plain _) | (simp [opName] at h)

/-- The expression has the constructor of the other one, for the kinds that the selection looks for. -/
def SameKind (d e : Expr K) : Prop :=
  match d with
  | .zero _ => ∃ shape, e = .zero shape
  | .binary op _ _ => ∃ op' a b, e = .binary op' a b ∧ opName op' = opName op
  | .negation _ => ∃ a, e = .negation a
  | .conditional _ _ _ => ∃ c y n, e = .conditional c y n
  | .indexed _ _ => ∃ t slots, e = .indexed t slots
  | .componentTensor _ _ => ∃ body bs, e = .componentTensor body bs
  | .listTensor _ _ => ∃ shape entries, e = .listTensor shape entries
  | .concatenate _ => ∃ ps, e = .concatenate ps
  | _ => True

variable {d e : Expr K}

theorem sameKind_of_kindName (h : e.kindName = d.kindName) : SameKind d e := by
  have operator : ∀ (op : BinaryOp) (name : String), opName op = name → name ∉ ["Zero", "LogicalNot", "Conditional",
      "Indexed", "ComponentTensor", "ListTensor", "Concatenate"] := by
    rintro op _ rfl
    cases op <;> simp [opName]
  cases d with
  | binary op a b =>
    cases e with
    | binary op' x y => exact ⟨op', x, y, rfl, h⟩
    | _ => cases op <;> simp [kindName, opName] at h
  | _ =>
    cases e with
    | binary op x y => first | exact trivial | exact absurd (by simp [kindName]) (operator op _ h)
    | _ => first | exact trivial | exact ⟨_, rfl⟩ | exact ⟨_, _, rfl⟩ | exact ⟨_, _, _, rfl⟩ | simp [kindName] at h

/-- What is made again from its children binds no index. -/
theorem SameKind.isBinder (h : SameKind d e) (plain : hasPayload d = false) : e.isBinder = false := by
  cases d with
  | binary op a b =>
    obtain ⟨op', x, y, rfl, -⟩ := h
    rfl
  | negation a =>
    obtain ⟨x, rfl⟩ := h
    rfl
  | conditional c y n =>
    obtain ⟨c, y, n, rfl⟩ := h
    rfl
  | listTensor shape xs =>
    obtain ⟨shape, xs, rfl⟩ := h
    rfl
  | concatenate ps =>
    obtain ⟨ps, rfl⟩ := h
    rfl
  | _ => cases plain

end KindNames

variable {K : Type} [Scalar K]

/-! ## What can be selected from -/

variable {e : Expr K} {i : Index} {a b : ℚ}

section

omit [Scalar K]

theorem not_binds_node (own : e.ownBinders = []) (below : ∀ c ∈ e.children, ¬ c.Binds i) : ¬ e.Binds i := by
  intro bound
  rcases somewhere_iff.1 bound with here | ⟨c, hc, bound⟩
  · rw [own] at here
    cases here
  · exact below c hc bound

theorem exists_binds_of_nested (nested : e.Nested) : ∃ i, e.Binds i := by
  induction nested with
  | @here d twice =>
    rcases twice with twice | ⟨i, here, -⟩
    · have some : d.ownBinders.map Prod.fst ≠ [] := fun none => twice (none ▸ .nil)
      obtain ⟨i, here⟩ := exists_mem_of_ne_nil _ some
      exact ⟨i, .here here⟩
    · exact ⟨i, .here here⟩
  | child hc _ ih =>
    obtain ⟨i, below⟩ := ih
    exact ⟨i, .child hc below⟩

/-- A node that binds nothing itself captures nothing if none of its free indices is bound below. -/
theorem unshadowed_node (own : e.ownBinders = []) (free : ∀ i ∈ e.freeIndices, ∀ c ∈ e.children, ¬ c.Binds i)
    (children : ∀ c ∈ e.children, c.Unshadowed) : e.Unshadowed := by
  refine ⟨fun i hi => not_binds_node own (free i hi), fun nested => ?_⟩
  rcases somewhere_iff.1 nested with (twice | ⟨i, here, -⟩) | ⟨c, hc, below⟩
  · rw [own] at twice
    exact twice .nil
  · rw [own] at here
    cases here
  · exact (children c hc).nested below

end

/-- An expression as the selection meets it. Below the top, no zero tensor is without entries. -/
structure Selectable (s : Session) (e : Expr K) : Prop where
  fits : e.WellFormed s.extents
  scopes : e.Unshadowed
  known {i : Index} : i ∈ e.freeIndices → s.Has i
  solid {c : Expr K} : c ∈ e.children → c.Solid

namespace Selectable

variable {s s' : Session} {e : Expr K}

theorem mono (grows : s.Grows s') (h : Selectable s e) : Selectable s' e :=
  ⟨grows.wellFormed h.fits, h.scopes, fun hi => grows.has (h.known hi), h.solid⟩

theorem child {c : Expr K} (h : Selectable s e) (plain : e.isBinder = false) (hc : c ∈ e.children) : Selectable s c :=
  ⟨h.fits.child hc, h.scopes.child hc, fun hi => h.known (freeIndices_subset_of_mem_children hc plain hi),
    fun hd => (h.solid hc).child hd⟩

theorem zero (shape : Shape) : Selectable s (.zero shape : Expr K) where
  fits := wellFormed_leaf trivial rfl
  scopes := unshadowed_node rfl nofun nofun
  known := by simp [freeIndices]
  solid := nofun

end Selectable

/-! ## What is selected -/

variable [Field K]

/-- A selection from expressions. Where the slot stands at the place of an expression, its entries are those of the
expression: if it has the shape of the expression, at the same positions, and if it only has as many entries, in row
order. -/
structure Selects (extent : Index → Extent) (slot : Slot (Expr K)) (es : List (Expr K)) (r : Expr K) : Prop where
  shape : (∀ e ∈ es, ∀ e' ∈ es, e'.shape.length = e.shape.length) → (∃ e ∈ es, e.shape = [] ∨ ¬ e.Sized) →
    ∀ e ∈ es, r.shape = e.shape
  size : (∀ e ∈ es, e.Sized ∧ e.Solid) → r.Sized ∧ ∀ e ∈ es, r.size ≤ e.size
  gives {env : Environment K} {ρ : Valuation} {k : Nat} {e : Expr K} : es[k]? = some e → Expr.position env ρ slot = k →
    (∀ e ∈ es, ρ.Inside extent e.freeIndices) → r.shape = e.shape → Expr.Gives env ρ e r
  inOrder {env : Environment K} {ρ : Valuation} {k : Nat} {e : Expr K} : es[k]? = some e → Expr.position env ρ slot = k →
    (∀ e ∈ es, ρ.Inside extent e.freeIndices) → (∀ e ∈ es, e.Sized ∧ e.Solid) → r.size = e.size → Expr.GivesInOrder env ρ e r

namespace Selects

variable {extent : Index → Extent} {slot : Slot (Expr K)} {es : List (Expr K)} {r : Expr K} {w : Index → Prop}

theorem of_grows {s s' : Session} (grows : s.Grows s') (h : Selects s.extents slot es r) : Selects s'.extents slot es r :=
  ⟨h.shape, h.size, fun he at_ range => h.gives he at_ fun e he => (range e he).of_grows grows,
    fun he at_ range => h.inOrder he at_ fun e he => (range e he).of_grows grows⟩

/-- What stands for a selection is one. -/
theorem refine {x : Expr K} (h : Selects extent slot es x) (hr : Refines w extent x r) : Selects extent slot es r := by
  have size : r.size = x.size := size_congr hr.shape
  refine ⟨fun ranks rigid e he => hr.shape.trans (h.shape ranks rigid e he), fun known => ?_, fun he at_ range same => ?_,
    fun he at_ range known same => ?_⟩
  · obtain ⟨sized, le⟩ := h.size known
    exact ⟨by rwa [Expr.Sized, hr.shape], fun e he => size ▸ le e he⟩
  · have shape : x.shape = _ := hr.shape.symm.trans same
    exact (h.gives he at_ range shape).trans shape (hr.carries _ _).gives
  · have same : x.size = _ := size.symm.trans same
    exact (h.inOrder he at_ range known same).trans same ((hr.carries _ _).gives.inOrder (h.size known).1 hr.shape)

/-- A selection from expressions of its shape. -/
theorem ofShapes (nonempty : es ≠ []) (shape : ∀ e ∈ es, r.shape = e.shape)
    (gives : ∀ {env : Environment K} {ρ : Valuation} {k : Nat} {e : Expr K}, es[k]? = some e → Expr.position env ρ slot = k →
      (∀ e ∈ es, ρ.Inside extent e.freeIndices) → Expr.Gives env ρ e r) : Selects extent slot es r where
  shape _ _ := shape
  size known := by
    have size : ∀ e ∈ es, r.size = e.size := fun e he => Expr.size_congr (shape e he)
    obtain ⟨e, he⟩ := exists_mem_of_ne_nil es nonempty
    exact ⟨by rw [Expr.Sized, shape e he]; exact (known e he).1, fun e he => (size e he).le⟩
  gives he at_ range _ := gives he at_ range
  inOrder he at_ range known _ :=
    have mem := mem_of_getElem? he
    (gives he at_ range).inOrder (known _ mem).1 (shape _ mem)

theorem scalar (h : Selects extent slot es r) (nonempty : es ≠ []) (scalars : ∀ e ∈ es, e.shape = []) : r.shape = [] := by
  obtain ⟨e, he⟩ := exists_mem_of_ne_nil es nonempty
  rw [h.shape (fun e he e' he' => by rw [scalars e he, scalars e' he']) ⟨e, he, .inl (scalars e he)⟩ e he, scalars e he]

end Selects

/-! ## Rules of the selection -/

section Rules

variable [Exact K] {s : Session} {slot : Slot (Expr K)} {es : List (Expr K)}

omit [Field K] [Exact K] in
/-- Expressions among which a slot can select. -/
structure Ready (s : Session) (slot : Slot (Expr K)) (es : List (Expr K)) : Prop where
  each {e : Expr K} : e ∈ es → Selectable s e
  slot : Build.SlotsFit s.extents [slot] [some (Int.ofNat es.length)]

omit [Field K] [Exact K] in
theorem Ready.mono {s' : Session} (grows : s.Grows s') (h : Ready s slot es) : Ready s' slot es :=
  ⟨fun he => (h.each he).mono grows, h.slot.dims.imp fun _ _ => grows.slotFits, fun hr => grows.wellFormed (h.slot.runtime hr)⟩

/-- A computation that leads to a selection. -/
def Picks (s : Session) (slot : Slot (Expr K)) (es : List (Expr K)) (x : Build (Expr K)) : Prop :=
  Leads s x fun r s' => r.WellFormed s'.extents ∧ Selects s'.extents slot es r

variable {e : Expr K} {extent : Index → Extent} {is : List Index} {ρ : Valuation} {self : List (Expr K) → Build (Expr K)}
  {ns : List Nat} {a b : String}

omit [Exact K] in
theorem picks_same (ready : Ready s slot es) (mem : e ∈ es) (same : ∀ d ∈ es, d = e) : Picks s slot es (pure e) := by
  refine leads_pure ⟨(ready.each mem).fits, .ofShapes (ne_nil_of_mem mem) (fun d hd => by rw [same d hd]) ?_⟩
  intro env ρ k d hd _ _
  rw [same d (mem_of_getElem? hd)]
  exact (Carries.refl e).gives

/-! ### Entries beside zeros -/

omit [Field K] [Exact K] in
theorem within_positions {shape : Shape}
    (dims : Forall₂ (SlotFits (K := K) extent) (is.map .free) shape) (range : ρ.Inside extent is) :
    within shape (is.map ρ) = true := by
  induction is generalizing shape with
  | nil =>
    obtain _ | _ := dims
    rfl
  | cons i is ih =>
    obtain _ | ⟨first, rest⟩ := dims
    obtain ⟨nonneg, below⟩ := range i mem_cons_self
    refine within_cons.2 ⟨⟨nonneg, fun m hm => below m ?_⟩, ih rest fun j hj => range j (mem_cons_of_mem _ hj)⟩
    subst hm
    exact first.resolve_left (Option.some_ne_none _)

theorem inside_of_within (h : within (is.map extent) (is.map ρ) = true) : ρ.Inside extent is := by
  induction is with
  | nil => exact nofun
  | cons i is ih =>
    obtain ⟨here, rest⟩ := within_cons.1 h
    exact forall_mem_cons.2 ⟨here, ih rest⟩

omit [Exact K] in
/-- Entries at the same indices are selected by selecting the tensor; a zero among them is an entry of a zero tensor. -/
theorem selects_indexed {t : Expr K} {zeros : Shape}
    (kinds : ∀ e ∈ es, (∃ u, e = .indexed u (is.map .free)) ∨ ∃ shape, e = .zero shape) (entry : ∃ u, .indexed u (is.map .free) ∈ es)
    (dims : Forall₂ (Expr.SlotFits (K := K) extent) (is.map .free) t.shape)
    (shape : ∀ e ∈ es, t.shape = (selectionChild zeros e).shape) (tensors : Selects extent slot (es.map (selectionChild zeros)) t) :
    Selects extent slot es (.indexed t (is.map .free)) := by
  obtain ⟨u₀, mem₀⟩ := entry
  have core : ∀ {env : Environment K} {ρ : Valuation} {k : Nat} {e : Expr K}, es[k]? = some e → Expr.position env ρ slot = k →
      (∀ e ∈ es, ρ.Inside extent e.freeIndices) → Expr.Defined env e ρ [] →
      Expr.Defined env (.indexed t (is.map .free)) ρ [] ∧
        Expr.value env (.indexed t (is.map .free)) ρ [] = e.value env ρ [] := by
    intro env ρ k e he at_ range defined
    have mem := mem_of_getElem? he
    have positions : (is.map .free).map (Expr.position env ρ) = is.map ρ := by
      rw [map_map]
      rfl
    have inside : within t.shape (is.map ρ) = true := within_positions dims fun i hi =>
      range _ mem₀ i (Expr.mem_freeIndices_indexed.2 (.inl (mem_map_of_mem hi)))
    have below : ∀ d ∈ es.map (selectionChild zeros), ρ.Inside extent d.freeIndices := by
      intro d hd
      obtain ⟨e, he, rfl⟩ := mem_map.1 hd
      rcases kinds e he with ⟨u, rfl⟩ | ⟨shape, rfl⟩
      · exact fun i hi => range _ he i (Expr.mem_freeIndices_indexed.2 (.inr hi))
      · intro i hi
        simp [selectionChild, Expr.freeIndices] at hi
    have gives := tensors.gives (k := k) (by rw [List.getElem?_map, he]; rfl) at_ below (shape e mem)
    rw [shape e mem] at inside
    rw [Expr.defined_indexed, Expr.value_indexed, positions]
    rcases kinds e mem with ⟨u, rfl⟩ | ⟨shape, rfl⟩
    · rw [Expr.defined_indexed, positions] at defined
      rw [Expr.value_indexed, positions]
      exact gives _ inside defined
    · have entry := gives _ inside (by simp [selectionChild, Expr.Defined])
      rw [show selectionChild zeros (.zero shape : Expr K) = .zero zeros from rfl, Expr.value_zero] at entry
      rwa [Expr.value_zero]
  have scalar := Expr.sized_of_scalar (e := .indexed t (is.map .free)) rfl
  refine ⟨fun ranks _ e he => ?_, fun known => ⟨scalar.1, fun e he => ?_⟩, fun {env ρ k e} he at_ range same => ?_,
    fun {env ρ k e} he at_ range known same => ?_⟩
  · exact (length_eq_zero_iff.1 (ranks _ mem₀ e he)).symm
  · rw [scalar.2]
    rcases kinds e he with ⟨u, rfl⟩ | ⟨shape, rfl⟩
    · exact (Expr.sized_of_scalar rfl).2.ge
    · obtain ⟨sized, solid⟩ := known _ he
      exact Nat.one_le_iff_ne_zero.2 fun none => solid (.here ⟨_, congrArg Expr.zero sized.shape_eq, none⟩)
  · intro idx inside defined
    obtain rfl : idx = [] := length_eq_zero_iff.1 (by rw [length_of_within inside, ← same]; rfl)
    exact core he at_ range defined
  · intro n lt defined
    rw [Expr.place_of_scalar rfl]
    rcases kinds e (mem_of_getElem? he) with ⟨u, rfl⟩ | ⟨shape, rfl⟩
    · rw [Expr.place_of_scalar rfl] at defined ⊢
      exact core he at_ range defined
    · rw [Expr.value_zero, ← Expr.value_zero env ρ [] shape]
      exact core he at_ range (by simp [Expr.Defined])

omit [Scalar K] [Field K] [Exact K] in
theorem ensures_running (slots : List (Slot (Expr K))) :
    Ensures extent (Build.runningIndices slots) fun is => slots = is.map .free := by
  refine (ensures_mapM (S := fun slot i => slot = .free i) fun slot _ => ?_).mono fun is h => ?_
  · cases slot with
    | free i => exact ensures_pure rfl
    | fixed n => exact ensures_throw
    | runtime r => exact ensures_throw
  · rw [← forall₂_eq_eq_eq, forall₂_map_right_iff]
    exact h

theorem picks_indexed (ih : ∀ {s es}, Ready s slot es → Picks s slot es (self es))
    (ready : Ready s slot es) {slots : List (Slot (Expr K))}
    (kinds : ∀ e ∈ es, (∃ u, e = .indexed u slots) ∨ ∃ shape, e = .zero shape) (entry : ∃ u, .indexed u slots ∈ es) :
    Picks s slot es (do
      let zeros ← (← Build.runningIndices slots).mapM Build.extent
      let tensor ← self (es.map (selectionChild zeros))
      Build.indexed tensor slots) := by
  refine (ensures_running slots).leads.bind fun is s₁ grows ⟨same, running⟩ => ?_
  subst running
  refine (ensures_mapM (S := fun i n => n = s₁.extents i) fun i _ => ensures_extent).leads.bind
    fun zeros s₂ grows' ⟨same', hzeros⟩ => ?_
  have ready := ready.mono (grows.trans grows')
  have extents : zeros = is.map s₂.extents := by
    rw [Session.extents_congr same', ← forall₂_eq_eq_eq, forall₂_map_right_iff]
    exact hzeros.flip
  have dims : ∀ e ∈ es, Forall₂ (SlotFits (K := K) s₂.extents) (is.map .free) (selectionChild zeros e).shape := by
    intro e he
    rcases kinds e he with ⟨u, rfl⟩ | ⟨shape, rfl⟩
    · exact (ready.each he).fits.here.2
    · change Forall₂ _ _ zeros
      rw [extents, forall₂_map_left_iff, forall₂_map_right_iff]
      exact forall₂_same.2 fun i _ => .inr rfl
  have tensors : Ready s₂ slot (es.map (selectionChild zeros)) := by
    refine ⟨fun hd => ?_, by rw [length_map]; exact ready.slot⟩
    obtain ⟨e, he, rfl⟩ := mem_map.1 hd
    rcases kinds e he with ⟨u, rfl⟩ | ⟨shape, rfl⟩
    · exact (ready.each he).child rfl mem_cons_self
    · exact .zero zeros
  refine (ih tensors).bind fun t s₃ grows'' ⟨fits, selected⟩ => ?_
  -- what is read at the indices has the shape of each tensor
  have read : Ensures s₃.extents (Build.indexed t (is.map .free)) fun r =>
      (∀ e ∈ es, t.shape = (selectionChild zeros e).shape) ∧
        Refines (fun _ => False) s₃.extents (.indexed t (is.map .free)) r := by
    obtain ⟨u, hu⟩ := entry
    by_cases sized : ∀ e ∈ es, (selectionChild zeros e).Sized
    · have shape : ∀ e ∈ es, is.map s₃.extents = (selectionChild zeros e).shape := fun e he => by
        have known := dims e he
        rw [(sized e he).shape_eq] at known ⊢
        exact grows''.mapExtents (extents_of_slotFits known)
      have known := (shape _ hu).trans (sized _ hu).shape_eq
      refine (ensures_indexed_known known fits).mono fun r hr => ⟨fun e he => ?_, hr.2⟩
      rw [hr.1, ← known, shape e he]
    · obtain ⟨e, he, unsized⟩ : ∃ e ∈ es, ¬ (selectionChild zeros e).Sized := by simpa using sized
      have shape : ∀ e ∈ es, t.shape = (selectionChild zeros e).shape := by
        have same := selected.shape (fun d hd d' hd' => ?_) ⟨_, mem_map_of_mem he, .inr unsized⟩
        · exact fun e he => same _ (mem_map_of_mem he)
        · obtain ⟨e, he, rfl⟩ := mem_map.1 hd
          obtain ⟨e', he', rfl⟩ := mem_map.1 hd'
          exact (dims e' he').length_eq.symm.trans (dims e he).length_eq
      refine (ensures_indexed fits ⟨?_, fun hr => ?_⟩).mono fun r hr => ⟨shape, hr⟩
      · rw [shape e he]
        exact (dims e he).imp fun _ _ => grows''.slotFits
      · obtain ⟨i, -, eq⟩ := mem_map.1 hr
        cases eq
  refine read.leads.mono fun r s₄ _ ⟨same, shape, hr⟩ => ?_
  rw [Session.extents_congr same]
  obtain ⟨u, hu⟩ := entry
  refine ⟨hr.fits, (selects_indexed kinds ⟨u, hu⟩ ?_ shape selected).refine hr⟩
  rw [shape _ hu]
  exact (dims _ hu).imp fun _ _ => grows''.slotFits

/-! ### Lists at the leaves -/

theorem picks_listed (ready : Ready s slot es) (nonempty : es ≠ []) :
    Picks s slot es (do Build.partialIndexed (← Build.listTensor [es.length] es) [slot]) := by
  refine (ensures_listTensor_rows (w := fun _ => False) fun e he => (ready.each he).fits).leads.bind
    fun t s₁ grows ⟨same, inner, entries, rows, ht⟩ => ?_
  have known : ∀ i ∈ t.freeIndices, s₁.Has i := by
    intro i hi
    obtain ⟨x, hx, hi⟩ := mem_freeIndices_listTensor.1 (ht.free hi)
    obtain ⟨e, he, sub⟩ := rows.free hx
    exact grows.has ((ready.each he).known (sub hi))
  refine (leads_partialIndexed (grows.wellFormed ht.fits) ht.shape known (ready.mono grows).slot).mono
    fun r s₂ _ ⟨fits, shape, slice⟩ => ⟨fits, .ofShapes nonempty (fun e he => shape.trans (rows.shape he).symm) ?_⟩
  intro env ρ k e he at_ _ idx inside defined
  obtain ⟨there, value⟩ := rows.slice ht he inside defined
  rw [rows.shape (mem_of_getElem? he)] at inside
  obtain ⟨here, entry⟩ := slice env ρ idx inside (by rwa [at_])
  exact ⟨here, by rw [entry, at_, value]⟩

/-! ### Tensors over new indices -/

omit [Field K] [Exact K] in
theorem has_of_binds {i : Index} (fits : e.WellFormed s.extents) (bound : e.Binds i) : s.Has i := by
  induction bound with
  | @here e own =>
    obtain ⟨b, hb, rfl⟩ := mem_map.1 own
    cases e with
    | componentTensor body bs => exact .of_extent (fits.here.extent hb)
    | indexSum body bs => exact .of_extent (fits.here.extent hb)
    | _ => cases hb
  | child hc _ ih => exact ih (fits.child hc)

omit [Field K] [Exact K] in
/-- Entries at new indices capture nothing. -/
theorem unshadowed_indexed (h : Selectable s e) (new : ∀ i ∈ is, ¬ s.Has i) : (Expr.indexed e (is.map .free)).Unshadowed := by
  refine unshadowed_node rfl (fun i hi c hc below => ?_) fun c hc => mem_singleton.1 hc ▸ h.scopes
  obtain rfl := mem_singleton.1 hc
  rcases mem_freeIndices_indexed.1 hi with hi | hi
  · obtain ⟨j, hj, eq⟩ := mem_map.1 hi
    cases eq
    exact new i hj (has_of_binds h.fits below)
  · exact h.scopes.free i hi below

/-- The entries of expressions of one shape at new indices, with all indexings of tensors made of components carried out. -/
theorem leads_entries {s₀ : Session} (each : ∀ e ∈ es, Selectable s₀ e) (grows : s₀.Grows s)
    (shape : ∀ e ∈ es, e.shape = Shape.ofNats ns) (solid : ∀ e ∈ es, e.shape = [] → e.Solid) (nonempty : es ≠ [])
    (new : Build.NewIndices s₀ s ns.length is) :
    Leads s (do inlineComponents (← es.mapM fun e => Build.indexedAt e is)) fun entries s' =>
      is.map s'.extents = Shape.ofNats ns ∧ (∀ x ∈ entries, Selectable s' x) ∧
        Forall₂ (fun e x => Refines (fun _ => False) s'.extents (.indexed e (is.map .free)) x) es entries := by
  refine (leads_mapM (S := fun e x s' => is.map s'.extents = Shape.ofNats ns ∧
      Refines (fun _ => False) s'.extents (.indexed e (is.map .free)) x ∧ x.Solid) ?_ fun e he s₁ grows' => ?_).bind
    fun xs s₂ grows' hxs => ?_
  · rintro e x s₁ s₂ grows ⟨known, refines, solid⟩
    exact ⟨grows.mapExtents known, grows.refines refines, solid⟩
  · have fits := (each e he).fits
    have solids : Meets (fun _ => True) (fun _ => True) (Build.indexedAt e is) Solid :=
      solid_indexed (fun c hc => (each e he).solid hc) (solid e he)
    refine ((leads_indexedAt (w := fun _ => False) ((grows.trans grows').wellFormed fits) (shape e he) new.length
      fun i hi => grows'.has (new.has hi)).and solids).mono fun x s₂ _ hx => ⟨hx.1.1, hx.1.2, hx.2⟩
  · have whole : ∀ x ∈ xs, ∃ e ∈ es, is.map s₂.extents = Shape.ofNats ns ∧
        Refines (fun _ => False) s₂.extents (.indexed e (is.map .free)) x ∧ x.Solid := fun x hx =>
      exists_of_forall₂ hxs.flip hx
    have scopes : ∀ x ∈ xs, x.Unshadowed := fun x hx => by
      obtain ⟨e, he, -, refines, -⟩ := whole x hx
      exact (unshadowed_indexed (each e he) fun i hi => new.new hi).of_simpler refines.simpler refines.free
    refine (ensures_inlineComponents_solid (w := fun _ => False) (fun x hx => ?_) scopes fun x hx => ?_).leads.mono
      fun entries s₃ _ ⟨same, hentries⟩ => ?_
    · obtain ⟨e, -, -, refines, -⟩ := whole x hx
      exact refines.fits
    · obtain ⟨e, -, -, -, solid⟩ := whole x hx
      exact solid
    rw [Session.extents_congr same]
    have inlined : Forall₂ (fun e x => Refines (fun _ => False) s₂.extents (.indexed e (is.map .free)) x ∧ x.Solid) es entries :=
      forall₂_trans (fun he hx => ⟨he.2.1.trans hx.1, hx.2⟩) hxs hentries
    refine ⟨?_, fun x hx => ?_, inlined.imp fun _ _ => And.left⟩
    · obtain ⟨e, he⟩ := exists_mem_of_ne_nil es nonempty
      obtain ⟨x, -, known, -⟩ := exists_of_forall₂ hxs he
      exact known
    · obtain ⟨e, he, refines, solid⟩ := exists_of_forall₂ inlined.flip hx
      have grown : s.Grows s₃ := grows'.trans (.of_indices same)
      refine ⟨Session.extents_congr same ▸ refines.fits,
        (unshadowed_indexed (each e he) fun i hi => new.new hi).of_simpler refines.simpler refines.free, fun hi => ?_,
        fun hc => solid.child hc⟩
      rcases mem_freeIndices_indexed.1 (refines.free hi) with hi | hi
      · obtain ⟨j, hj, eq⟩ := mem_map.1 hi
        cases eq
        exact grown.has (new.has hj)
      · exact (grows.trans grown).has ((each e he).known hi)

/-- Expressions of one shape are selected from by selecting from their entries at new indices. -/
theorem leads_overNew (ih : ∀ {s es}, Ready s slot es → Picks s slot es (self es))
    (ready : Ready s slot es) (shape : ∀ e ∈ es, e.shape = Shape.ofNats ns)
    (solid : ∀ e ∈ es, e.shape = [] → e.Solid) (nonempty : es ≠ []) {extents : Shape} (length : extents.length = ns.length) :
    Leads s (do
      let is ← Build.freshIndices extents
      let entries ← inlineComponents (← es.mapM fun e => Build.indexedAt e is)
      Build.tensorOver (← self entries) is) fun r s' => r.WellFormed s'.extents ∧ r.shape = Shape.ofNats ns ∧
        ∀ {env : Environment K} {ρ : Valuation} {k : Nat} {e : Expr K}, es[k]? = some e → Expr.position env ρ slot = k →
          (∀ e ∈ es, ρ.Inside s'.extents e.freeIndices) → Expr.Gives env ρ e r := by
  refine (leads_freshIndices extents).bind fun is s₁ grows new => ?_
  rw [length] at new
  rw [← bind_assoc]
  refine (leads_entries (fun e he => ready.each he) grows shape solid nonempty new).bind
    fun entries s₂ grows' ⟨known, selectable, inlined⟩ => ?_
  have ready' : Ready s₂ slot entries :=
    ⟨fun hx => selectable _ hx, by rw [← inlined.length_eq]; exact (ready.mono (grows.trans grows')).slot⟩
  refine (ih ready').bind fun t s₃ grows'' ⟨fits, selected⟩ => ?_
  have known := grows''.mapExtents known
  refine (ensures_tensorOver_new fits known new.nodup fun i hi => new.new hi).leads.mono
    fun r s₄ grows₄ ⟨same, fits, scalar, shape', bound⟩ => ?_
  rw [Session.extents_congr same]
  refine ⟨fits, shape', fun {env ρ k e} he at_ range idx inside defined => ?_⟩
  have mem := mem_of_getElem? he
  rw [shape e mem] at inside
  obtain ⟨ρ', positions, agree, entry⟩ := bound env ρ idx inside
  rcases getElem?_of_forall₂ inlined k with ⟨none, -⟩ | ⟨e', x, some, found, refines⟩
  · rw [none] at he
    cases he
  obtain rfl : e' = e := Option.some.inj (some.symm.trans he)
  have inner : ρ'.Inside s₃.extents is := inside_of_within (by rwa [known, positions])
  have range' : ∀ x ∈ entries, ρ'.Inside s₃.extents x.freeIndices := by
    intro x hx i hi
    obtain ⟨e, he, refines⟩ := Expr.exists_of_forall₂ inlined.flip hx
    rcases Expr.mem_freeIndices_indexed.1 (refines.free hi) with hi | hi
    · obtain ⟨j, hj, eq⟩ := mem_map.1 hi
      cases eq
      exact inner i hj
    · rw [agree i ((ready.each he).known hi)]
      exact range e he i hi
  have closed := Expr.WellFormed.runtimeClosed (ready.each mem).fits
  have same : Valuation.Agree e'.freeIndices ρ ρ' := fun i hi => (agree i ((ready.each mem).known hi)).symm
  have slots : (is.map .free).map (Expr.position env ρ') = idx := by
    rw [map_map, ← positions]
    rfl
  -- the entry of the expression, of its entry at the indices, of what is selected there, and of the tensor over it
  obtain ⟨here, first⟩ := (refines.carries env ρ').scalar rfl (by
    rw [Expr.defined_indexed, slots]
    exact defined.congr closed same)
  obtain ⟨here, second⟩ := selected.gives found ((agree.position ready.slot env).trans at_) range' (scalar.trans refines.shape.symm) []
    (by rw [refines.shape]; rfl) here
  obtain ⟨here, third⟩ := entry here
  refine ⟨here, ?_⟩
  rw [third, second, first, Expr.value_indexed, slots]
  exact (Expr.value_congr closed idx same).symm

/-! ### Nodes of one kind -/

/-- The children at one place of the expressions. -/
def column (es : List (Expr K)) (n : Nat) : List (Expr K) := es.filterMap fun e => e.children[n]?

section Columns

omit [Field K] [Exact K]

variable {n k : Nat}

section

omit [Scalar K]

theorem mem_column {d : Expr K} (h : d ∈ column es n) : ∃ e ∈ es, e.children[n]? = some d := mem_filterMap.1 h

theorem length_column (h : ∀ e ∈ es, n < e.children.length) : (column es n).length = es.length := by
  induction es with
  | nil => rfl
  | cons e es ih =>
    obtain ⟨here, rest⟩ := forall_mem_cons.1 h
    rw [column, filterMap_cons, List.getElem?_eq_getElem here]
    exact congrArg (· + 1) (ih rest)

theorem getElem?_column (h : ∀ e ∈ es, n < e.children.length) {e : Expr K} (he : es[k]? = some e) :
    (column es n)[k]? = e.children[n]? := by
  induction es generalizing k with
  | nil => cases he
  | cons d es ih =>
    obtain ⟨here, rest⟩ := forall_mem_cons.1 h
    rw [column, filterMap_cons, List.getElem?_eq_getElem here]
    cases k with
    | zero =>
      cases he
      exact (List.getElem?_eq_getElem here).symm
    | succ k => exact ih rest he

end

theorem Ready.column (ready : Ready s slot es) (plain : ∀ e ∈ es, e.isBinder = false) (h : ∀ e ∈ es, n < e.children.length) :
    Ready s slot (column es n) := by
  refine ⟨fun hd => ?_, by rw [length_column h]; exact ready.slot⟩
  obtain ⟨e, he, hd⟩ := mem_column hd
  exact (ready.each he).child (plain e he) (mem_of_getElem? hd)

end Columns

/-- What is selected from the children of nodes, place by place. -/
structure Columns (extent : Index → Extent) (slot : Slot (Expr K)) (es cs : List (Expr K)) : Prop where
  length {e : Expr K} : e ∈ es → e.children.length = cs.length
  plain {e : Expr K} : e ∈ es → e.isBinder = false
  selects {n : Nat} {c : Expr K} : cs[n]? = some c → c.WellFormed extent ∧ Selects extent slot (column es n) c

namespace Columns

omit [Exact K]

variable {extent : Index → Extent} {cs : List (Expr K)}

variable {k : Nat} {e : Expr K}

theorem column_at (h : Columns extent slot es cs) {n : Nat} {c : Expr K} (hc : cs[n]? = some c) (he : es[k]? = some e) :
    (column es n)[k]? = e.children[n]? := by
  refine getElem?_column (fun e he => ?_) he
  rw [h.length he]
  exact (List.getElem?_eq_some_iff.1 hc).1

theorem range (h : Columns extent slot es cs) {ρ : Valuation} (range : ∀ e ∈ es, ρ.Inside extent e.freeIndices) (n : Nat) :
    ∀ d ∈ column es n, ρ.Inside extent d.freeIndices := by
  intro d hd i hi
  obtain ⟨e, he, hd⟩ := mem_column hd
  exact range e he i (freeIndices_subset_of_mem_children (mem_of_getElem? hd) (h.plain he) hi)

/-- At each expression, its children with what is selected at their places. -/
theorem forall₂ (h : Columns extent slot es cs) {R : Expr K → Expr K → Prop} (he : es[k]? = some e)
    (each : ∀ {n c x}, cs[n]? = some x → (column es n)[k]? = some c → R c x) : Forall₂ R e.children cs := by
  refine forall₂_iff_get.2 ⟨h.length (mem_of_getElem? he), fun n hc hx => ?_⟩
  have found : cs[n]? = some (cs.get ⟨n, hx⟩) := List.getElem?_eq_getElem hx
  exact each found ((h.column_at found he).trans (List.getElem?_eq_getElem hc))

/-- Where all children are scalars, so is what is selected from them. -/
theorem scalars (h : Columns extent slot es cs) (scalars : ∀ e ∈ es, ∀ c ∈ e.children, c.shape = []) {k : Nat} {e : Expr K}
    (he : es[k]? = some e) : Forall₂ (fun c x => x.shape = [] ∧ ∀ (env : Environment K) (ρ : Valuation),
      Expr.position env ρ slot = k → (∀ e ∈ es, ρ.Inside extent e.freeIndices) → Expr.Carries env ρ ρ c x) e.children cs := by
  refine h.forall₂ he fun {n c x} hx hc => ?_
  have all : ∀ d ∈ column es n, d.shape = [] := fun d hd => by
    obtain ⟨e, he, hd⟩ := mem_column hd
    exact scalars e he d (mem_of_getElem? hd)
  have mem := mem_of_getElem? hc
  have selects := (h.selects hx).2
  have shape : x.shape = [] := selects.scalar (ne_nil_of_mem mem) all
  refine ⟨shape, fun env ρ at_ range => ?_⟩
  exact (selects.gives hc at_ (h.range range n) (shape.trans (all c mem).symm)).carries (all c mem)

end Columns

section Kinds

omit [Exact K]

variable {extent : Index → Extent}

variable {cs : List (Expr K)} {a : Expr K}

/-- Nodes of one shape whose children are scalars. -/
theorem selects_ofScalars {r : Expr K} (h : Columns extent slot es cs) (nonempty : es ≠ [])
    (shape : ∀ e ∈ es, r.shape = e.shape) (scalars : ∀ e ∈ es, ∀ c ∈ e.children, c.shape = [])
    (node : ∀ e ∈ es, ∀ (env : Environment K) (ρ : Valuation), Forall₂ (Carries env ρ ρ) e.children cs →
      Carries env ρ ρ e r) : Selects extent slot es r := by
  refine .ofShapes nonempty shape fun {env ρ k e} he at_ range => ?_
  refine (node e (mem_of_getElem? he) env ρ ?_).gives
  exact (h.scalars scalars he).imp fun c x hx => hx.2 env ρ at_ range

theorem selects_binary {op : BinaryOp} {b : Expr K} (h : Columns extent slot es [a, b]) (nonempty : es ≠ [])
    (kinds : ∀ e ∈ es, ∃ x y, e = .binary op x y) (fits : ∀ e ∈ es, e.NodeFits extent) :
    Selects extent slot es (.binary op a b) := by
  refine selects_ofScalars h nonempty (fun e he => ?_) (fun e he => ?_) fun e he env ρ columns => ?_
  all_goals
    obtain ⟨x, y, rfl⟩ := kinds e he
    have scalars : x.shape = [] ∧ y.shape = [] := fits _ he
  · rfl
  · simpa [children] using scalars
  · obtain _ | ⟨left, _ | ⟨right, _ | _⟩⟩ := columns
    exact .binary scalars left right

theorem selects_negation (h : Columns extent slot es [a]) (nonempty : es ≠ [])
    (kinds : ∀ e ∈ es, ∃ x, e = .negation x) (fits : ∀ e ∈ es, e.NodeFits extent) : Selects extent slot es (.negation a) := by
  refine selects_ofScalars h nonempty (fun e he => ?_) (fun e he => ?_) fun e he env ρ columns => ?_
  all_goals
    obtain ⟨x, rfl⟩ := kinds e he
    have scalar : x.shape = [] := fits _ he
  · rfl
  · simpa [children] using scalar
  · obtain _ | ⟨operand, _ | _⟩ := columns
    exact .negation scalar operand

theorem selects_listTensor {shape : List Nat} (h : Columns extent slot es cs)
    (first : ∃ xs, .listTensor shape xs ∈ es) (kinds : ∀ e ∈ es, ∃ shape' xs, e = .listTensor shape' xs)
    (fits : ∀ e ∈ es, e.NodeFits extent) : Selects extent slot es (.listTensor shape cs) := by
  obtain ⟨xs₀, mem₀⟩ := first
  have scalars : ∀ e ∈ es, ∀ c ∈ e.children, c.shape = [] := by
    intro e he
    obtain ⟨shape', xs, rfl⟩ := kinds e he
    exact (fits _ he).2
  have sizes : ∀ e ∈ es, e.size = cs.length := by
    intro e he
    obtain ⟨shape', xs, rfl⟩ := kinds e he
    rw [size_listTensor, ← (fits _ he).1, ← h.length he]
    rfl
  have size : (Expr.listTensor shape cs).size = cs.length := by
    rw [size_listTensor, ← size_listTensor shape xs₀, sizes _ mem₀]
  refine ⟨fun ranks rigid e he => ?_, fun _ => ⟨(sized_of_shape rfl).1, fun e he => (size.trans (sizes e he).symm).le⟩,
    fun {env ρ k e} he at_ range same => ?_, fun {env ρ k e} he at_ range known same => ?_⟩
  · -- all are scalars, since one of them is
    obtain ⟨e₁, he₁, scalar | unsized⟩ := rigid
    · have none : ∀ e ∈ es, e.shape = [] := fun e he => length_eq_zero_iff.1 (by rw [ranks e₁ he₁ e he, scalar]; rfl)
      exact (none _ mem₀).trans (none e he).symm
    · obtain ⟨shape', xs, rfl⟩ := kinds e₁ he₁
      exact absurd (sized_of_shape rfl).1 unsized
  · have mem := mem_of_getElem? he
    have columns := h.scalars scalars he
    obtain ⟨shape', xs, rfl⟩ := kinds e mem
    obtain rfl : shape = shape' := ofNats_injective same
    exact (Carries.listTensor (fits _ mem).2 (columns.imp fun c x hx => hx.2 env ρ at_ range)).gives
  · have mem := mem_of_getElem? he
    have columns := h.scalars scalars he
    obtain ⟨shape', xs, rfl⟩ := kinds e mem
    rw [size_listTensor, size_listTensor] at same
    exact .listTensor same (fits _ mem).2 (columns.imp fun c x hx => (hx.2 env ρ at_ range).gives)

theorem selects_concatenate (h : Columns extent slot es cs)
    (kinds : ∀ e ∈ es, ∃ ps, e = .concatenate ps) (fits : ∀ e ∈ es, e.NodeFits extent)
    (solid : ∀ e ∈ es, ∀ c ∈ e.children, c.Solid) : (∀ c ∈ cs, c.Sized) ∧ Selects extent slot es (.concatenate cs) := by
  have known : ∀ n, ∀ d ∈ column es n, d.Sized ∧ d.Solid := by
    intro n d hd
    obtain ⟨e, he, hd⟩ := mem_column hd
    have mem := mem_of_getElem? hd
    refine ⟨?_, solid e he d mem⟩
    obtain ⟨ps, rfl⟩ := kinds e he
    exact fits _ he d mem
  have sized : ∀ c ∈ cs, c.Sized := by
    intro c hc
    obtain ⟨n, hn⟩ := mem_iff_getElem?.1 hc
    exact ((h.selects hn).2.size (known n)).1
  -- each part is at most as large as the parts in whose place it stands
  have le : ∀ {k : Nat} {e : Expr K}, es[k]? = some e → Forall₂ (fun c x => x.size ≤ c.size) e.children cs := fun he =>
    h.forall₂ he fun {n c x} hx hc => ((h.selects hx).2.size (known n)).2 c (mem_of_getElem? hc)
  have shape := Expr.shape_concatenate sized
  have shapes : ∀ e ∈ es, e.shape = Shape.ofNats [(e.children.map Expr.size).sum] := by
    intro e he
    obtain ⟨ps, rfl⟩ := kinds e he
    exact Expr.shape_concatenate (fits _ he)
  have size : ∀ {e : Expr K} {n : Nat}, e.shape = Shape.ofNats [n] → e.size = n := fun same => by
    rw [Expr.size, (Expr.sized_of_shape same).2, count_cons]
    exact Nat.mul_one _
  have gives : ∀ {env : Environment K} {ρ : Valuation} {k : Nat} {e : Expr K}, es[k]? = some e → Expr.position env ρ slot = k →
      (∀ e ∈ es, ρ.Inside extent e.freeIndices) → (cs.map Expr.size).sum = (e.children.map Expr.size).sum →
      Expr.Gives env ρ e (.concatenate cs) := by
    intro env ρ k e he at_ range sum
    have mem := mem_of_getElem? he
    have same := Expr.size_eq_of_sum_eq (le he) sum
    have parts : Forall₂ (fun c x => x.size = c.size → Expr.GivesInOrder env ρ c x) e.children cs :=
      h.forall₂ he fun {n c x} hx hc => (h.selects hx).2.inOrder hc at_ (h.range range n) (known n)
    obtain ⟨ps, rfl⟩ := kinds e mem
    refine .concatenate (forall₂_iff_zip.2 ⟨same.length_eq, fun {c x} hx => ?_⟩)
    exact ⟨forall₂_zip same hx, forall₂_zip parts hx (forall₂_zip same hx)⟩
  refine ⟨sized, fun _ rigid => ?_, fun _ => ⟨(Expr.sized_of_shape shape).1, fun e he => ?_⟩, fun {env ρ k e} he at_ range same => ?_,
    fun {env ρ k e} he at_ range _ same => ?_⟩
  · obtain ⟨e, he, scalar | unsized⟩ := rigid
    · rw [shapes e he] at scalar
      cases scalar
    · exact absurd (Expr.sized_of_shape (shapes e he)).1 unsized
  · obtain ⟨k, hk⟩ := mem_iff_getElem?.1 he
    rw [size shape, size (shapes e he)]
    exact Expr.sum_size_le (le hk)
  · rw [shape, shapes e (mem_of_getElem? he)] at same
    exact gives he at_ range (List.cons.inj (Expr.ofNats_injective same)).1
  · have shapes := shapes e (mem_of_getElem? he)
    rw [size shape, size shapes] at same
    exact (gives he at_ range same).inOrder (Expr.sized_of_shape shapes).1 (by rw [shape, shapes, same])

theorem selects_conditional {c y n : Expr K} (h : Columns extent slot es [c, y, n]) (branches : y.shape = n.shape)
    (kinds : ∀ e ∈ es, ∃ c y n, e = .conditional c y n) (fits : ∀ e ∈ es, e.NodeFits extent) :
    Selects extent slot es (.conditional c y n) := by
  have condition : ∀ d ∈ column es 0, d.shape = [] := by
    intro d hd
    obtain ⟨e, he, hd⟩ := mem_column hd
    obtain ⟨c, y, n, rfl⟩ := kinds e he
    cases hd
    exact (fits _ he).1
  have branch : ∀ j, j = 1 ∨ j = 2 → ∀ d ∈ column es j, ∃ e ∈ es, d ∈ e.children ∧ d.shape = e.shape := by
    intro j hj d hd
    obtain ⟨e, he, hd⟩ := mem_column hd
    refine ⟨e, he, mem_of_getElem? hd, ?_⟩
    obtain ⟨c, y, n, rfl⟩ := kinds e he
    rcases hj with rfl | rfl
    · cases hd
      rfl
    · cases hd
      exact (fits _ he).2.symm
  have yes : ∀ e ∈ es, ∃ d ∈ column es 1, d.shape = e.shape := by
    intro e he
    obtain ⟨c, y, n, rfl⟩ := kinds e he
    exact ⟨y, mem_filterMap.2 ⟨_, he, rfl⟩, rfl⟩
  have known : (∀ e ∈ es, e.Sized ∧ e.Solid) → ∀ j, j = 1 ∨ j = 2 → ∀ d ∈ column es j, d.Sized ∧ d.Solid := by
    intro known j hj d hd
    obtain ⟨e, he, child, shape⟩ := branch j hj d hd
    exact ⟨by rw [Expr.Sized, shape]; exact (known e he).1, (known e he).2.child child⟩
  have first : Selects extent slot (column es 0) c := (h.selects (n := 0) rfl).2
  have second : Selects extent slot (column es 1) y := (h.selects (n := 1) rfl).2
  have third : Selects extent slot (column es 2) n := (h.selects (n := 2) rfl).2
  refine ⟨fun ranks rigid e he => ?_, fun all => ?_, fun {env ρ k e} he at_ range same => ?_,
    fun {env ρ k e} he at_ range all same => ?_⟩
  · obtain ⟨d, hd, shape⟩ := yes e he
    refine (second.shape (fun d hd d' hd' => ?_) ?_ d hd).trans shape
    · obtain ⟨e, he, -, shape⟩ := branch 1 (.inl rfl) d hd
      obtain ⟨e', he', -, shape'⟩ := branch 1 (.inl rfl) d' hd'
      rw [shape, shape', ranks e he e' he']
    · obtain ⟨e, he, rigid⟩ := rigid
      obtain ⟨d, hd, shape⟩ := yes e he
      exact ⟨d, hd, by rwa [Expr.Sized, shape]⟩
  · obtain ⟨sized, le⟩ := second.size (known all 1 (.inl rfl))
    refine ⟨sized, fun e he => ?_⟩
    obtain ⟨d, hd, shape⟩ := yes e he
    exact (le d hd).trans (Expr.size_congr shape).le
  all_goals
    have fit := fits e (mem_of_getElem? he)
    obtain ⟨c', y', n', rfl⟩ := kinds e (mem_of_getElem? he)
    have chosen : (column es 0)[k]? = some c' := h.column_at (n := 0) rfl he
    have scalar := first.scalar (ne_nil_of_mem (mem_of_getElem? chosen)) condition
    have carries := (first.gives chosen at_ (h.range range 0) (scalar.trans fit.1.symm)).carries fit.1
  · refine .conditional fit.1 fit.2 carries (second.gives (h.column_at (n := 1) rfl he) at_ (h.range range 1) same) ?_
    exact third.gives (h.column_at (n := 2) rfl he) at_ (h.range range 2) (branches.symm.trans (same.trans fit.2))
  · refine .conditional fit.1 fit.2 branches carries
      (second.inOrder (h.column_at (n := 1) rfl he) at_ (h.range range 1) (known all 1 (.inl rfl)) same) ?_
    refine third.inOrder (h.column_at (n := 2) rfl he) at_ (h.range range 2) (known all 2 (.inr rfl)) ?_
    rw [← Expr.size_congr branches, ← Expr.size_congr fit.2]
    exact same

/-- A node is made again from what is selected from the children. -/
theorem ensures_reconstruct_columns [Exact K] {d : Expr K} (mem : d ∈ es) (columns : Columns extent slot es cs)
    (kinds : ∀ e ∈ es, SameKind d e) (plain : hasPayload d = false) (fits : ∀ e ∈ es, e.NodeFits extent)
    (solid : ∀ e ∈ es, ∀ c ∈ e.children, c.Solid) :
    Ensures extent (Build.reconstruct d cs) fun r => r.WellFormed extent ∧ Selects extent slot es r := by
  have nonempty := ne_nil_of_mem mem
  have fit : ∀ c ∈ cs, c.WellFormed extent := fun c hc => by
    obtain ⟨n, hn⟩ := mem_iff_getElem?.1 hc
    exact (columns.selects hn).1
  have finish : ∀ {x : Expr K} {y : Build (Expr K)}, Selects extent slot es x →
      Ensures extent y (Refines (fun _ => False) extent x) →
      Ensures extent y fun r => r.WellFormed extent ∧ Selects extent slot es r := fun selects h =>
    h.mono fun r hr => ⟨hr.fits, selects.refine hr⟩
  have length := columns.length mem
  cases d with
  | binary op a b =>
    obtain ⟨a', b', rfl⟩ := length_eq_two.1 length.symm
    have same : ∀ e ∈ es, ∃ x y, e = .binary op x y := by
      intro e he
      obtain ⟨op', x, y, rfl, name⟩ := kinds e he
      refine ⟨x, y, ?_⟩
      rw [opName_injective _ name]
      rintro c rfl
      cases plain
    exact finish (selects_binary columns nonempty same fits) (ensures_binary (fit a' (by simp)) (fit b' (by simp)))
  | negation a =>
    obtain ⟨a', rfl⟩ := length_eq_one_iff.1 length.symm
    exact finish (selects_negation columns nonempty kinds fits) (ensures_negation (fit a' (by simp)))
  | conditional c y n =>
    obtain ⟨c', y', n', rfl⟩ := length_eq_three.1 length.symm
    by_cases branches : y'.shape = n'.shape
    · exact finish (selects_conditional columns branches kinds fits)
        (ensures_conditional (fit c' (by simp)) (fit y' (by simp)) (fit n' (by simp)))
    · exact ensures_requireScalar.bind fun _ _ => ensures_require.bind fun _ same => absurd (eq_of_beq same) branches
  | listTensor shape xs =>
    have scalars : ∀ c ∈ cs, c.shape = [] := by
      have entries : ∀ e ∈ es, ∀ c ∈ e.children, c.shape = [] := by
        intro e he
        obtain ⟨shape', xs, rfl⟩ := kinds e he
        exact (fits _ he).2
      obtain ⟨k, hk⟩ := mem_iff_getElem?.1 mem
      intro c hc
      obtain ⟨-, -, scalar, -⟩ := exists_of_forall₂ (columns.scalars entries hk).flip hc
      exact scalar
    refine ensures_ite (fun length => ?_) fun _ => ensures_throw
    exact finish (selects_listTensor columns ⟨xs, mem⟩ kinds fits) (ensures_listTensor fit scalars (eq_of_beq length))
  | concatenate ps =>
    obtain ⟨sized, selects⟩ := selects_concatenate columns kinds fits solid
    exact finish selects (ensures_concatenate fit sized)
  | _ => cases plain

end Kinds

theorem picks_children (ih : ∀ {s es}, Ready s slot es → Picks s slot es (self es))
    (ready : Ready s slot es) {d : Expr K} (mem : d ∈ es) (kinds : ∀ e ∈ es, e.kindName = d.kindName) (plain : hasPayload d = false)
    (length : ∀ e ∈ es, e.children.length = d.children.length) :
    Picks s slot es (do
      let cs ← (List.range d.children.length).mapM fun n => self (column es n)
      Build.reconstruct d cs) := by
  have kinds : ∀ e ∈ es, SameKind d e := fun e he => sameKind_of_kindName (kinds e he)
  refine (leads_mapM (S := fun n c s' => c.WellFormed s'.extents ∧ Selects s'.extents slot (column es n) c)
    (fun grows hc => ⟨grows.wellFormed hc.1, hc.2.of_grows grows⟩) fun n hn s₁ grows => ?_).bind fun cs s₁ grows hcs => ?_
  · refine ih ((ready.mono grows).column (fun e he => (kinds e he).isBinder plain) fun e he => ?_)
    rw [length e he]
    exact mem_range.1 hn
  · have columns : Columns s₁.extents slot es cs := by
      refine ⟨fun he => ?_, fun he => (kinds _ he).isBinder plain, fun {n c} hc => ?_⟩
      · rw [length _ he, ← hcs.length_eq, length_range]
      · rcases getElem?_of_forall₂ hcs n with ⟨-, none⟩ | ⟨m, c', hm, hc', selects⟩
        · rw [none] at hc
          cases hc
        · cases hc.symm.trans hc'
          obtain ⟨lt, eq⟩ := List.getElem?_eq_some_iff.1 hm
          rw [getElem_range] at eq
          exact eq ▸ selects
    refine (ensures_reconstruct_columns mem columns kinds plain (fun e he => (grows.wellFormed (ready.each he).fits).here)
      fun e he c hc => (ready.each he).solid hc).leads.mono fun r s₂ _ ⟨same, hr⟩ => ?_
    rwa [Session.extents_congr same]

/-! ## The selection -/

section

omit [Field K] [Exact K]

omit [Scalar K] in
theorem eq_of_distinct {α : Type} [BEq α] [LawfulBEq α] {l : List α} {a : α} (h : distinct l = [a]) : (∀ x ∈ l, x = a) ∧ a ∈ l := by
  refine ⟨fun x hx => ?_, ?_⟩
  · rw [← Program.mem_distinct, h] at hx
    exact mem_singleton.1 hx
  · rw [← Program.mem_distinct, h]
    exact mem_singleton.2 rfl

omit [Scalar K] in
theorem kinds_of_allOfKinds (h : allOfKinds [a, b] es = true) (he : e ∈ es) : e.kindName = a ∨ e.kindName = b := by
  simpa using all_eq_true.1 h e he

omit [Scalar K] in
theorem exists_of_not_allOfKinds (h : ¬ allOfKinds [a, b] es = true) : ∃ e ∈ es, ¬ (e.kindName = a ∨ e.kindName = b) := by
  by_contra none
  push Not at none
  exact h (all_eq_true.2 fun e he => by simpa using none e he)

/-- A tensor over indices has known extents. -/
theorem shape_of_bindersFit {body : Expr K} {bs : List Binder} (h : BindersFit extent body bs) :
    (Expr.componentTensor body bs).shape = Shape.ofNats (bs.map fun b => b.2.toNat) := by
  rw [Shape.ofNats, map_map]
  refine map_congr_left fun b hb => congrArg some ?_
  exact (Int.toNat_of_nonneg (h.pos hb).le).symm

end

theorem picks_selectWithin (depth : Nat) : ∀ {s : Session} {es : List (Expr K)}, Ready s slot es →
    Picks s slot es (selectWithin depth es slot) := by
  induction depth with
  | zero => exact fun _ => leads_throw
  | succ depth ih =>
    intro s es ready
    unfold selectWithin
    cases es with
    | nil => exact leads_throw
    | cons d ds =>
      have mem : d ∈ d :: ds := mem_cons_self
      refine leads_ite (fun same => picks_same ready mem fun e he => ?_) fun _ => ?_
      · exact eq_of_beq (all_eq_true.1 same e he)
      refine leads_ite (fun kinds => ?_) fun other => ?_
      · dsimp only
        split
        · rename_i slots single
          obtain ⟨all, entry⟩ := eq_of_distinct single
          refine picks_indexed ih ready (fun e he => ?_) ?_
          · rcases kinds_of_allOfKinds kinds he with kind | kind
            · obtain ⟨t, slots', rfl⟩ : SameKind (.indexed d []) e := sameKind_of_kindName kind
              exact .inl ⟨t, by rw [all slots' (mem_filterMap.2 ⟨_, he, rfl⟩)]⟩
            · exact .inr (sameKind_of_kindName (d := .zero []) kind)
          · obtain ⟨e, he, eq⟩ := mem_filterMap.1 entry
            cases e with
            | indexed t slots' =>
              cases eq
              exact ⟨t, he⟩
            | _ => cases eq
        · exact leads_throw
      refine leads_ite (fun _ => ?_) fun _ => ?_
      · exact picks_listed ready (ne_nil_of_mem mem)
      refine leads_ite (fun kinds => ?_) fun _ => ?_
      · split
        · rename_i shape single
          obtain ⟨all, -⟩ := eq_of_distinct single
          have all : ∀ e ∈ d :: ds, e.shape = shape := fun e he => all _ (mem_map_of_mem he)
          -- one of them is a tensor over indices, and has positive extents
          obtain ⟨ns, rfl⟩ : ∃ ns, shape = Shape.ofNats ns := by
            obtain ⟨e, he, kind⟩ := exists_of_not_allOfKinds other
            obtain ⟨body, bs, rfl⟩ : SameKind (.componentTensor d []) e :=
              sameKind_of_kindName ((kinds_of_allOfKinds kinds he).resolve_right fun zero => kind (.inr zero))
            exact ⟨_, (all _ he).symm.trans (shape_of_bindersFit (ready.each he).fits.here)⟩
          refine (leads_overNew ih ready all (fun e he scalar => ?_) (ne_nil_of_mem mem) ?_).mono
            fun r s' _ ⟨fits, same, gives⟩ => ⟨fits, .ofShapes (ne_nil_of_mem mem) (fun e he => same.trans (all e he).symm) gives⟩
          · rcases kinds_of_allOfKinds kinds he with kind | kind
            · obtain ⟨body, bs, rfl⟩ : SameKind (.componentTensor d []) e := sameKind_of_kindName kind
              exact .node rfl fun c hc => (ready.each he).solid hc
            · obtain ⟨shape, rfl⟩ : SameKind (.zero []) e := sameKind_of_kindName kind
              obtain rfl : shape = [] := scalar
              exact solid_scalarZero
          · exact length_map ..
        · exact leads_throw
      refine leads_ite (fun kinds => ?_) fun _ => leads_throw
      refine leads_ite (fun _ => leads_throw) fun plain => ?_
      refine ensures_require.leads.bind fun _ s₁ grows ⟨_, length⟩ => ?_
      refine ensures_require.leads.bind fun _ s₂ grows' _ => ?_
      refine picks_children ih (ready.mono (grows.trans grows')) mem (fun e he => ?_) (by simpa using plain) fun e he => ?_
      · exact eq_of_beq (all_eq_true.1 kinds e he)
      · exact eq_of_beq (all_eq_true.1 length e he)

/-- Expressions of one shape of known extents, in which nothing is shadowed and no zero tensor is without entries: what is
selected has their shape, and at the place of an expression the entries of that expression. -/
theorem select_gives {ns : List Nat} (fits : ∀ e ∈ es, e.WellFormed s.extents) (scopes : ∀ e ∈ es, e.Unshadowed)
    (known : ∀ e ∈ es, ∀ i ∈ e.freeIndices, s.Has i) (solid : ∀ e ∈ es, e.Solid) (shape : ∀ e ∈ es, e.shape = Shape.ofNats ns)
    (slotFits : Build.SlotsFit s.extents [slot] [some (Int.ofNat es.length)]) :
    Build.Leads s (select es slot) fun r s' => r.WellFormed s'.extents ∧ r.shape = Shape.ofNats ns ∧
      ∀ {env : Environment K} {ρ : Valuation} {k : Nat} {e : Expr K}, es[k]? = some e → Expr.position env ρ slot = k →
        (∀ e ∈ es, ρ.Inside s'.extents e.freeIndices) → Expr.Gives env ρ e r := by
  have ready : Ready s slot es :=
    ⟨fun he => ⟨fits _ he, scopes _ he, fun hi => known _ he _ hi, fun hc => (solid _ he).child hc⟩, slotFits⟩
  unfold select
  cases es with
  | nil => exact Build.leads_throw
  | cons d ds =>
    refine Build.ensures_require.leads.bind fun _ s₁ grows _ => ?_
    refine leads_overNew (fun ready => picks_selectWithin _ ready) (ready.mono grows) shape (fun e he _ => solid e he) (List.cons_ne_nil d ds) ?_
    rw [List.length_map, shape d List.mem_cons_self, Shape.ofNats, List.length_map]

end Rules

/-! ## Block vectors -/

/-- The entries of a table, multiplied by a number. -/
def scaledEntry (a b : ℚ) : Expr ℚ := .binary .product (.indexed (.literal ⟨[2], #[a, b]⟩ 0) [.free ⟨0⟩]) (.var "x" [])

/-- A table multiplied by a number. -/
def scaledTable (a b : ℚ) : Expr ℚ := .componentTensor (scaledEntry a b) [(⟨0⟩, 2)]

/-- A scaled table with nothing behind it, and one with a number. -/
def blockVectors : List (Expr ℚ) :=
  [.concatenate [scaledTable 1 2, .zero [some 1]], .concatenate [scaledTable 3 4, .literal ⟨[1], #[5]⟩ 0]]

/-- Two indices of extent two. -/
def twoIndices : Session := { indices := #[⟨none, some 2⟩, ⟨none, some 2⟩] }

/-- An expression without free indices that can be selected from. -/
structure ClosedPart (s : Session) (e : Expr ℚ) : Prop where
  fits : e.WellFormed s.extents
  scopes : e.Unshadowed
  free : e.freeIndices = []
  solid : e.Solid
  sized : e.Sized

variable {s : Session}

theorem mem_freeIndices_scaledEntry : i ∈ (scaledEntry a b).freeIndices ↔ i = ⟨0⟩ := by
  rw [scaledEntry, mem_freeIndices_binary, mem_freeIndices_indexed]
  simp [freeIndices]

theorem not_binds_scaledEntry (i : Index) : ¬ (scaledEntry a b).Binds i := by
  have entry : ¬ (Expr.indexed (.literal ⟨[2], #[a, b]⟩ 0) [.free ⟨0⟩]).Binds i :=
    not_binds_node rfl (forall_mem_singleton.2 (not_binds_node rfl nofun))
  have number : ¬ (Expr.var "x" [] : Expr ℚ).Binds i := not_binds_node rfl nofun
  refine not_binds_node rfl ?_
  simpa [scaledEntry, children] using ⟨entry, number⟩

theorem freeIndices_scaledTable (a b : ℚ) : (scaledTable a b).freeIndices = [] := by
  rw [eq_nil_iff_forall_not_mem]
  intro i hi
  obtain ⟨hi, out⟩ := mem_freeIndices_componentTensor.1 hi
  exact out (by simp [mem_freeIndices_scaledEntry.1 hi])

theorem unshadowed_scaledTable (a b : ℚ) : (scaledTable a b).Unshadowed := by
  refine ⟨by simp [freeIndices_scaledTable], fun nested => ?_⟩
  rcases somewhere_iff.1 nested with (twice | ⟨i, -, c, hc, below⟩) | ⟨c, hc, below⟩
  · exact twice (nodup_singleton _)
  · exact not_binds_scaledEntry i (mem_singleton.1 hc ▸ below)
  · obtain ⟨i, bound⟩ := exists_binds_of_nested below
    exact not_binds_scaledEntry i (mem_singleton.1 hc ▸ bound)

theorem wellFormed_scaledTable (a b : ℚ) : (scaledTable a b).WellFormed twoIndices.extents := by
  have entry : (Expr.indexed (.literal ⟨[2], #[a, b]⟩ 0) [.free ⟨0⟩]).WellFormed twoIndices.extents :=
    wellFormed_node ⟨by simp, .cons (.inr rfl) .nil⟩ (forall_mem_singleton.2 (wellFormed_leaf trivial rfl)) rfl
  have number : (Expr.var "x" [] : Expr ℚ).WellFormed twoIndices.extents := wellFormed_leaf trivial rfl
  have scaled : (scaledEntry a b).WellFormed twoIndices.extents := by
    refine wellFormed_node ⟨rfl, rfl⟩ ?_ rfl
    simpa [scaledEntry, children] using ⟨entry, number⟩
  refine wellFormed_node ⟨rfl, by simp, ?_, ?_, ?_⟩ (forall_mem_singleton.2 scaled) rfl
  · simp [mem_freeIndices_scaledEntry]
  · exact fun hb => mem_singleton.1 hb ▸ rfl
  · simp

theorem solid_scaledTable (a b : ℚ) : (scaledTable a b).Solid := by
  have entry : (Expr.indexed (.literal ⟨[2], #[a, b]⟩ 0) [.free ⟨0⟩]).Solid :=
    .node rfl (forall_mem_singleton.2 (solid_leaf rfl rfl))
  have number : (Expr.var "x" [] : Expr ℚ).Solid := solid_leaf rfl rfl
  have scaled : (scaledEntry a b).Solid := by
    refine .node rfl ?_
    simpa [scaledEntry, children] using ⟨entry, number⟩
  exact .node rfl (forall_mem_singleton.2 scaled)

theorem closedPart_scaledTable (a b : ℚ) : ClosedPart twoIndices (scaledTable a b) :=
  ⟨wellFormed_scaledTable a b, unshadowed_scaledTable a b, freeIndices_scaledTable a b, solid_scaledTable a b, rfl⟩

theorem closedPart_leaf {e : Expr ℚ} (fits : NodeFits s.extents e) (none : e.parts = []) (own : e.ownBinders = [])
    (free : e.freeIndices = []) (solid : e.Solid) (sized : e.Sized) : ClosedPart s e := by
  have children : e.children = [] := (append_eq_nil_iff.1 none).1
  exact ⟨wellFormed_leaf fits none, unshadowed_node own (by simp [free]) (by simp [children]), free, solid, sized⟩

theorem closedPart_concatenate {ps : List (Expr ℚ)} (h : ∀ p ∈ ps, ClosedPart s p) : ClosedPart s (.concatenate ps) := by
  have none : (Expr.concatenate ps).freeIndices = [] := by
    rw [eq_nil_iff_forall_not_mem]
    intro i hi
    obtain ⟨p, hp, hi⟩ := mem_freeIndices_concatenate.1 hi
    rw [(h p hp).free] at hi
    cases hi
  refine ⟨wellFormed_node (fun p hp => (h p hp).sized) (fun p hp => (h p hp).fits) rfl,
    unshadowed_node rfl (by simp [none]) fun p hp => (h p hp).scopes, none, .node rfl fun p hp => (h p hp).solid,
    (sized_of_shape (shape_concatenate fun p hp => (h p hp).sized)).1⟩

/-- Among the block vectors, selected at an index. -/
theorem select_blockVectors : Build.Leads twoIndices (select blockVectors (.free ⟨1⟩)) fun r s' =>
    r.WellFormed s'.extents ∧ r.shape = Shape.ofNats [3] ∧
      ∀ {env : Environment ℚ} {ρ : Valuation} {k : Nat} {e : Expr ℚ}, blockVectors[k]? = some e → Expr.position env ρ (.free ⟨1⟩) = k →
        (∀ e ∈ blockVectors, ρ.Inside s'.extents e.freeIndices) → Expr.Gives env ρ e r := by
  have zero : ClosedPart twoIndices (.zero (Shape.ofNats [1])) :=
    closedPart_leaf trivial rfl rfl (by simp [Expr.freeIndices]) (Expr.solid_zero_ofNats (by decide)) (Expr.sized_of_shape rfl).1
  have number : ClosedPart twoIndices (.literal ⟨[1], #[5]⟩ 0) :=
    closedPart_leaf trivial rfl rfl (by simp [Expr.freeIndices]) (Expr.solid_leaf rfl rfl) rfl
  have closed : ∀ e ∈ blockVectors, ClosedPart twoIndices e := by
    simp only [blockVectors, List.forall_mem_cons]
    refine ⟨closedPart_concatenate ?_, closedPart_concatenate ?_, List.forall_mem_nil _⟩
    · simpa using ⟨closedPart_scaledTable 1 2, zero⟩
    · simpa using ⟨closedPart_scaledTable 3 4, number⟩
  refine select_gives (fun e he => (closed e he).fits) (fun e he => (closed e he).scopes) (fun e he => ?_)
    (fun e he => (closed e he).solid) (fun e he => ?_) ?_
  · simp [(closed e he).free]
  · revert e he
    simp only [blockVectors, List.forall_mem_cons]
    exact ⟨rfl, rfl, List.forall_mem_nil _⟩
  · exact ⟨.cons (.inr rfl) .nil, by simp⟩

end Rewrite

end FormCompiler
