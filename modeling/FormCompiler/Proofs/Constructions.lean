import FormCompiler.Monomial.Factorise
import FormCompiler.Proofs.Association

/-!
# What constructions are made of

Expressions are made by few elementary steps: an index is looked up or given its extent, a serial number is taken, and an operation
is refused for a reason without a text of its own. Where these steps keep an invariant of the session, all constructions do. What is
returned has nothing in it that is new but constants, nodes that put the operands together, and entries and scopes that were asked for,
so that many properties of the operands are handed on.
-/

namespace FormCompiler

open FormCompiler.Expr List

/-! ## Parts -/

theorem sublist_map_fst_zip {α β : Type} (as : List α) (bs : List β) : ((as.zip bs).map Prod.fst).Sublist as := by
  induction as generalizing bs with
  | nil => exact .slnil
  | cons a as ih =>
    cases bs with
    | nil => exact nil_sublist _
    | cons b bs => exact (ih bs).cons_cons a

/-- The indices of one position, and the others, are no more than all. -/
theorem subperm_others_singles (bs : List Binder) : ((Build.others bs ++ Build.singles bs).map Prod.fst).Subperm (bs.map Prod.fst) := by
  have apart : ∀ b ∈ bs, decide (b.2 ≤ 1) = true → (!((Build.singles bs).map Prod.fst).contains b.1) = false := fun b hb small => by
    have single : b ∈ Build.singles bs := mem_filter.2 ⟨hb, small⟩
    rw [contains_iff_mem.2 (mem_map_of_mem single)]
    rfl
  have later : Build.others bs = (bs.filter fun b => !decide (b.2 ≤ 1)).filter fun b => !((Build.singles bs).map Prod.fst).contains b.1 := by
    rw [filter_filter]
    refine filter_congr fun b hb => ?_
    cases small : decide (b.2 ≤ 1) with
    | true => rw [apart b hb small]; rfl
    | false => exact (Bool.and_true _).symm
  have perm := perm_append_comm.trans (filter_append_perm (fun b : Binder => decide (b.2 ≤ 1)) bs)
  rw [later]
  exact ((filter_sublist.append (.refl (Build.singles bs))).map _).subperm.trans (perm.map _).subperm

namespace Expr

variable {K : Type}

/-- Positions in the ranges of the dimensions that have positions. -/
def Positions (shape : Shape) (ks : List Int) : Prop :=
  Forall₂ (fun (n : Extent) k => ∀ m, n = some m → 0 < m → 0 ≤ k ∧ k < m) shape ks

variable {shape : Shape} {s : List Nat} {R : Expr K → Prop} {reads binds : Index → Prop}

/-- Fixed positions are in range if there is one for each dimension and each is zero. -/
theorem positions_zero {n : Nat} (rank : shape.length = n) : Positions shape (replicate n 0) := by
  refine forall₂_iff_zip.2 ⟨by simpa using rank, fun {d k} mem m _ pos => ?_⟩
  rw [eq_of_mem_replicate (of_mem_zip mem).2]
  exact ⟨le_refl 0, pos⟩

theorem positions_tuple {idx : List Nat} (h : idx ∈ tuples s) : Positions (Shape.ofNats s) (idx.map Int.ofNat) := by
  refine forall₂_map_left_iff.2 (forall₂_map_right_iff.2 ((mem_tuples.1 h).flip.imp fun n k less m size _ => ?_))
  cases size
  exact ⟨Int.natCast_nonneg k, Int.ofNat_lt.2 less⟩

theorem ofNats_injective {t : List Nat} (h : Shape.ofNats s = Shape.ofNats t) : s = t := by
  have := congrArg Shape.toNats? h
  rwa [toNats?_ofNats, toNats?_ofNats, Option.some.injEq] at this

/-- A shape that is known to have no entries. -/
def Vacant (shape : Shape) : Prop := ∃ ns, shape = Shape.ofNats ns ∧ count ns = 0

theorem not_vacant_ofNats (ns : List Nat) (h : count ns ≠ 0) : ¬ Vacant (Shape.ofNats ns) := by
  rintro ⟨ms, same, none⟩
  exact h (ofNats_injective same ▸ none)

theorem not_vacant_nil : ¬ Vacant [] := not_vacant_ofNats [] Nat.one_ne_zero

theorem not_vacant_of_full (h : shape.hasOpenOrEmpty = false) : ¬ Vacant shape := by
  rintro ⟨ns, rfl, none⟩
  induction ns with
  | nil => cases none
  | cons n ns ih =>
    obtain ⟨first, rest⟩ : (n : Int) ≠ 0 ∧ Shape.hasOpenOrEmpty (Shape.ofNats ns) = false := by
      simpa [Shape.hasOpenOrEmpty, Shape.ofNats] using h
    rw [count_cons] at none
    exact ih ((Nat.mul_eq_zero.1 none).resolve_left (by simpa using first)) rest

/-- Nodes that put their children together, at no slot and in no scope. -/
def isJoin : Expr K → Bool
  | .binary .. | .negation _ | .call .. | .conditional .. | .listTensor .. | .concatenate _ => true
  | _ => false

/-- What is made of operands: constants, the operands, entries of listed tensors, nodes that put all operands together, and entries
and scopes of what is made. Entries are read where `reads` allows it, and no index is bound more often than it is listed. -/
inductive Made (reads : Expr K → List (Slot (Expr K)) → Prop) (es : List (Expr K)) : List Index → Expr K → Prop where
  | literal {is : List Index} {t : Tensor K} {stamp : UInt64} : Made reads es is (.literal t stamp)
  | zero {is : List Index} {shape : Shape} : ¬ Vacant shape → Made reads es is (.zero shape)
  | operand {is : List Index} {e : Expr K} : e ∈ es → Made reads es is e
  | listed {is : List Index} {shape : List Nat} {entries : List (Expr K)} {e : Expr K} : Made reads es is (.listTensor shape entries) →
      e ∈ entries → Made reads es is e
  | join {is : List Index} {e : Expr K} : e.isJoin = true → e.children = es → Made reads es is e
  | indexed {is : List Index} {t : Expr K} {slots : List (Slot (Expr K))} : Made reads es is t → reads t slots →
      Made reads es is (.indexed t slots)
  | componentTensor {is js : List Index} {body : Expr K} {bs : List Binder} : Made reads es js body →
      (bs.map Prod.fst ++ js).Subperm is → Made reads es is (.componentTensor body bs)
  | indexSum {is js : List Index} {body : Expr K} {bs : List Binder} : Made reads es js body →
      (bs.map Prod.fst ++ js).Subperm is → Made reads es is (.indexSum body bs)

theorem Made.mono {reads : Expr K → List (Slot (Expr K)) → Prop} {es : List (Expr K)} {is js : List Index} {r : Expr K}
    (h : Made reads es js r) (sub : js.Subperm is) : Made reads es is r := by
  induction h with
  | literal => exact .literal
  | zero full => exact .zero full
  | operand he => exact .operand he
  | listed _ he ih => exact .listed (ih sub) he
  | join kind children => exact .join kind children
  | indexed _ read ih => exact .indexed (ih sub) read
  | componentTensor body bound => exact .componentTensor body (bound.trans sub)
  | indexSum body bound => exact .indexSum body (bound.trans sub)

/-- What a node can become with other children. -/
inductive Remade (reads : Expr K → List (Slot (Expr K)) → Prop) (e : Expr K) (cs : List (Expr K)) : Expr K → Prop where
  | made {r : Expr K} : Made reads cs (e.ownBinders.map Prod.fst) r → Remade reads e cs r
  | listed {shape : List Nat} {entries fs : List (Expr K)} {r : Expr K} : e = .listTensor shape entries → Made reads fs [] r →
      ((∀ c ∈ cs, c.shape = []) → fs = cs) → (∀ f ∈ fs, ∃ c ∈ cs, Made reads [c] [] f) → Remade reads e cs r
  | zeros {ps : List (Expr K)} {n : Int} : e = .concatenate ps → cs.all isZero = true →
      totalSize (shapes cs) = some n → Remade reads e cs (.zero [some n])
  | access {name : String} {shape : Shape} {dims : List DimAccess} : Remade reads e cs (.access name shape dims)
  | leaf {r : Expr K} : cs = [] → r.children = [] → Remade reads e cs r

/-- Entries at fixed positions may be read. -/
def Fixes (reads : Expr K → List (Slot (Expr K)) → Prop) : Prop :=
  ∀ {t : Expr K} {ks : List Int}, Positions t.shape ks → reads t (ks.map .fixed)

/-- A property that is handed on to all that is made of operands, read at some indices and in scopes of some indices. -/
def Inherited (R : Expr K → Prop) (reads binds : Index → Prop) : Prop :=
  ∀ {es : List (Expr K)} {is : List Index} {r : Expr K}, Made (fun _ slots => ∀ i, .free i ∈ slots → reads i) es is r →
    (∀ e ∈ es, R e) → (∀ i ∈ is, binds i) → R r

theorem inherited_true : Inherited (fun _ : Expr K => True) (fun _ => True) fun _ => True := fun _ _ _ => trivial

theorem Inherited.zero (hR : Inherited R reads binds) : R Build.zero :=
  @hR [] [] _ (.zero not_vacant_nil) (by simp) (by simp)

theorem Inherited.one [Scalar K] (hR : Inherited R reads binds) : R Build.one :=
  @hR [] [] _ .literal (by simp) (by simp)

theorem fixes_free : Fixes fun (_ : Expr K) slots => ∀ i, .free i ∈ slots → reads i := by
  intro t ks _ i hi
  obtain ⟨n, -, eq⟩ := mem_map.1 hi
  cases eq

end Expr

/-! ## Elementary steps -/

namespace Build

/-- The elementary steps keep the invariant, and are refused for one of the reasons. -/
structure Suits (I : Session → Prop) (E : Error → Prop) : Prop where
  plain {e : Error} : e.Plain → E e
  extent {s : Session} (n : Nat) (info : IndexInfo) : I s → I { s with indices := s.indices.setIfInBounds n info }
  serial {s : Session} : I s → I { s with serial := s.serial + 1 }

end Build

namespace Build.Suits

variable {K : Type} {I : Session → Prop} {E : Error → Prop} {a b c e t : Expr K} {es : List (Expr K)} {is js ks : List Index}
  {reads : Expr K → List (Slot (Expr K)) → Prop} (h : Suits I E)

theorem any : Suits (fun _ => True) fun _ => True := ⟨fun _ => trivial, fun _ _ _ => trivial, fun _ => trivial⟩

include h

theorem require {c : Bool} : Meets I E (require c) fun _ => c = true :=
  meets_ite (fun met => meets_pure met) fun _ => meets_throw (h.plain rfl)

theorem requireScalar {e : Expr K} : Meets I E (requireScalar e) fun _ => True := h.require.mono fun _ _ => trivial

theorem knownExtent {i : Index} : Meets I E (knownExtent i) fun _ => True :=
  (meets_knownExtent h.plain).mono fun _ _ => trivial

theorem setExtent (i : Index) (n : Extent) : Meets I E (setExtent i n) fun _ => True := by
  refine meets_get.bind fun s inv => ?_
  dsimp only
  split
  · exact meets_set (h.extent _ _ inv)
  · exact meets_ite (fun _ => meets_pure trivial) fun _ => meets_throw (h.plain trivial)

theorem nextSerial : Meets I E nextSerial fun _ => True :=
  meets_get.bind fun _ inv => (meets_set (h.serial inv)).bind fun _ _ => meets_pure trivial

/-! ## Numbers and operators -/

section Operators

variable [Scalar K]

theorem value (e : Expr K) : Meets I E (value e) fun _ => True := by
  unfold Build.value
  split
  · exact h.require.bind fun _ _ => meets_pure trivial
  · exact meets_ite (fun _ => meets_pure trivial) fun _ => meets_throw (h.plain trivial)
  · exact meets_throw (h.plain trivial)

theorem made_literal {t : Tensor K} (full : count t.shape ≠ 0) : Meets I E (literal t) (Made reads es is) := by
  refine meets_ite (fun _ => meets_pure (.zero (not_vacant_ofNats _ full))) fun _ => meets_ite (fun _ => ?_) fun _ => meets_pure .literal
  exact h.nextSerial.bind fun _ _ => meets_pure .literal

theorem made_number {x : K} : Meets I E (number x) (Made reads es is) := h.made_literal (t := Tensor.scalar x) Nat.one_ne_zero

theorem made_binary (op : BinaryOp) : Meets I E (binary op a b) (Made reads [a, b] is) := by
  have left : Made reads [a, b] is a := .operand (by simp)
  have right : Made reads [a, b] is b := .operand (by simp)
  have zero : Made reads [a, b] is Build.zero := .zero not_vacant_nil
  have node : Made reads [a, b] is (.binary op a b) := .join rfl rfl
  have scalars {x : Build (Expr K)} (hx : Meets I E x (Made reads [a, b] is)) :
      Meets I E (do Build.requireScalar a; Build.requireScalar b; x) (Made reads [a, b] is) :=
    h.requireScalar.bind fun _ _ => h.requireScalar.bind fun _ _ => hx
  have folded {c : Prop} [Decidable c] {f : K → K → Build (Expr K)} (hf : ∀ x y, Meets I E (f x y) (Made reads [a, b] is)) :
      Meets I E (if c then do f (← Build.value a) (← Build.value b) else pure (.binary op a b)) (Made reads [a, b] is) :=
    meets_ite (fun _ => (h.value a).bind fun x _ => (h.value b).bind fun y _ => hf x y) fun _ => meets_pure node
  cases op with
  | sum =>
    refine scalars (meets_ite (fun _ => meets_pure right) fun _ => meets_ite (fun _ => meets_pure left) fun _ => ?_)
    exact folded fun _ _ => h.made_number
  | product =>
    refine scalars (meets_ite (fun _ => meets_pure zero) fun _ => meets_ite (fun _ => meets_pure right) fun _ => ?_)
    exact meets_ite (fun _ => meets_pure left) fun _ => folded fun _ _ => h.made_number
  | quotient =>
    refine scalars (meets_ite (fun _ => meets_throw (h.plain trivial)) fun _ => meets_ite (fun _ => meets_pure zero) fun _ => ?_)
    exact meets_ite (fun _ => meets_pure left) fun _ => folded fun _ _ => h.made_number
  | power =>
    refine scalars (meets_ite (fun _ => ?_) fun _ => meets_ite (fun _ => meets_pure .literal) fun _ => folded fun x y => ?_)
    · exact meets_ite (fun _ => meets_throw (h.plain trivial)) fun _ => meets_pure zero
    · cases Scalar.foldPower x y with
      | value z => exact h.made_number
      | overflow => exact meets_throw (h.plain trivial)
      | notReal => exact meets_throw (h.plain trivial)
  | _ => exact scalars (meets_pure node)

theorem made_conditional : Meets I E (conditional c a b) (Made reads [c, a, b] is) :=
  h.requireScalar.bind fun _ _ => h.require.bind fun _ _ =>
    meets_ite (fun _ => meets_pure (.operand (by simp))) fun _ => meets_pure (.join rfl rfl)

omit h in
theorem made_delta {i j : Slot (Expr K)} : Meets I E (delta i j) fun r => Made reads es is r ∨ (i == j) = false ∧ r = .delta i j := by
  refine meets_ite (fun _ => meets_pure (.inl .literal)) fun differ => ?_
  split
  · exact meets_pure (.inl (.zero not_vacant_nil))
  · exact meets_pure (.inr ⟨by simpa using differ, rfl⟩)

end Operators

/-! ## Entries and scopes -/

theorem made_tensorOver (ha : Made reads es js a) (sub : (is ++ js).Subperm ks) : Meets I E (tensorOver a is) (Made reads es ks) := by
  refine h.requireScalar.bind fun _ _ => meets_ite (fun _ => ?_) fun _ => ?_
  · exact meets_pure (ha.mono ((sublist_append_right is js).subperm.trans sub))
  refine (meets_mapM_forall₂ (S := fun slot i => slot = .free i) fun slot hslot => ?_).bind fun ls hls => ?_
  · obtain ⟨i, -, rfl⟩ := mem_map.1 hslot
    exact meets_pure rfl
  obtain rfl : ls = is := by
    rw [← forall₂_eq_eq_eq]
    exact (forall₂_map_left_iff.1 hls).flip.imp fun i j eq => (Slot.free.inj eq).symm
  refine (meets_mapM (R := fun _ => True) fun _ _ => meets_extent.mono fun _ _ => trivial).bind fun shape _ => ?_
  refine h.require.bind fun _ full => ?_
  refine meets_ite (fun _ => meets_pure (.zero (not_vacant_of_full (by simpa using full)))) fun _ => h.require.bind fun _ _ => ?_
  exact meets_pure (.componentTensor ha (((sublist_map_fst_zip _ _).append_right js).subperm.trans sub))

theorem setExtents (slots : List (Slot (Expr K))) (shape : Shape) : Meets I E (setExtents slots shape) fun _ => True := by
  unfold Build.setExtents
  generalize slots.zip shape = ps
  induction ps with
  | nil => exact meets_pure trivial
  | cons p ps ih =>
    refine Meets.bind (Q := fun _ => True) ?_ fun _ _ => ih
    obtain ⟨_ | i | _, n⟩ := p
    · exact meets_pure trivial
    · exact h.setExtent i n
    · exact meets_pure trivial

theorem access (t : Expr K) (dims : List (Int × List (Slot (Expr K) × Stride))) :
    Meets I E (access t dims) fun r => ∃ name shape ds, r = .access name shape ds := by
  have var (name shape) : Meets I E (Build.access (.var name shape) dims) fun r => ∃ name shape ds, r = .access name shape ds :=
    .of_same fun s _ => ((meets_access name shape dims).weaken fun _ refused => h.plain refused.1).mono fun _ hr => ⟨_, _, _, hr.2.2⟩
  cases t with
  | var name shape => exact var name shape
  | _ => exact meets_throw (h.plain rfl)

variable [Scalar K]

theorem made_indexed {slots : List (Slot (Expr K))} (ht : Made reads es is t) (read : t.shape.length = slots.length → reads t slots) :
    Meets I E (indexed t slots) (Made reads es is) := by
  refine h.require.bind fun _ rank => (h.setExtents slots _).bind fun _ _ => ?_
  have node : Made reads es is (.indexed t slots) := .indexed ht (read (eq_of_beq rank))
  refine meets_ite (fun _ => meets_pure ht) fun _ => meets_ite (fun _ => meets_pure ?_) fun _ => ?_
  · exact .zero not_vacant_nil
  split
  · exact meets_pure node
  · split
    · split
      · exact h.made_number
      · exact meets_throw (h.plain trivial)
    · split
      · exact h.made_number
      · exact meets_throw (h.plain trivial)
    · split
      · split
        · rename_i e found
          exact meets_pure (.listed ht (mem_of_getElem? found))
        · exact meets_throw (h.plain trivial)
      · exact meets_throw (h.plain trivial)
    · exact meets_pure node

theorem made_sumOver (fixed : Fixes reads) (ha : Made reads es js a) (sub : (is ++ js).Subperm ks) :
    Meets I E (sumOver a is) (Made reads es ks) := by
  have close {b : Expr K} {bs : List Binder} {ls : List Index} (hb : Made reads es ls b) (sub : (bs.map Prod.fst ++ ls).Subperm ks) :
      Meets I E (if bs.isEmpty then pure b else do
        Build.require (Indices.subset (bs.map Prod.fst) b.freeIndices)
        pure (.indexSum b bs)) (Made reads es ks) :=
    meets_ite (fun _ => meets_pure (hb.mono ((sublist_append_right _ _).subperm.trans sub))) fun _ =>
      h.require.bind fun _ _ => meets_pure (.indexSum hb sub)
  refine h.requireScalar.bind fun _ _ => meets_ite (fun _ => ?_) fun _ => ?_
  · exact meets_pure (ha.mono ((sublist_append_right is js).subperm.trans sub))
  refine (meets_mapM_forall₂ (S := fun slot b => slot = .free b.1) fun slot hslot => ?_).bind fun bs hbs => ?_
  · obtain ⟨i, -, rfl⟩ := mem_map.1 hslot
    exact h.knownExtent.bind fun _ _ => meets_pure rfl
  obtain rfl : bs.map Prod.fst = is := by
    rw [← forall₂_eq_eq_eq, forall₂_map_left_iff]
    exact (forall₂_map_left_iff.1 hbs).flip.imp fun b i eq => (Slot.free.inj eq).symm
  refine meets_ite (fun _ => h.require.bind fun _ _ => ?_) fun _ => close ha sub
  refine (h.made_tensorOver ha (.refl _)).bind fun t ht => (h.made_indexed ht fun rank => ?_).bind fun r hr => close hr ?_
  · have first : reads t _ := fixed (positions_zero rank)
    rwa [length_map, map_replicate, ← map_const'] at first
  · have names := (subperm_append_right js).2 (subperm_others_singles bs)
    rw [map_append, append_assoc] at names
    exact names.trans sub

/-- A listed tensor is made of its entries if they are scalars, or else of the entries that these have. -/
theorem made_listTensor (fixed : Fixes reads) {shape : List Nat} : Meets I E (listTensor shape es) fun r =>
    ∃ fs, Made reads fs is r ∧ ((∀ e ∈ es, e.shape = []) → fs = es) ∧ ∀ f ∈ fs, ∃ e ∈ es, Made reads [e] [] f := by
  have close {shape : List Nat} {fs : List (Expr K)} (full : fs ≠ [] → count shape ≠ 0) : Meets I E (do
      if fs.isEmpty then throw .malformed
      if fs.all isConstant then Build.literal ⟨shape, (← fs.mapM Build.value).toArray⟩
      else return .listTensor shape fs) (Made reads fs is) := by
    refine meets_ite (fun _ => meets_throw (h.plain trivial)) fun some => meets_ite (fun _ => ?_) fun _ => meets_pure (.join rfl rfl)
    exact (meets_mapM fun e _ => h.value e).bind fun _ _ => h.made_literal (full (by simpa using some))
  refine h.require.bind fun _ full => ?_
  have full : count shape ≠ 0 := by simpa using full
  cases es with
  | nil => exact meets_throw (h.plain trivial)
  | cons first rest =>
    refine h.require.bind fun _ alike => ?_
    dsimp only
    refine meets_ite (fun _ => ?_) fun flat => ?_
    · rw [pure_bind]
      exact (close fun _ => full).mono fun r hr => ⟨_, hr, fun _ => rfl, fun f hf => ⟨f, hf, .operand (by simp)⟩⟩
    cases found : first.shape.toNats? with
    | none => exact Meets.bind (Q := fun _ => False) (meets_throw (h.plain trivial)) fun _ none => none.elim
    | some inner =>
      refine (meets_mapM_forall₂ (S := fun e row => ∀ x ∈ row, count inner ≠ 0 ∧ Made reads [e] [] x) fun e he => ?_).bind fun rows hrows => ?_
      · have shape : e.shape = Shape.ofNats inner :=
          (eq_of_beq (all_eq_true.1 alike e he)).trans (eq_ofNats_of_toNats? found)
        refine meets_mapM fun idx mem => (h.made_indexed (.operand (by simp)) fun _ => ?_).mono fun x hx => ⟨?_, hx⟩
        · have read : reads e _ := fixed (shape ▸ positions_tuple mem)
          rwa [map_map] at read
        · exact length_tuples inner ▸ (length_pos_of_mem mem).ne'
      have all : ∀ x ∈ rows.flatten, count inner ≠ 0 ∧ ∃ e ∈ first :: rest, Made reads [e] [] x := by
        intro x hx
        obtain ⟨row, hrow, hx⟩ := mem_flatten.1 hx
        obtain ⟨e, he, each⟩ := exists_of_forall₂ hrows.flip hrow
        exact ⟨(each x hx).1, e, he, (each x hx).2⟩
      rw [pure_bind]
      refine (close fun some => ?_).mono fun r hr => ⟨_, hr, fun scalar => ?_, fun f hf => (all f hf).2⟩
      · obtain ⟨x, hx⟩ := exists_mem_of_ne_nil _ some
        rw [count_append]
        exact Nat.mul_ne_zero full (all x hx).1
      · exact absurd (scalar first mem_cons_self) (by simpa using flat)

/-! ## Nodes with new children -/

theorem remade (fixed : Fixes reads) (read : ∀ t slots, e = .indexed t slots → ∀ c ∈ es, c.shape.length = slots.length → reads c slots) :
    Meets I E (reconstruct e es) (Remade reads e es) := by
  have leaf {r : Expr K} (none : r.children = []) : Meets I E (pure r) (Remade reads e []) := meets_pure (.leaf rfl none)
  unfold reconstruct
  split
  · exact (h.made_binary _).mono fun _ => .made
  · exact h.requireScalar.bind fun _ _ => meets_pure (.made (.join rfl rfl))
  · exact h.require.bind fun _ _ => meets_pure (.made (.join rfl rfl))
  · exact h.made_conditional.mono fun _ => .made
  · refine (h.made_indexed (.operand mem_cons_self) (read _ _ rfl _ mem_cons_self)).mono fun _ => .made
  · refine (h.access _ _).mono ?_
    rintro _ ⟨name, shape, ds, rfl⟩
    exact .access
  · exact (h.made_tensorOver (.operand mem_cons_self) (Perm.of_eq (append_nil _)).subperm).mono fun _ made => .made made
  · exact (h.made_sumOver fixed (.operand mem_cons_self) (Perm.of_eq (append_nil _)).subperm).mono fun _ made => .made made
  · refine meets_ite (fun _ => (h.made_listTensor fixed).mono fun r (listed : ∃ fs, Made reads fs [] r ∧ _) => ?_)
      fun _ => meets_throw (h.plain trivial)
    obtain ⟨_, made, same, each⟩ := listed
    exact .listed rfl made same each
  · refine meets_ite (fun zeros => ?_) fun _ => meets_pure (.made (.join rfl rfl))
    split
    · rename_i n total
      exact meets_pure (.zeros rfl zeros total)
    · exact meets_throw (h.plain trivial)
  · exact made_delta.mono fun _ hr => hr.elim .made fun differ => .leaf rfl (differ.2 ▸ rfl)
  · exact leaf rfl
  · exact leaf rfl
  · exact leaf rfl
  · exact leaf rfl
  · refine meets_ite (fun _ => leaf rfl) fun _ => meets_ite (fun _ => ?_) fun _ => leaf rfl
    exact h.nextSerial.bind fun _ _ => leaf rfl
  · exact meets_throw (h.plain trivial)

/-! ## What is handed on -/

section Inherited

variable {R : Expr K → Prop} {reads binds : Index → Prop} (hR : Inherited R reads binds)

include hR

theorem binary (op : BinaryOp) (ha : R a) (hb : R b) : Meets I E (binary op a b) R :=
  (h.made_binary op).mono fun _ (made : Made _ _ [] _) => hR made (by simp [ha, hb]) (by simp)

theorem sum (ha : R a) (hb : R b) : Meets I E (sum a b) R := h.binary hR .sum ha hb

theorem product (ha : R a) (hb : R b) : Meets I E (product a b) R := h.binary hR .product ha hb

theorem conditional (hc : R c) (ha : R a) (hb : R b) : Meets I E (conditional c a b) R :=
  h.made_conditional.mono fun _ (made : Made _ _ [] _) => hR made (by simp [ha, hb, hc]) (by simp)

omit [Scalar K] in
theorem tensorOver (his : ∀ i ∈ is, binds i) (ha : R a) : Meets I E (tensorOver a is) R :=
  (h.made_tensorOver (.operand mem_cons_self) (Perm.of_eq (append_nil is)).subperm).mono fun _ made =>
    hR made (forall_mem_singleton.2 ha) his

theorem indexed {slots : List (Slot (Expr K))} (ht : R t) (hs : ∀ i, .free i ∈ slots → reads i) : Meets I E (indexed t slots) R :=
  (h.made_indexed (.operand mem_cons_self) fun _ => hs).mono fun _ (made : Made _ [t] [] _) =>
    hR made (forall_mem_singleton.2 ht) (by simp)

theorem sumOver (his : ∀ i ∈ is, binds i) (ha : R a) : Meets I E (sumOver a is) R :=
  (h.made_sumOver fixes_free (.operand mem_cons_self) (Perm.of_eq (append_nil is)).subperm).mono fun _ made =>
    hR made (forall_mem_singleton.2 ha) his

end Inherited

/-! ## Joins -/

variable {R : Expr K → Prop} {reads binds : Index → Prop}

omit [Scalar K] in
/-- Operands that are joined pair by pair have what the operator hands on. -/
theorem joins {op : Expr K → Expr K → Build (Expr K)} (hop : ∀ a b, R a → R b → Meets I E (op a b) R) :
    Rewrite.Joins I E op R fun _ _ => True where
  plain := h.plain
  single _ := trivial
  perm _ _ := trivial
  pair ha hb := (hop _ _ ha hb).mono fun _ hc => ⟨hc, fun _ => trivial⟩

variable [StrictSame K]

theorem makeSum (hR : Inherited R reads binds) (hes : ∀ e ∈ es, R e) : Meets I E (Rewrite.makeSum es) R :=
  have joins : Rewrite.Joins I E Build.sum R fun _ _ => True := h.joins fun _ _ => h.sum hR
  (joins.meets_joinGroups hes).bind fun _ hrs => (joins.meets_associate hrs.1).bind fun _ hp => meets_pure hp.1

/-- A product that is summed over indices has what products and sums of its factors have. -/
theorem sumFactorise (hR : Inherited R reads fun _ => True) (hes : ∀ e ∈ es, R e) : Meets I E (Rewrite.sumFactorise is es) R := by
  have joins : Rewrite.Joins I E Build.product R fun _ _ => True := h.joins fun _ _ => h.product hR
  have contract {state : List (Expr K) × Int} {i : Index} (hs : ∀ e ∈ state.1, R e) :
      Meets I E (Rewrite.contractIndex state i) fun state => ∀ e ∈ state.1, R e := by
    refine (joins.meets_associate fun e he => hs e (mem_filter.1 he).1).bind fun p hp => ?_
    refine (h.sumOver hR (fun _ _ => trivial) hp.1).bind fun t ht => (Rewrite.meets_pointCount h.plain).bind fun _ _ => meets_pure ?_
    exact forall_mem_append.2 ⟨fun e he => hs e (mem_filter.1 he).1, forall_mem_singleton.2 ht⟩
  have inOrder {rs : List (Expr K)} {order : List Index} (hrs : ∀ r ∈ rs, R r) :
      Meets I E (Rewrite.contractInOrder rs order) fun p => R p.1 := by
    refine (meets_foldlM (R := fun state => ∀ e ∈ state.1, R e) hrs fun state i _ hs => contract hs).bind fun state hs => ?_
    exact (joins.meets_associate hs).bind fun p hp => meets_pure hp.1
  refine meets_ite (fun _ => meets_pure hR.one) fun _ => meets_ite (fun _ => meets_throw (h.plain trivial)) fun _ => ?_
  refine (joins.meets_joinGroups hes).bind fun rs hrs => ?_
  refine (meets_foldlM (R := fun best => ∀ p ∈ best, R p.1) (by simp) fun best order _ hbest => ?_).bind fun best hbest => ?_
  · refine (inOrder hrs.1).bind fun p hp => ?_
    cases best with
    | none => exact meets_pure (by simpa using hp)
    | some least =>
      refine meets_pure ?_
      split
      · simpa using hp
      · exact hbest
  · cases best with
    | none => exact meets_throw (h.plain trivial)
    | some p => exact meets_pure (hbest p rfl)

end Build.Suits

end FormCompiler
