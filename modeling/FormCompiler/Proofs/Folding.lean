import FormCompiler.Proofs.Entries
import FormCompiler.Proofs.Binding
import FormCompiler.Proofs.Rational

/-!
# Folding is sound

A term is built from its leaves upwards. Each constructor may fold what it is given, so that what is built looks nothing like
the term; but it has the shape of the term and its values.
-/

namespace FormCompiler

open List Build

namespace Expr

variable {K : Type} [Scalar K]

/-- The entries of a tensor, one after the other. -/
def entriesOf (inner : List Nat) (e : Expr K) : List (Expr K) :=
  (tuples inner).map fun idx => .indexed e (idx.map fun n => .fixed (Int.ofNat n))

/-- A computation builds a term from its leaves upwards, where indices have the given extents. The term is written down as it is:
a list of tensors as that of all their entries. -/
inductive Builds (extent : Index → Extent) : Build (Expr K) → Expr K → Prop where
  | leaf {e : Expr K} : e.parts = [] → NodeFits extent e → Builds extent (pure e) e
  | literal (t : Tensor K) (stamp : UInt64) : Builds extent (Build.literal t) (.literal t stamp)
  | binary {x y : Build (Expr K)} {a b : Expr K} (op : BinaryOp) : Builds extent x a → Builds extent y b →
      a.shape = [] → b.shape = [] → Builds extent (do Build.binary op (← x) (← y)) (.binary op a b)
  | conditional {x y z : Build (Expr K)} {c t f : Expr K} : Builds extent x c → Builds extent y t → Builds extent z f →
      c.shape = [] → t.shape = f.shape → Builds extent (do Build.conditional (← x) (← y) (← z)) (.conditional c t f)
  | indexed {x : Build (Expr K)} {t : Expr K} {slots : List (Slot (Expr K))} : Builds extent x t → SlotsFit extent slots t.shape →
      Builds extent (do Build.indexed (← x) slots) (.indexed t slots)
  | componentTensor {x : Build (Expr K)} {a : Expr K} {bs : List Binder} : Builds extent x a → a.shape = [] → Bounds extent bs →
      Builds extent (do tensorOver (← x) (bs.map Prod.fst)) (.componentTensor a bs)
  | indexSum {x : Build (Expr K)} {a : Expr K} {bs : List Binder} : Builds extent x a → a.shape = [] → Bounds extent bs →
      Builds extent (do sumOver (← x) (bs.map Prod.fst)) (.indexSum a bs)
  | listTensor {ps : List (Build (Expr K) × Expr K)} {shape inner : List Nat} : (∀ p ∈ ps, Builds extent p.1 p.2) →
      ps.length = count shape → (∀ p ∈ ps, p.2.shape = Shape.ofNats inner) →
      Builds extent (do Build.listTensor shape (← ps.mapM Prod.fst))
        (.listTensor (shape ++ inner) ((ps.map Prod.snd).flatMap (entriesOf inner)))
  | concatenate {ps : List (Build (Expr K) × Expr K)} : (∀ p ∈ ps, Builds extent p.1 p.2) →
      (∀ p ∈ ps, (Shape.toNats? p.2.shape).isSome) →
      Builds extent (do Build.concatenate (← ps.mapM Prod.fst)) (.concatenate (ps.map Prod.snd))
  | delta {i j : Slot (Expr K)} : SlotsFit extent [i, j] [none, none] → Builds extent (Build.delta i j) (.delta i j)

variable [Field K] {extent : Index → Extent}

/-- What is built has the shape of the term, and its values where they are defined. -/
structure Built (extent : Index → Extent) (e r : Expr K) : Prop where
  fits : WellFormed extent r
  shape : r.shape = e.shape
  carries (env : Environment K) (ρ : Valuation) : Carries env ρ ρ e r

variable {e r : Expr K} {shape inner : List Nat}

/-- What stands for a node with built children is built for the node. -/
theorem Refines.built {a : Expr K} (h : Refines (fun _ => True) extent a r) (shape : a.shape = e.shape)
    (carries : ∀ env ρ, Carries env ρ ρ e a) : Built extent e r :=
  ⟨h.fits, h.shape.trans shape, fun env ρ => (carries env ρ).trans shape (h.carries env ρ)⟩

variable [Exact K]

variable {es rs : List (Expr K)} {x : Build (Expr K)}

/-- Scalars are listed. -/
theorem ensures_listed (h : Forall₂ (Built extent) es rs) (scalars : ∀ e ∈ es, e.shape = [])
    (length : es.length = count shape) : Ensures extent (do
        if rs.isEmpty then throw .malformed
        if rs.all isConstant then Build.literal ⟨shape, (← rs.mapM Build.value).toArray⟩
        else return .listTensor shape rs) (Built extent (.listTensor shape es)) := by
  have each : ∀ r ∈ rs, WellFormed extent r ∧ r.shape = [] := fun r hr => by
    obtain ⟨e, he, built⟩ := exists_of_forall₂ h.flip hr
    exact ⟨built.fits, built.shape.trans (scalars e he)⟩
  refine (ensures_closeList (fun r hr => (each r hr).1) (fun r hr => (each r hr).2) (h.length_eq ▸ length)).mono
    fun r hr => hr.built rfl fun env ρ => ?_
  exact .listTensor scalars (h.imp fun _ _ built => built.carries env ρ)

theorem ensures_entries {w : Index → Prop} (fits : WellFormed extent r) (shape : r.shape = Shape.ofNats inner) :
    Ensures extent ((tuples inner).mapM fun idx => Build.entryAt r idx) fun xs => Forall₂ (Refines w extent) (entriesOf inner r) xs := by
  simp only [entriesOf, forall₂_map_left_iff]
  refine ensures_mapM fun idx hidx => ensures_indexed fits ⟨?_, fun hr => by simp at hr⟩
  rw [shape, Shape.ofNats, forall₂_map_left_iff, forall₂_map_right_iff]
  exact (mem_tuples.1 hidx).imp fun _ _ _ => trivial

/-- Tensors are listed entry by entry. -/
theorem ensures_listTensor_built (h : Forall₂ (Built extent) es rs)
    (length : es.length = count shape) (shapes : ∀ e ∈ es, e.shape = Shape.ofNats inner) :
    Ensures extent (Build.listTensor shape rs) (Built extent (.listTensor (shape ++ inner) (es.flatMap (entriesOf inner)))) := by
  have total : (es.flatMap (entriesOf inner)).length = count (shape ++ inner) := by
    rw [length_flatMap, count_append, ← length, map_congr_left (g := fun _ => count inner) fun e _ => by simp [entriesOf, length_tuples]]
    simp
  have scalars : ∀ e ∈ es.flatMap (entriesOf inner), e.shape = [] := fun e he => by
    obtain ⟨t, -, he⟩ := mem_flatMap.1 he
    obtain ⟨idx, -, rfl⟩ := mem_map.1 he
    rfl
  have shaped : Forall₂ (fun e r => e.shape = Shape.ofNats inner ∧ Built extent e r) es rs := (forall₂_and_left es rs).2 ⟨shapes, h⟩
  unfold Build.listTensor
  refine ensures_require.bind fun _ _ => ?_
  cases rs with
  | nil => exact ensures_throw
  | cons first rest =>
    refine ensures_require.bind fun _ _ => ?_
    obtain ⟨e, -, shape, built⟩ := exists_of_forall₂ shaped.flip mem_cons_self
    rw [built.shape, shape]
    cases inner with
    | nil =>
      simp only [Shape.ofNats, map_nil, isEmpty_nil, if_true, pure_bind]
      rw [append_nil] at total ⊢
      refine ensures_listed ?_ scalars total
      have single : es.flatMap (entriesOf []) = es.map (.indexed · []) := map_eq_flatMap.symm
      rw [single, forall₂_map_left_iff]
      refine shaped.imp fun e r built => ⟨built.2.fits, built.2.shape.trans built.1, fun env ρ idx _ defined => ?_⟩
      obtain rfl : idx = [] := length_eq_zero_iff.1 (by assumption)
      rw [value_indexed]
      exact built.2.carries env ρ [] (by rw [built.1]; rfl) (defined_indexed.1 defined)
    | cons n inner =>
      have some : (Shape.ofNats (n :: inner)).isEmpty = false := rfl
      simp only [toNats?_ofNats, some, Bool.false_eq_true, if_false, pure_bind]
      refine (ensures_mapM (S := fun r xs => Forall₂ (Refines (fun _ => True) extent) (entriesOf (n :: inner) r) xs) fun r hr => ?_).bind
        fun flat hflat => ensures_listed ?_ scalars total
      · obtain ⟨e, -, shape, built⟩ := exists_of_forall₂ shaped.flip hr
        exact ensures_entries built.fits (built.shape.trans shape)
      · refine rel_flatten (forall₂_map_left_iff.2 (forall₂_trans (fun he hxs => ?_) shaped hflat))
        have inside := (forall₂_and_left _ _).2 ⟨fun idx (hidx : idx ∈ tuples (n :: inner)) => hidx, forall₂_map_left_iff.1 hxs⟩
        refine forall₂_map_left_iff.2 (inside.imp fun idx x hx => hx.2.built rfl fun env ρ => .indexed ?_ rfl (he.2.carries env ρ))
        rw [he.1, length_map, (mem_tuples.1 hx.1).length_eq, Shape.ofNats, length_map]

/-- Whatever a term folds to has the shape and the values of the term. -/
theorem Builds.ensures (h : Builds extent x e) : Ensures extent x (Built extent e) := by
  have all {ps : List (Build (Expr K) × Expr K)} (ih : ∀ p ∈ ps, Ensures extent p.1 (Built extent p.2)) :
      Ensures extent (ps.mapM Prod.fst) fun rs => Forall₂ (Built extent) (ps.map Prod.snd) rs := by
    simp only [forall₂_map_left_iff]
    exact ensures_mapM ih
  have fits {es rs : List (Expr K)} (h : Forall₂ (Built extent) es rs) : ∀ r ∈ rs, WellFormed extent r := fun r hr => by
    obtain ⟨e, -, built⟩ := exists_of_forall₂ h.flip hr
    exact built.fits
  induction h with
  | leaf parts fits => exact ensures_pure ⟨wellFormed_leaf fits parts, rfl, fun _ _ => .refl _⟩
  | literal t stamp => exact (ensures_literal t stamp).mono fun r hr => hr.built rfl fun _ _ => .refl _
  | binary op _ _ sa sb iha ihb =>
    refine iha.bind fun a ha => ihb.bind fun b hb => ?_
    refine (ensures_binary ha.fits hb.fits).mono fun r hr => hr.built rfl fun env ρ => ?_
    exact .binary ⟨sa, sb⟩ (ha.carries env ρ) (hb.carries env ρ)
  | conditional _ _ _ sc same ihc iht ihf =>
    refine ihc.bind fun c hc => iht.bind fun t ht => ihf.bind fun f hf => ?_
    refine (ensures_conditional hc.fits ht.fits hf.fits).mono fun r hr => hr.built ht.shape fun env ρ => ?_
    exact .conditional ⟨sc, same⟩ (hc.carries env ρ) (ht.carries env ρ) (hf.carries env ρ)
  | indexed _ slots ih =>
    refine ih.bind fun t ht => ?_
    refine (ensures_indexed ht.fits (ht.shape ▸ slots)).mono fun r hr => hr.built rfl fun env ρ => ?_
    exact .indexed slots.dims.length_eq rfl (ht.carries env ρ)
  | componentTensor _ scalar bounds ih =>
    refine ih.bind fun a ha => ?_
    refine (ensures_tensorOver ha.fits bounds).mono fun r hr => hr.built rfl fun env ρ => ?_
    exact .componentTensor scalar fun vs => ha.carries env _
  | indexSum _ scalar bounds ih =>
    refine ih.bind fun a ha => ?_
    refine (ensures_sumOver ha.fits bounds).mono fun r hr => hr.built rfl fun env ρ => ?_
    exact .indexSum scalar fun vs => ha.carries env _
  | listTensor _ length shapes ih =>
    exact (all ih).bind fun rs hrs => ensures_listTensor_built hrs (by rwa [length_map]) (forall_mem_map.2 shapes)
  | @concatenate ps _ known ih =>
    refine (all ih).bind fun rs hrs => ?_
    refine (ensures_concatenate (fits hrs) fun r hr => ?_).mono fun r hr => hr.built ?_ fun env ρ => ?_
    · obtain ⟨e, he, built⟩ := exists_of_forall₂ hrs.flip hr
      obtain ⟨p, hp, rfl⟩ := mem_map.1 he
      rw [built.shape]
      exact known p hp
    · exact shape_withChildren (e := .concatenate (ps.map Prod.snd)) (hrs.imp fun _ _ built => built.shape)
    · refine .concatenate (fun e he => ?_) (hrs.imp fun _ _ built => ⟨built.shape, built.carries env ρ⟩)
      obtain ⟨p, hp, rfl⟩ := mem_map.1 he
      exact known p hp
  | delta slots => exact (ensures_delta slots).mono fun r hr => hr.built rfl fun _ _ => .refl _

end Expr

end FormCompiler
