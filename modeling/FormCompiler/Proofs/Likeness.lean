import FormCompiler.Proofs.Exact

/-!
# Sameness is an equivalence

Expressions are the same if their labels are and their parts are, one by one. Their fingerprints then agree, so that
comparing these first changes nothing. Where sameness of numbers is an equivalence, so is sameness of expressions, and
what is kept by expression is found again under every expression that is the same.
-/

namespace FormCompiler

open List

/-- Numbers whose sameness is an equivalence. -/
class LawfulSame (K : Type) [Scalar K] : Prop where
  same_symm {a b : K} : Scalar.same a b = true → Scalar.same b a = true
  same_trans {a b c : K} : Scalar.same a b = true → Scalar.same b c = true → Scalar.same a c = true

instance {K : Type} [Scalar K] [StrictSame K] : LawfulSame K where
  same_symm h := StrictSame.eq_of_same h ▸ Scalar.same_self _
  same_trans h h' := StrictSame.eq_of_same h ▸ h'

/-! ## Tables -/

namespace Tensor

variable {K : Type} [Scalar K]

theorem same_iff {a b : Tensor K} : a.same b = true ↔
    a.shape = b.shape ∧ ∃ size : a.entries.size = b.entries.size, ∀ i (h : i < a.entries.size),
      Scalar.same a.entries[i] b.entries[i] = true := by
  simp only [same, Bool.and_eq_true, beq_iff_eq, Array.all_eq_true]
  simp only [Array.size_zip, Array.getElem_zip]
  constructor
  · rintro ⟨⟨shape, size⟩, all⟩
    exact ⟨shape, size, fun i h => all i (by omega)⟩
  · rintro ⟨shape, size, all⟩
    exact ⟨⟨shape, size⟩, fun i h => all i (by omega)⟩

variable [LawfulSame K] {a b c : Tensor K}

theorem same_symm (h : a.same b = true) : b.same a = true := by
  obtain ⟨shape, size, all⟩ := same_iff.1 h
  exact same_iff.2 ⟨shape.symm, size.symm, fun i hi => LawfulSame.same_symm (all i (by omega))⟩

theorem same_trans (h : a.same b = true) (h' : b.same c = true) : a.same c = true := by
  obtain ⟨shape, size, all⟩ := same_iff.1 h
  obtain ⟨shape', size', all'⟩ := same_iff.1 h'
  exact same_iff.2 ⟨shape.trans shape', size.trans size',
    fun i hi => LawfulSame.same_trans (all i hi) (all' i (by omega))⟩

end Tensor

namespace Expr

variable {K : Type} [Scalar K]

/-! ## Labels -/

section Labels

variable [LawfulSame K] {l m n : Label K}

theorem Label.same_symm (h : l.same m = true) : m.same l = true := by
  cases l <;> cases m <;>
    simp only [Label.same, Bool.and_eq_true, beq_iff_eq, Bool.false_eq_true, sameSlots_iff] at h ⊢
  case literal u s v t => exact ⟨h.1.symm, Tensor.same_symm h.2⟩
  all_goals simp_all

theorem Label.same_trans (h : l.same m = true) (h' : m.same n = true) : l.same n = true := by
  cases l <;> cases m <;>
    simp only [Label.same, Bool.and_eq_true, beq_iff_eq, Bool.false_eq_true, sameSlots_iff] at h <;>
    cases n <;>
    simp only [Label.same, Bool.and_eq_true, beq_iff_eq, Bool.false_eq_true, sameSlots_iff] at h' ⊢
  case literal u s v t w r => exact ⟨h.1.trans h'.1, Tensor.same_trans h.2 h'.2⟩
  all_goals simp_all

end Labels

/-! ## Fingerprints -/

omit [Scalar K] in
theorem key_indexed (t : Expr K) (slots : List (Slot (Expr K))) :
    (indexed t slots).key = mixHash (mixHash 29 t.key) (hash (slots.map hash)) := by
  rw [key]
  congr 2
  refine (map_congr_left fun s _ => ?_).trans attach_map_val
  obtain ⟨s, hs⟩ := s
  cases s <;> rfl

omit [Scalar K] in
theorem key_delta (i j : Slot (Expr K)) : (delta i j).key = mixHash 53 (mixHash (hash i) (hash j)) := by
  rw [key]
  cases i <;> cases j <;> rfl

/-- The fingerprint depends on the label and on the fingerprints of the parts alone. -/
theorem key_eq_of_parts {a b : Expr K} (label : a.label.same b.label = true)
    (parts : Forall₂ (fun x y => x.key = y.key) a.parts b.parts) : a.key = b.key := by
  have keys : ∀ {as bs : List (Expr K)}, Forall₂ (fun x y => x.key = y.key) as bs → as.map (key K) = bs.map (key K) := by
    intro as bs h
    induction h with
    | nil => rfl
    | cons first _ ih => rw [map_cons, map_cons, first, ih]
  have same : ∀ {x y : Expr K}, x.key = y.key → hash (Slot.runtime x) = hash (Slot.runtime y) := fun h => by simp only [hash, h]
  cases a <;> cases b <;>
    simp only [Expr.label, Label.same, Bool.and_eq_true, beq_iff_eq, Bool.false_eq_true, sameSlots_iff] at label
  all_goals simp only [Expr.parts, children, runtimeSlots, append_nil, nil_append, cons_append,
    forall₂_cons] at parts
  case indexed.indexed => rw [key_indexed, key_indexed, parts.1, map_slots same label parts.2]
  case delta.delta i j k l =>
    have := map_slots same (s := [i, j]) (t := [k, l]) (by simpa using label) parts
    simp only [map_cons, map_nil, List.cons.injEq, and_true] at this
    rw [key_delta, key_delta, this.1, this.2]
  case call.call => rw [key, key, label, keys parts]
  case listTensor.listTensor => rw [key, key, label, keys parts]
  case concatenate.concatenate => rw [key, key, keys parts]
  all_goals simp_all [key]

end Expr

/-! ## Expressions -/

/-- Lists compare as the same exactly if their members do, one by one. -/
theorem compareAll_iff {α : Type} {R : α → α → Prop} {as bs : List α}
    {f : (a : α) → a ∈ as → (b : α) → { r : Bool // a = b → r = true }}
    (member : ∀ a (ha : a ∈ as) b, (f a ha b).1 = true ↔ R a b) :
    (compareAll as bs f).1 = true ↔ Forall₂ R as bs := by
  induction as generalizing bs with
  | nil => cases bs <;> simp [compareAll]
  | cons a as ih => cases bs with
    | nil => simp [compareAll]
    | cons b bs =>
      rw [forall₂_cons, ← member a mem_cons_self b, ← ih fun a' ha' b' => member a' (mem_cons_of_mem _ ha') b']
      simp only [compareAll]
      split <;> simp_all

namespace Expr

variable {K : Type} [Scalar K]

theorem compareSame_iff {a b : Expr K} : (compareSame a b).1 = true ↔
    a.key = b.key ∧ a.label.same b.label = true ∧ Forall₂ (fun x y => (x == y) = true) a.parts b.parts := by
  rw [compareSame]
  simp only [Bool.and_eq_true, beq_iff_eq]
  rw [compareAll_iff fun x _ y => Iff.rfl]
  rfl

theorem key_eq_of_beq {a b : Expr K} (h : (a == b) = true) : a.key = b.key := (compareSame_iff.1 h).1

/-- Expressions are the same exactly if their labels are and their parts are, one by one. -/
theorem beq_iff {a b : Expr K} : (a == b) = true ↔
    a.label.same b.label = true ∧ Forall₂ (fun x y => (x == y) = true) a.parts b.parts := by
  refine ⟨fun h => (compareSame_iff.1 h).2, fun h => compareSame_iff.2 ⟨?_, h⟩⟩
  exact key_eq_of_parts h.1 (h.2.imp fun _ _ => key_eq_of_beq)

variable [LawfulSame K]

theorem beq_symm {a b : Expr K} (h : (a == b) = true) : (b == a) = true := by
  obtain ⟨label, parts⟩ := beq_iff.1 h
  refine beq_iff.2 ⟨Label.same_symm label, forall₂_iff_get.2 ?_⟩
  obtain ⟨length, all⟩ := forall₂_iff_get.1 parts
  refine ⟨length.symm, fun i hb ha => ?_⟩
  have := sizeOf_lt_of_mem_parts (a.parts.get_mem ⟨i, ha⟩)
  exact beq_symm (all i ha hb)
termination_by sizeOf a

theorem beq_trans {a b c : Expr K} (h : (a == b) = true) (h' : (b == c) = true) : (a == c) = true := by
  obtain ⟨label, parts⟩ := beq_iff.1 h
  obtain ⟨label', parts'⟩ := beq_iff.1 h'
  refine beq_iff.2 ⟨Label.same_trans label label', forall₂_iff_get.2 ?_⟩
  obtain ⟨length, all⟩ := forall₂_iff_get.1 parts
  obtain ⟨length', all'⟩ := forall₂_iff_get.1 parts'
  refine ⟨length.trans length', fun i ha hc => ?_⟩
  have := sizeOf_lt_of_mem_parts (a.parts.get_mem ⟨i, ha⟩)
  exact beq_trans (all i ha (by omega)) (all' i (by omega) hc)
termination_by sizeOf a

instance : EquivBEq (Expr K) where
  rfl := same_self _
  symm := beq_symm
  trans := beq_trans

omit [LawfulSame K] in
instance : LawfulHashable (Expr K) := ⟨fun _ _ => key_eq_of_beq⟩

end Expr

end FormCompiler
