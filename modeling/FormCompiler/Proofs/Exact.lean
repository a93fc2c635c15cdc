import Mathlib
import FormCompiler.Expr.Node

/-!
# Exact numbers

What expressions mean is said over numbers whose operations are those of a field. Over such numbers sameness is
equality: no value differs from itself, and literals that are the same hold the same entries. Results that are kept
by expression can then be looked up like values of a function.
-/

namespace FormCompiler

open List

/-- Numbers that are computed exactly. A power of zero to zero has no value. -/
class Exact (K : Type) [Scalar K] [Field K] : Prop where
  zero_eq : (Scalar.zero : K) = 0
  one_eq : (Scalar.one : K) = 1
  add_eq (a b : K) : Scalar.add a b = a + b
  mul_eq (a b : K) : Scalar.mul a b = a * b
  div_eq (a b : K) : Scalar.div a b = a / b
  equal_iff (a b : K) : Scalar.equal a b = true ↔ a = b
  same_iff (a b : K) : Scalar.same a b = true ↔ a = b
  isNaN_eq (a : K) : Scalar.isNaN a = false
  /-- A power that is folded is the power that is computed. -/
  foldPower_eq {a b x : K} : Scalar.foldPower a b = .value x → x = Scalar.power a b
  zero_power {b : K} : b ≠ 0 → Scalar.power 0 b = 0
  power_zero {a : K} : a ≠ 0 → Scalar.power a 0 = 1

namespace Exact

variable {K : Type} [Scalar K] [Field K] [Exact K]

theorem isZero_iff (a : K) : Scalar.isZero a = true ↔ a = 0 := by
  rw [Scalar.isZero, equal_iff, zero_eq]

end Exact

/-- Numbers that are the same only as themselves. -/
class StrictSame (K : Type) [Scalar K] : Prop where
  eq_of_same {a b : K} : Scalar.same a b = true → a = b

instance {K : Type} [Scalar K] [Field K] [Exact K] : StrictSame K := ⟨(Exact.same_iff _ _).1⟩

section Sameness

variable {K : Type} [Scalar K] [StrictSame K]

theorem Tensor.eq_of_same {a b : Tensor K} (h : a.same b = true) : a = b := by
  obtain ⟨shape, entries⟩ := a
  obtain ⟨shape', entries'⟩ := b
  simp only [Tensor.same, Bool.and_eq_true, beq_iff_eq, Array.all_eq_true] at h
  obtain ⟨⟨rfl, size⟩, all⟩ := h
  have entry : ∀ i (h1 : i < entries.size) (h2 : i < entries'.size), entries[i] = entries'[i] := by
    intro i h1 h2
    have := all i (by rw [Array.size_zip]; omega)
    rw [Array.getElem_zip] at this
    exact StrictSame.eq_of_same this
  rw [Array.ext size entry]

namespace Expr

omit [Scalar K] [StrictSame K] in
/-- What depends on the kinds of slots and on the expressions that they hold. -/
theorem map_slots {α : Type} {f : Slot (Expr K) → α} {R : Expr K → Expr K → Prop}
    (same : ∀ {x y}, R x y → f (.runtime x) = f (.runtime y)) {s t : List (Slot (Expr K))}
    (kinds : s.map (Slot.map fun _ => ()) = t.map (Slot.map fun _ => ()))
    (held : Forall₂ R (s.filterMap Slot.expr?) (t.filterMap Slot.expr?)) : s.map f = t.map f := by
  induction s generalizing t with
  | nil => cases t with
    | nil => rfl
    | cons b t => simp at kinds
  | cons a s ih => cases t with
    | nil => simp at kinds
    | cons b t =>
      simp only [map_cons, List.cons.injEq] at kinds
      obtain ⟨head, tail⟩ := kinds
      cases a <;> cases b <;> simp only [Slot.map, reduceCtorEq, Slot.fixed.injEq, Slot.free.injEq] at head
      · subst head
        rw [map_cons, map_cons, ih tail (by simpa only [filterMap_cons, Slot.expr?] using held)]
      · subst head
        rw [map_cons, map_cons, ih tail (by simpa only [filterMap_cons, Slot.expr?] using held)]
      · simp only [filterMap_cons, Slot.expr?, forall₂_cons] at held
        rw [map_cons, map_cons, ih tail held.2, same held.1]

omit [Scalar K] [StrictSame K] in
/-- Slots are determined by their kinds and the expressions that they hold. -/
theorem slots_eq_of_map_of_filterMap {s t : List (Slot (Expr K))}
    (kinds : s.map (Slot.map fun _ => ()) = t.map (Slot.map fun _ => ()))
    (exprs : s.filterMap Slot.expr? = t.filterMap Slot.expr?) : s = t := by
  simpa using map_slots (f := id) (R := Eq) (congrArg _) kinds (by rw [forall₂_eq_eq_eq, exprs])

omit [Scalar K] [StrictSame K] in
theorem sameSlots_iff {s t : List (Slot Unit)} : sameSlots s t = true ↔ s = t := by
  refine ⟨fun h => ?_, fun h => h ▸ sameSlots_self s⟩
  induction s generalizing t with
  | nil => cases t with
    | nil => rfl
    | cons b t => simp [sameSlots] at h
  | cons a s ih => cases t with
    | nil => simp [sameSlots] at h
    | cons b t =>
      simp only [sameSlots, Bool.and_eq_true] at h
      rw [ih h.2]
      cases a <;> cases b <;> simp_all [Slot.beqBy]

theorem Label.eq_of_same {l m : Label K} (h : l.same m = true) : l = m := by
  cases l <;> cases m <;>
    simp only [Label.same, Bool.and_eq_true, beq_iff_eq, Bool.false_eq_true, sameSlots_iff, List.cons.injEq,
      and_true] at h ⊢
  case literal u s v t => rw [h.1, Tensor.eq_of_same h.2]
  all_goals simp_all

omit [Scalar K] [StrictSame K] in
/-- An expression is determined by its label and its parts. -/
theorem eq_of_label_of_parts {a b : Expr K} (label : a.label = b.label) (parts : a.parts = b.parts) : a = b := by
  cases a <;> cases b <;> simp only [Expr.label, reduceCtorEq] at label
  case indexed.indexed t s u r =>
    simp only [Label.indexed.injEq] at label
    simp only [Expr.parts, children, runtimeSlots, cons_append, nil_append, List.cons.injEq] at parts
    rw [parts.1, slots_eq_of_map_of_filterMap label parts.2]
  case delta.delta i j k l =>
    simp only [Label.delta.injEq] at label
    simp only [Expr.parts, children, runtimeSlots, nil_append] at parts
    have := slots_eq_of_map_of_filterMap (s := [i, j]) (t := [k, l]) (by simp [label]) parts
    simp_all
  all_goals simp_all [Expr.parts, children, runtimeSlots]

end Expr

/-- Lists that compare as the same are equal if members that do are. -/
theorem eq_of_compareAll {α : Type} {as bs : List α}
    {f : (a : α) → a ∈ as → (b : α) → { r : Bool // a = b → r = true }}
    (member : ∀ a (ha : a ∈ as) b, (f a ha b).1 = true → a = b) (h : (compareAll as bs f).1 = true) : as = bs := by
  induction as generalizing bs with
  | nil => cases bs with
    | nil => rfl
    | cons b bs => simp [compareAll] at h
  | cons a as ih => cases bs with
    | nil => simp [compareAll] at h
    | cons b bs =>
      simp only [compareAll] at h
      split at h
      · rename_i first
        rw [member a _ b first, ih (fun a' ha' b' => member a' _ b') h]
      · simp at h

namespace Expr

theorem eq_of_compareSame (a b : Expr K) (h : (compareSame a b).1 = true) : a = b := by
  rw [compareSame] at h
  simp only [Bool.and_eq_true] at h
  refine eq_of_label_of_parts (Label.eq_of_same h.2.1) (eq_of_compareAll ?_ h.2.2)
  intro x hx y hxy
  have := sizeOf_lt_of_mem_parts hx
  exact eq_of_compareSame x y hxy
termination_by sizeOf a

instance : LawfulBEq (Expr K) where
  eq_of_beq {a b} h := eq_of_compareSame a b h
  rfl {a} := same_self a

omit [StrictSame K] in
instance decidableEqOfBEq [LawfulBEq (Expr K)] : DecidableEq (Expr K) := instDecidableEqOfLawfulBEq

instance : LawfulBEq (Slot (Expr K)) where
  eq_of_beq {a b} h := by
    cases a <;> cases b <;> simp only [BEq.beq, Slot.beqBy, Bool.false_eq_true] at h
    · simp_all
    · simp_all
    · rw [eq_of_compareSame _ _ h]
  rfl {a} := by
    cases a with
    | fixed n => simp [BEq.beq, Slot.beqBy]
    | free i => simp [BEq.beq, Slot.beqBy]
    | runtime e => exact same_self e

end Expr

end Sameness

end FormCompiler
