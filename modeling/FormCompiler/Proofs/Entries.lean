import FormCompiler.Proofs.Meaning

/-!
# Entries of a table

The index tuples of a shape, their places in row order, and the parts of a concatenation in which places lie.
-/

namespace FormCompiler

open List

theorem eq_ofNats_of_toNats? {shape : Shape} {extents : List Nat} (h : Shape.toNats? shape = some extents) :
    shape = Shape.ofNats extents := by
  induction shape generalizing extents with
  | nil =>
    cases h
    rfl
  | cons n shape ih =>
    rw [Shape.toNats?, mapM_cons] at h
    obtain ⟨k, hk, h⟩ := Option.bind_eq_some_iff.1 h
    obtain ⟨ks, hks, h⟩ := Option.bind_eq_some_iff.1 h
    cases h
    rw [ih hks]
    cases n with
    | none => cases hk
    | some n =>
      cases n with
      | negSucc n => cases hk
      | ofNat n =>
        cases hk
        rfl

theorem toNats?_ofNats (s : List Nat) : Shape.toNats? (Shape.ofNats s) = some s := by
  induction s with
  | nil => rfl
  | cons n s ih =>
    rw [Shape.ofNats, map_cons, Shape.toNats?, mapM_cons]
    have rest : (s.map fun n => some (Int.ofNat n)).mapM _ = some s := ih
    rw [rest]
    rfl

theorem mem_tuples {s idx : List Nat} : idx ∈ tuples s ↔ Forall₂ (· < ·) idx s := by
  induction s generalizing idx with
  | nil => simp [tuples]
  | cons n s ih =>
    simp only [tuples, mem_flatMap, mem_range, mem_map, ih]
    constructor
    · rintro ⟨i, hi, rest, hrest, rfl⟩
      exact .cons hi hrest
    · rintro (_ | ⟨hi, hrest⟩)
      exact ⟨_, hi, _, hrest, rfl⟩

theorem count_cons (n : Nat) (s : List Nat) : count (n :: s) = n * count s := by
  have scale : ∀ (l : List Nat) (a b : Nat), l.foldl (· * ·) (a * b) = a * l.foldl (· * ·) b := by
    intro l
    induction l with
    | nil => simp
    | cons m l ih => intro a b; simp only [foldl_cons, Nat.mul_assoc, ih]
  have := scale s n 1
  simpa [count] using this

theorem count_append (s t : List Nat) : count (s ++ t) = count s * count t := by
  induction s with
  | nil => rw [nil_append, show count [] = 1 from rfl, Nat.one_mul]
  | cons n s ih => rw [cons_append, count_cons, count_cons, ih, Nat.mul_assoc]

theorem length_tuples (s : List Nat) : (tuples s).length = count s := by
  induction s with
  | nil => rfl
  | cons n s ih =>
    rw [tuples, count_cons, length_flatMap]
    simp [ih]

theorem unravel_lt {s : List Nat} {k : Nat} (h : k < count s) : Forall₂ (· < ·) (unravel s k) s := by
  induction s generalizing k with
  | nil => exact .nil
  | cons n s ih =>
    rw [count_cons] at h
    have pos : 0 < count s := Nat.pos_of_ne_zero fun zero => by simp [zero] at h
    exact .cons (Nat.div_lt_of_lt_mul (by rwa [Nat.mul_comm])) (ih (Nat.mod_lt k pos))

theorem locatePart_lt {sizes : List Nat} {k j place : Nat} (h : locatePart sizes k = some (j, place)) :
    ∃ n, sizes[j]? = some n ∧ place < n := by
  induction sizes generalizing k j with
  | nil => cases h
  | cons n sizes ih =>
    rw [locatePart] at h
    split at h
    · cases h
      exact ⟨n, rfl, by assumption⟩
    · obtain ⟨⟨i, p⟩, found, h⟩ := Option.map_eq_some_iff.1 h
      cases h
      simpa using ih found

end FormCompiler
