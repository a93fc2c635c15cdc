import FormCompiler.Monomial.Basic
import FormCompiler.Proofs.Association

/-!
# Sums of monomials

The value of a monomial. Similar monomials have the same indices and the same atomics up to order, and a product of sums is the
sum of the products of all choices of a summand.
-/

namespace FormCompiler

open List

/-! ## Monomials -/

namespace Monomial

variable {K : Type}

/-- All the factors of a monomial. -/
def parts (m : Monomial K) : List (Expr K) := m.atomics ++ [m.rest]

variable [Scalar K] [Field K]

/-- The product of the atomics and the rest, summed over the indices. -/
def value (env : Environment K) (extent : Index → Extent) (ρ : Valuation) (m : Monomial K) : K :=
  ((ρ.runs extent m.sumIndices).map fun σ => (m.atomics.map fun a => a.value env σ []).prod * m.rest.value env σ []).sum

theorem value_eq (env : Environment K) (extent : Index → Extent) (ρ : Valuation) (m : Monomial K) :
    m.value env extent ρ = ((ρ.runs extent m.sumIndices).map fun σ => Expr.productAt env σ m.parts).sum := by
  refine congrArg List.sum (map_congr_left fun σ _ => ?_)
  simp [Expr.productAt, parts]

theorem perm_of_sameMembers {α : Type} [BEq α] [LawfulBEq α] {as bs : List α} (h : sameMembers as bs = true) : as.Perm bs := by
  induction as generalizing bs with
  | nil =>
    rw [sameMembers, List.isEmpty_iff] at h
    rw [h]
  | cons a as ih =>
    rw [sameMembers, Bool.and_eq_true] at h
    exact ((ih h.2).cons a).trans (List.perm_cons_erase (by simpa using h.1)).symm

theorem mem_iff_of_similar [Exact K] {m n : Monomial K} (h : n.similar m = true) : (∀ i, i ∈ n.sumIndices ↔ i ∈ m.sumIndices) ∧ n.atomics.Perm m.atomics := by
  rw [similar, Bool.and_eq_true, Bool.and_eq_true] at h
  refine ⟨fun i => ?_, perm_of_sameMembers h.2⟩
  rw [← Indices.mem_ofList, eq_of_beq h.1.1, Indices.mem_ofList]

end Monomial

/-! ## Products -/

namespace MonomialSum

open Rewrite (Renamer takeNames applyNames)

variable {K : Type} [Scalar K]

/-- One more factor of a product of monomials. -/
def multiplyStep (acc m : Monomial K) : Rewrite.Renaming (Monomial K) := do
  let (indices, names) ← takeNames m.sumIndices
  let atomics ← liftM (m.atomics.mapM (applyNames names))
  let rest ← liftM (m := Build) do Build.product (← applyNames names m.rest) acc.rest
  return ⟨acc.sumIndices ++ indices, acc.atomics ++ atomics, rest⟩

theorem multiply_eq (ms : List (Monomial K)) : multiply ms = ms.foldlM multiplyStep ⟨[], [], Build.one⟩ := rfl

theorem run_multiplyStep (acc m : Monomial K) (r : Renamer) : (multiplyStep acc m).run r =
    (takeNames m.sumIndices).run r >>= fun p => m.atomics.mapM (applyNames p.1.2) >>= fun as =>
      applyNames p.1.2 m.rest >>= fun c => Build.product c acc.rest >>= fun rest =>
        pure (⟨acc.sumIndices ++ p.1.1, acc.atomics ++ as, rest⟩, p.2) := by
  simp [multiplyStep]

omit [Scalar K] in
theorem mem_of_mem_choices {α : Type} {options : List (List α)} {c : List α} (h : c ∈ choices options) {a : α} (ha : a ∈ c) :
    ∃ l ∈ options, a ∈ l := by
  induction options generalizing c with
  | nil =>
    rw [mem_singleton.1 h] at ha
    cases ha
  | cons l options ih =>
    obtain ⟨b, hb, h⟩ := mem_flatMap.1 h
    obtain ⟨d, hd, rfl⟩ := mem_map.1 h
    rcases mem_cons.1 ha with rfl | ha
    · exact ⟨l, mem_cons_self, hb⟩
    · obtain ⟨l', hl', ha⟩ := ih hd ha
      exact ⟨l', mem_cons_of_mem _ hl', ha⟩

omit [Scalar K] in
theorem exists_operand {args : List (MonomialSum K)} {c : List (Monomial K)} (hc : c ∈ choices (args.map monomials)) {m : Monomial K}
    (hm : m ∈ c) : ∃ arg ∈ args, m ∈ arg.monomials := by
  obtain ⟨l, hl, hm⟩ := mem_of_mem_choices hc hm
  obtain ⟨arg, harg, rfl⟩ := mem_map.1 hl
  exact ⟨arg, harg, hm⟩

omit [Scalar K] in
/-- A product of sums is the sum of the products of all choices of a summand. -/
theorem sum_choices [Field K] {α : Type} (f : α → K) (options : List (List α)) :
    ((choices options).map fun c => (c.map f).prod).sum = (options.map fun l => (l.map f).sum).prod := by
  induction options with
  | nil => simp [choices]
  | cons l options ih =>
    rw [choices, map_flatMap, map_cons, prod_cons, ← ih, flatMap_def, sum_flatten, map_map,
      ← sum_map_mul_right]
    refine congrArg List.sum (map_congr_left fun a _ => ?_)
    simp only [Function.comp_apply, map_map, ← sum_map_mul_left]
    exact congrArg List.sum (map_congr_left fun c _ => by simp)

end MonomialSum

end FormCompiler
