import Mathlib
import FormCompiler.Schedule.Queue

/-!
# What waits in a queue

The queue decides on an order only: what is put in comes out once. Loops that nothing waits under are left at once, so
that after at most one further step an element comes out as long as there is any.
-/

namespace FormCompiler

open List

namespace Queue

variable {κ α : Type}

/-- The elements that wait, in no order. -/
def pool (q : Queue κ α) : Multiset α := ((q.waiting.flatMap Prod.snd : List α) : Multiset α)

/-- Loops stand once, and only the current ones may have been emptied. -/
structure Tidy (q : Queue κ α) : Prop where
  nodup : (q.waiting.map Prod.fst).Nodup
  emptied {p : List κ × List α} : p ∈ q.waiting → p.2 = [] → q.current = some p.1

/-- An element waits under the current loops. -/
def Ready (q : Queue κ α) : Prop := ∃ loops as, q.current = some loops ∧ (loops, as) ∈ q.waiting ∧ as ≠ []

theorem tidy_empty : Tidy ({} : Queue κ α) where
  nodup := nodup_nil
  emptied h := by cases h

@[simp] theorem pool_empty : ({} : Queue κ α).pool = 0 := rfl

variable [BEq κ]

/-! ## Insertion -/

theorem flatMap_insertInto (loops : List κ) (a : α) (w : List (List κ × List α)) :
    (((insertInto loops a w).flatMap Prod.snd : List α) : Multiset α) = a ::ₘ ((w.flatMap Prod.snd : List α) : Multiset α) := by
  induction w with
  | nil => rfl
  | cons p w ih =>
    obtain ⟨key, as⟩ := p
    rw [insertInto]
    split
    · simp only [flatMap_cons, append_assoc, singleton_append, Multiset.cons_coe, Multiset.coe_eq_coe]
      exact perm_middle
    · simp only [flatMap_cons, ← Multiset.coe_add, ih, Multiset.add_cons]

variable {w : List (List κ × List α)}

theorem mem_insertInto {loops : List κ} {a : α} {p : List κ × List α} (h : p ∈ insertInto loops a w) : p.2 ≠ [] ∨ p ∈ w := by
  induction w with
  | nil =>
    simp only [insertInto, mem_singleton] at h
    exact .inl (by simp [h])
  | cons q w ih =>
    obtain ⟨key, as⟩ := q
    rw [insertInto] at h
    split at h
    · rcases mem_cons.1 h with rfl | h
      · exact .inl (by simp)
      · exact .inr (mem_cons_of_mem _ h)
    · rcases mem_cons.1 h with rfl | h
      · exact .inr mem_cons_self
      · exact (ih h).imp_right (mem_cons_of_mem _)

theorem pool_insert (q : Queue κ α) (loops : List κ) (a : α) : (q.insert loops a).pool = a ::ₘ q.pool :=
  flatMap_insertInto loops a q.waiting

variable [LawfulBEq κ]

theorem keys_insertInto (loops : List κ) (a : α) (w : List (List κ × List α)) :
    (insertInto loops a w).map Prod.fst = w.map Prod.fst ∨
      loops ∉ w.map Prod.fst ∧ (insertInto loops a w).map Prod.fst = w.map Prod.fst ++ [loops] := by
  induction w with
  | nil => exact .inr ⟨by simp, rfl⟩
  | cons p w ih =>
    obtain ⟨key, as⟩ := p
    rw [insertInto]
    split
    · exact .inl rfl
    · rename_i ne
      refine ih.imp (fun h => by simp [h]) fun ⟨new, h⟩ => ⟨?_, by simp [h]⟩
      simp only [map_cons, mem_cons, not_or]
      exact ⟨fun same => ne (by simp [same]), new⟩

theorem Tidy.insert {q : Queue κ α} (h : q.Tidy) (loops : List κ) (a : α) : (q.insert loops a).Tidy where
  nodup := by
    rcases keys_insertInto loops a q.waiting with same | ⟨new, keys⟩
    · exact same ▸ h.nodup
    · change ((insertInto loops a q.waiting).map Prod.fst).Nodup
      rw [keys, nodup_append]
      refine ⟨h.nodup, nodup_singleton _, fun k hk l hl same => new ?_⟩
      rw [← mem_singleton.1 hl, ← same]
      exact hk
  emptied hp empty := by
    rcases mem_insertInto hp with ne | hp
    · exact absurd empty ne
    · exact h.emptied hp empty

/-! ## Steps -/

omit [LawfulBEq κ] in
theorem nextLoops_mem (h : w ≠ []) (n : Nat) (loops : List κ) : ∃ p ∈ w, nextLoops w n loops = some p.1 := by
  induction n generalizing loops with
  | zero =>
    cases w with
    | nil => exact absurd rfl h
    | cons p w => exact ⟨p, mem_cons_self, rfl⟩
  | succ n ih =>
    rw [nextLoops]
    split
    · rename_i p hp
      exact ⟨p, mem_of_find?_eq_some hp, rfl⟩
    · exact ih loops.dropLast

/-- What a step does: it ends when nothing waits, takes one element out, or makes one ready. -/
inductive Stepped (q : Queue κ α) : Prop where
  | finished : q.step = none → q.pool = 0 → Stepped q
  | taken (a : α) (q' : Queue κ α) : q.step = some (some a, q') → q'.Tidy → q.pool = a ::ₘ q'.pool → Stepped q
  | entered (q' : Queue κ α) : q.step = some (none, q') → q'.Tidy → ¬ q.Ready → q'.Ready → q'.pool = q.pool → Stepped q

omit [LawfulBEq κ] in
/-- Loops are entered under which something waits. -/
theorem ready_of_enter (nodup : (w.map Prod.fst).Nodup) (full : ∀ p ∈ w, p.2 ≠ []) (ne : w ≠ []) (n : Nat) (loops : List κ) :
    Tidy (⟨w, nextLoops w n loops⟩ : Queue κ α) ∧ Ready (⟨w, nextLoops w n loops⟩ : Queue κ α) := by
  obtain ⟨p, hp, next⟩ := nextLoops_mem ne n loops
  exact ⟨⟨nodup, fun hq empty => absurd empty (full _ hq)⟩, p.1, p.2, next, hp, full p hp⟩

theorem Tidy.step {q : Queue κ α} (h : q.Tidy) : Stepped q := by
  obtain ⟨w, current⟩ := q
  have none_of_isEmpty : w.isEmpty = true → (⟨w, current⟩ : Queue κ α).pool = 0 := by
    intro empty
    rw [isEmpty_iff.1 empty]
    rfl
  cases current with
  | none =>
    have full : ∀ p ∈ w, p.2 ≠ [] := fun p hp empty => by simpa using h.emptied hp empty
    by_cases empty : w.isEmpty = true
    · exact .finished (by simp [Queue.step, empty]) (none_of_isEmpty empty)
    · obtain ⟨tidy, ready⟩ := ready_of_enter h.nodup full (by simpa using empty) 0 []
      refine .entered _ (by simp only [Queue.step, empty]; rfl) tidy ?_ ready rfl
      rintro ⟨_, _, h, _⟩
      simp at h
  | some loops =>
    cases found : w.find? fun p => p.1 == loops with
    | none =>
      have other : ∀ p ∈ w, p.1 ≠ loops := fun p hp => by simpa using List.find?_eq_none.1 found p hp
      have full : ∀ p ∈ w, p.2 ≠ [] := fun p hp empty => other p hp (by simpa using (h.emptied hp empty).symm)
      have step : Queue.step (⟨w, some loops⟩ : Queue κ α) =
          if w.isEmpty then none else some (none, ⟨w, nextLoops w loops.length loops⟩) := by
        simp only [Queue.step, found]
      by_cases empty : w.isEmpty = true
      · exact .finished (by rw [step, if_pos empty]) (none_of_isEmpty empty)
      · obtain ⟨tidy, ready⟩ := ready_of_enter h.nodup full (by simpa using empty) loops.length loops
        refine .entered _ (by rw [step, if_neg empty]) tidy ?_ ready rfl
        rintro ⟨l, as, hl, hmem, -⟩
        exact other _ hmem (by simpa using hl.symm)
    | some p =>
      obtain ⟨key, as⟩ := p
      obtain ⟨same, l, r, rfl, -⟩ := List.find?_eq_some_iff_append.1 found
      obtain rfl : key = loops := by simpa using same
      have keys : key ∉ l.map Prod.fst ++ r.map Prod.fst := by
        have := h.nodup
        simp only [map_append, map_cons] at this
        exact (nodup_middle.1 this).notMem
      have other : ∀ p ∈ l ++ r, p.1 ≠ key := by
        intro p hp same
        refine keys ?_
        rw [← map_append, ← same]
        exact mem_map_of_mem hp
      have full : ∀ p ∈ l ++ r, p.2 ≠ [] := fun p hp empty =>
        other p hp (by
          have := h.emptied (p := p) (mem_append.2 ((mem_append.1 hp).imp_right (mem_cons_of_mem _))) empty
          simpa using this.symm)
      cases last : as.getLast? with
      | some a =>
        obtain ⟨as, rfl⟩ := List.getLast?_eq_some_iff.1 last
        have keep : ∀ m : List (List κ × List α), (∀ p ∈ m, p.1 ≠ key) →
            m.map (fun p => if p.1 == key then (p.1, p.2.dropLast) else p) = m := by
          intro m hm
          refine (map_congr_left fun p hp => ?_).trans (map_id m)
          simp [hm p hp]
        refine .taken a ⟨l ++ (key, as) :: r, some key⟩ ?_ ⟨?_, ?_⟩ ?_
        · simp only [Queue.step, found, last, map_append, map_cons, beq_self_eq_true, if_true,
            dropLast_concat]
          rw [keep l fun p hp => other p (mem_append_left _ hp),
            keep r fun p hp => other p (mem_append_right _ hp)]
        · simpa using h.nodup
        · intro p hp empty
          rcases mem_append.1 hp with hp | hp
          · exact absurd empty (full p (mem_append_left _ hp))
          · rcases mem_cons.1 hp with rfl | hp
            · rfl
            · exact absurd empty (full p (mem_append_right _ hp))
        · simp only [pool, flatMap_append, flatMap_cons, Multiset.cons_coe, Multiset.coe_eq_coe,
            append_assoc, singleton_append]
          rw [← append_assoc, ← append_assoc]
          exact perm_middle
      | none =>
        obtain rfl := List.getLast?_eq_none_iff.1 last
        have rest : (l ++ (key, []) :: r).filter (fun p => !(p.1 == key)) = l ++ r := by
          have keep : ∀ m : List (List κ × List α), (∀ p ∈ m, p.1 ≠ key) → m.filter (fun p => !(p.1 == key)) = m :=
            fun m hm => filter_eq_self.2 fun p hp => by simp [hm p hp]
          simp [filter_append, keep l fun p hp => other p (mem_append_left _ hp),
            keep r fun p hp => other p (mem_append_right _ hp)]
        have step : Queue.step (⟨l ++ (key, []) :: r, some key⟩ : Queue κ α) =
            if (l ++ r).isEmpty then none else some (none, ⟨l ++ r, nextLoops (l ++ r) key.length key⟩) := by
          simp only [Queue.step, found, last, rest]
        by_cases empty : (l ++ r).isEmpty = true
        · refine .finished (by rw [step, if_pos empty]) ?_
          obtain ⟨rfl, rfl⟩ := append_eq_nil_iff.1 (isEmpty_iff.1 empty)
          rfl
        · have nodup : ((l ++ r).map Prod.fst).Nodup := by
            have := h.nodup
            simp only [map_append, map_cons] at this ⊢
            exact (nodup_middle.1 this).of_cons
          obtain ⟨tidy, ready⟩ := ready_of_enter nodup full (by simpa using empty) key.length key
          refine .entered _ (by rw [step, if_neg empty]) tidy ?_ ready (by simp [pool])
          rintro ⟨_, as, hl, hmem, ne⟩
          simp only [Option.some.injEq] at hl
          subst hl
          rcases mem_append.1 hmem with hm | hm
          · exact other _ (mem_append_left _ hm) rfl
          · rcases mem_cons.1 hm with hm | hm
            · exact ne (by simpa using hm)
            · exact other _ (mem_append_right _ hm) rfl

end Queue

end FormCompiler
