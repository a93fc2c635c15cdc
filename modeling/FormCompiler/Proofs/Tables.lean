import Mathlib
import Std.Data.HashMap.Lemmas
import Std.Data.HashSet.Lemmas

/-!
# Tables under other keys

A table that is kept under other keys, which are told apart like the old ones, holds the same entries as long as the
same is done to both. The order in which entries are listed may differ.
-/

namespace FormCompiler

open List

open Std (HashMap HashSet)

section Entries

variable {α γ : Type} [BEq α] [Hashable α] [EquivBEq α] [LawfulHashable α]

theorem nodup_toList (m : HashMap α γ) : m.toList.Nodup :=
  HashMap.distinct_keys_toList.imp fun {a b} distinct same => by
    subst same
    simp at distinct

theorem toList_erase_perm (m : HashMap α γ) (k : α) :
    (m.erase k).toList.Perm (m.toList.filter fun p => !(k == p.1)) := by
  refine (perm_ext_iff_of_nodup (nodup_toList _) ((nodup_toList m).filter _)).2 fun ⟨a, v⟩ => ?_
  rw [mem_filter, HashMap.mem_toList_iff_getKey?_eq_some_and_getElem?_eq_some,
    HashMap.mem_toList_iff_getKey?_eq_some_and_getElem?_eq_some, HashMap.getKey?_erase, HashMap.getElem?_erase]
  cases k == a <;> simp

/-- Entries under keys that are told apart can be put in either order. -/
theorem insert_insert_perm (m : HashMap α γ) {a b : α} (distinct : (a == b) = false) (v w : γ) :
    HashMap.Equiv ((m.insert a v).insert b w) ((m.insert b w).insert a v) := by
  have symm : (b == a) = false := by rw [BEq.comm, distinct]
  refine .of_toList_perm (HashMap.toList_insert_perm.trans ?_)
  refine .trans (.cons _ (HashMap.toList_insert_perm.filter _)) (.trans ?_ HashMap.toList_insert_perm.symm)
  refine .trans ?_ (.cons _ (HashMap.toList_insert_perm.filter _).symm)
  simp only [filter_cons, distinct, symm, Bool.false_eq_true, not_false_eq_true, decide_true, if_true,
    filter_filter]
  refine (List.Perm.swap _ _ _).trans (.of_eq ?_)
  congr 3
  funext p
  rw [Bool.and_comm]

end Entries

/-- Two tables hold the same, read through functions on keys and on values. -/
def Corresponds {α β γ δ : Type} [BEq α] [Hashable α] [BEq β] [Hashable β] (f : α → β) (g : γ → δ) (m : HashMap α γ)
    (m' : HashMap β δ) : Prop :=
  m'.toList.Perm (m.toList.map (Prod.map f g))

namespace Corresponds

variable {α β γ δ : Type} [BEq α] [Hashable α] [EquivBEq α] [LawfulHashable α] [BEq β] [Hashable β] [EquivBEq β]
  [LawfulHashable β] {f : α → β} {g : γ → δ} {m : HashMap α γ} {m' : HashMap β δ}

omit [EquivBEq α] [LawfulHashable α] [EquivBEq β] [LawfulHashable β] in
theorem empty : Corresponds f g (∅ : HashMap α γ) (∅ : HashMap β δ) := by
  simp [Corresponds]

theorem size_eq (h : Corresponds f g m m') : m'.size = m.size := by
  rw [← HashMap.length_toList, h.length_eq, length_map, HashMap.length_toList]

theorem isEmpty_eq (h : Corresponds f g m m') : m'.isEmpty = m.isEmpty := by
  rw [HashMap.isEmpty_eq_size_eq_zero, HashMap.isEmpty_eq_size_eq_zero, h.size_eq]

section Keys

variable (keys : ∀ a b, (f a == f b) = (a == b))

include keys

theorem getElem?_eq (h : Corresponds f g m m') (a : α) : m'[f a]? = m[a]?.map g := by
  refine Option.ext fun v => ?_
  rw [HashMap.getElem?_eq_some_iff_exists_beq_and_mem_toList, Option.map_eq_some_iff]
  simp only [HashMap.getElem?_eq_some_iff_exists_beq_and_mem_toList, h.mem_iff, mem_map]
  constructor
  · rintro ⟨_, same, ⟨⟨b, w⟩, mem, heq⟩⟩
    cases heq
    exact ⟨w, ⟨b, keys a b ▸ same, mem⟩, rfl⟩
  · rintro ⟨w, ⟨b, same, mem⟩, rfl⟩
    exact ⟨f b, (keys a b).symm ▸ same, (b, w), mem, rfl⟩

theorem contains_eq (h : Corresponds f g m m') (a : α) : m'.contains (f a) = m.contains a := by
  rw [HashMap.contains_eq_isSome_getElem?, HashMap.contains_eq_isSome_getElem?, h.getElem?_eq keys, Option.isSome_map]

theorem getD_eq (h : Corresponds f g m m') (a : α) (v : γ) : m'.getD (f a) (g v) = g (m.getD a v) := by
  rw [HashMap.getD_eq_getD_getElem?, HashMap.getD_eq_getD_getElem?, h.getElem?_eq keys, Option.getD_map]

omit [EquivBEq α] [LawfulHashable α] [EquivBEq β] [LawfulHashable β] [Hashable α] [Hashable β] in
theorem filter_entries (l : List (α × γ)) (a : α) :
    (l.map (Prod.map f g)).filter (fun p => !(f a == p.1)) = (l.filter fun p => !(a == p.1)).map (Prod.map f g) := by
  rw [filter_map]
  congr 2
  funext p
  simp [keys]

theorem insert (h : Corresponds f g m m') (a : α) (v : γ) : Corresponds f g (m.insert a v) (m'.insert (f a) (g v)) := by
  have old := (filter_entries (g := g) keys m.toList a).symm
  refine HashMap.toList_insert_perm.trans (.trans ?_ (HashMap.toList_insert_perm.map _).symm)
  rw [map_cons]
  refine .cons _ (((List.Perm.filter _ h)).trans (.of_eq ?_))
  simpa using old.symm

theorem erase (h : Corresponds f g m m') (a : α) : Corresponds f g (m.erase a) (m'.erase (f a)) := by
  refine (toList_erase_perm _ _).trans (.trans (h.filter _) (.trans (.of_eq ?_) ((toList_erase_perm m a).map _).symm))
  exact filter_entries keys m.toList a

end Keys

omit [EquivBEq α] [LawfulHashable α] [EquivBEq β] [LawfulHashable β] in
/-- Doing the same to both tables, step by step. -/
theorem foldl {ι κ : Type} {h : ι → κ} {s : HashMap α γ → ι → HashMap α γ} {s' : HashMap β δ → κ → HashMap β δ}
    (step : ∀ {m m'} i, Corresponds f g m m' → Corresponds f g (s m i) (s' m' (h i)))
    (start : Corresponds f g m m') (is : List ι) :
    Corresponds f g (is.foldl s m) ((is.map h).foldl s' m') := by
  induction is generalizing m m' with
  | nil => exact start
  | cons i is ih => exact ih (step i start)

end Corresponds

end FormCompiler
