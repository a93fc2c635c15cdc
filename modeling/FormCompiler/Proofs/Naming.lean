import FormCompiler.Proofs.Sessions
import FormCompiler.Rewrite.Product

/-!
# Names taken into use

An index that is in use gets another name: one that it was given before, or a new index. The names that were given lead
forward, so that among as many names as are in use, and one more, there is one that is not. Visible indices are those that
occur in the expressions at hand; none of them is ever given as a name.
-/

namespace FormCompiler

open List

namespace Rewrite

open Build (Arrives arrives_pure)

variable {V : Index → Prop} {s : Session} {r : Renamer} {i : Index}

/-- The names given so far lead forward, to indices of the session that are not visible. -/
structure Reserved (V : Index → Prop) (names : RenameMap) (s : Session) : Prop where
  forward {p : Index × Index} : p ∈ names → p.1.number < p.2.number
  has {p : Index × Index} : p ∈ names → s.Has p.2
  hidden {p : Index × Index} : p ∈ names → ¬ V p.2

theorem Reserved.grows {names : RenameMap} {s' : Session} (h : Reserved V names s) (grows : s.Grows s') : Reserved V names s' :=
  ⟨h.forward, fun hp => grows.has (h.has hp), h.hidden⟩

/-- No more is visible than the session has. -/
def Visible (V : Index → Prop) (s : Session) : Prop := ∀ i, V i → s.Has i

theorem Visible.grows {s' : Session} (h : Visible V s) (grows : s.Grows s') : Visible V s' := fun i hi => grows.has (h i hi)

/-- An extent that is known is the size of the index, and a name has the size of the index that it was given to. -/
structure Sized (size : Index → Int) (names : RenameMap) (s : Session) : Prop where
  extent {i : Index} {n : Int} : s.extents i = some n → n = size i
  name {p : Index × Index} : p ∈ names → size p.2 = size p.1

/-- Names were given since; the sizes of the indices that were there before are kept. -/
structure Resized (s : Session) (size : Index → Int) (names : RenameMap) (s' : Session) (size' : Index → Int) : Prop where
  sized : Sized size' names s'
  keeps {i : Index} : s.Has i → size' i = size i

theorem Resized.refl (h : Sized size names s) : Resized s size names s size := ⟨h, fun _ => rfl⟩

theorem Resized.trans {s₁ s₂ : Session} {size₁ size₂ : Index → Int} {names' : RenameMap} (first : Resized s size names s₁ size₁)
    (second : Resized s₁ size₁ names' s₂ size₂) (grows : s.Grows s₁) : Resized s size names' s₂ size₂ :=
  ⟨second.sized, fun hi => (second.keeps (grows.has hi)).trans (first.keeps hi)⟩

/-- Names have been given; no extent was touched. -/
structure Steady (V : Index → Prop) (s : Session) (names : RenameMap) (s' : Session) : Prop where
  reserved : Reserved V names s'
  extents : s'.extents = s.extents

/-- An index has got a name, which may have its size. -/
structure Names (V : Index → Prop) (s : Session) (names : RenameMap) (i j : Index) (names' : RenameMap) (s' : Session) : Prop
    extends Steady V s names' s' where
  has : s'.Has j
  sized {size : Index → Int} : Sized size names s → ∃ size', Resized s size names' s' size' ∧ size' j = size i

/-! ## One name -/

theorem run_nextName (i : Index) (r : Renamer) :
    (nextName i).run r = match r.names.find? fun p => p.1 == i with
      | some p => pure (p.2, r)
      | none => Build.freshIndex none >>= fun j => pure (j, { r with names := r.names ++ [(i, j)] }) := by
  unfold nextName
  cases found : r.names.find? fun p => p.1 == i <;> simp [found]

/-- The name that follows an index comes later than the index and is not visible. -/
theorem arrives_nextName (reserved : Reserved V r.names s) (visible : Visible V s) (has : s.Has i) :
    Arrives s ((nextName i).run r) fun p s' => i.number < p.1.number ∧ ¬ V p.1 ∧ p.2.inUse = r.inUse ∧
      Names V s r.names i p.1 p.2.names s' := by
  rw [run_nextName]
  cases found : r.names.find? fun p => p.1 == i with
  | some p =>
    have mem := mem_of_find?_eq_some found
    obtain rfl : p.1 = i := by simpa using List.find?_some found
    exact arrives_pure ⟨reserved.forward mem, reserved.hidden mem, rfl, ⟨reserved, rfl⟩, reserved.has mem,
      fun sized => ⟨_, .refl sized, sized.name mem⟩⟩
  | none =>
    refine (Build.leads_freshIndex.arrives rfl).bind fun j s' grows new => arrives_pure ?_
    obtain ⟨number, hj, extents⟩ := new
    have later : i.number < j.number := number ▸ has
    -- the new index is none of those that were there
    have other : ∀ {k}, s.Has k → k ≠ j := by
      rintro k hk rfl
      rw [Session.Has, number] at hk
      exact Nat.lt_irrefl _ hk
    have hidden : ¬ V j := fun seen => other (visible j seen) rfl
    have all {P : Index × Index → Prop} (old : ∀ {p}, p ∈ r.names → P p) (new : P (i, j)) {p : Index × Index}
        (hp : p ∈ r.names ++ [(i, j)]) : P p := (mem_append.1 hp).elim old fun hp => mem_singleton.1 hp ▸ new
    refine ⟨later, hidden, rfl, ⟨⟨all reserved.forward later, all (fun hp => grows.has (reserved.has hp)) hj,
      all reserved.hidden hidden⟩, extents⟩, hj, fun {size} sized => ?_⟩
    have kept : ∀ {k}, s.Has k → Function.update size j (size i) k = size k := fun hk => Function.update_of_ne (other hk) ..
    refine ⟨Function.update size j (size i), ⟨⟨fun {k n} known => ?_, fun {p} hp => ?_⟩, kept⟩, Function.update_self ..⟩
    · rw [extents] at known
      rw [kept (Session.has_of_extent known)]
      exact sized.extent known
    · rcases mem_append.1 hp with hp | hp
      · have second := reserved.has hp
        rw [kept second, kept (Nat.lt_trans (reserved.forward hp) second)]
        exact sized.name hp
      · rw [mem_singleton.1 hp, kept has]
        exact Function.update_self ..

theorem run_unusedName_succ (n : Nat) (i : Index) (r : Renamer) :
    (unusedName (n + 1) i).run r =
      if r.inUse.contains i then (nextName i).run r >>= fun p => (unusedName n p.1).run p.2 else pure (i, r) := by
  rw [unusedName]
  by_cases used : i ∈ r.inUse <;> simp [used]

/-- A name that is found is not in use. The names that were passed on the way are all in use, and there is one name more
to try than there are names in use. -/
theorem arrives_unusedName (reserved : Reserved V r.names s) (visible : Visible V s) (has : s.Has i) {n : Nat} {passed : List Index}
    (once : passed.Nodup) (used : passed ⊆ r.inUse) (earlier : ∀ j ∈ passed, j.number < i.number)
    (enough : passed.length + n = r.inUse.length + 1) :
    Arrives s ((unusedName n i).run r) fun p s' => p.1 ∉ r.inUse ∧ (p.1 = i ∨ i ∈ r.inUse ∧ ¬ V p.1) ∧ p.2.inUse = r.inUse ∧
      Names V s r.names i p.1 p.2.names s' := by
  induction n generalizing s r i passed with
  | zero =>
    have := (subperm_of_subset once used).length_le
    omega
  | succ n ih =>
    rw [run_unusedName_succ]
    refine Build.arrives_ite (fun here => ?_) fun out => ?_
    · refine (arrives_nextName reserved visible has).bind fun p s₁ grows next => ?_
      obtain ⟨later, hidden, same, next⟩ := next
      have here : i ∈ r.inUse := by simpa using here
      have more := ih (r := p.2) next.reserved (visible.grows grows) next.has
        (nodup_cons.2 ⟨fun mem => Nat.lt_irrefl _ (earlier i mem), once⟩ : (i :: passed).Nodup)
        (by rw [same]; exact cons_subset.2 ⟨here, used⟩)
        (fun j hj => by
          rcases mem_cons.1 hj with rfl | hj
          · exact later
          · exact Nat.lt_trans (earlier j hj) later)
        (by rw [same, length_cons]; omega)
      refine more.mono fun q s₂ grows' found => ?_
      obtain ⟨unused, seen, same', found⟩ := found
      rw [same] at unused same'
      refine ⟨unused, .inr ⟨here, ?_⟩, same', ⟨found.reserved, found.extents.trans next.extents⟩, found.has, fun sized => ?_⟩
      · rcases seen with same | ⟨-, hidden'⟩
        · rwa [same]
        · exact hidden'
      · obtain ⟨size₁, resized, eq⟩ := next.sized sized
        obtain ⟨size₂, resized', eq'⟩ := found.sized resized.sized
        exact ⟨size₂, resized.trans resized' grows, eq'.trans eq⟩
    · exact arrives_pure ⟨by simpa using out, .inl rfl, rfl, ⟨reserved, rfl⟩, has, fun sized => ⟨_, .refl sized, rfl⟩⟩

/-! ## Several names -/

theorem run_takeName (i : Index) (r : Renamer) :
    (takeName i).run r = (unusedName (r.inUse.length + 1) i).run r >>= fun p =>
      pure (p.1, { p.2 with inUse := p.2.inUse ++ [p.1] }) := by
  simp [takeName]

/-- An index is taken under a name that was not in use: its own, or one that is not visible. -/
theorem arrives_takeName (reserved : Reserved V r.names s) (visible : Visible V s) (has : s.Has i) :
    Arrives s ((takeName i).run r) fun p s' => p.1 ∉ r.inUse ∧ (p.1 = i ∨ i ∈ r.inUse ∧ ¬ V p.1) ∧ p.2.inUse = r.inUse ++ [p.1] ∧
      Names V s r.names i p.1 p.2.names s' := by
  rw [run_takeName]
  refine (arrives_unusedName reserved visible has nodup_nil (nil_subset _) (by simp) (by simp)).bind
    fun p s' _ found => arrives_pure ?_
  obtain ⟨unused, own, same, names⟩ := found
  exact ⟨unused, own, by rw [same], names⟩

/-- Indices under names that differ from each other and were not in use: the own ones, or such as are not visible. -/
structure Taken (V : Index → Prop) (inUse is js : List Index) : Prop where
  own : Forall₂ (fun i j => j = i ∨ ¬ V j) is js
  distinct : js.Nodup
  unused {j : Index} : j ∈ js → j ∉ inUse

theorem run_takeNames (is : List Index) (r : Renamer) :
    (takeNames is).run r = (is.mapM takeName).run r >>= fun p =>
      pure ((p.1, (is.zip p.1).filter fun (i, j) => i != j), p.2) := by
  simp [takeNames]

theorem arrives_mapM_takeName {is : List Index} (reserved : Reserved V r.names s) (visible : Visible V s) (has : ∀ i ∈ is, s.Has i) :
    Arrives s ((is.mapM takeName).run r) fun p s' => Taken V r.inUse is p.1 ∧ (∀ j ∈ p.1, s'.Has j) ∧
      p.2.inUse = r.inUse ++ p.1 ∧ Steady V s p.2.names s' ∧
      (is.Nodup → Forall₂ (fun i j => j = i ∨ i ∈ r.inUse ∨ ¬ V i) is p.1) ∧
      ∀ size, Sized size r.names s → ∃ size', Resized s size p.2.names s' size' ∧ Forall₂ (fun i j => size' j = size i) is p.1 := by
  induction is generalizing s r with
  | nil => exact arrives_pure ⟨⟨.nil, .nil, by simp⟩, by simp, by simp, ⟨reserved, rfl⟩, fun _ => .nil, fun size sized =>
      ⟨size, .refl sized, .nil⟩⟩
  | cons i is ih =>
    rw [mapM_cons, StateT.run_bind]
    refine (arrives_takeName reserved visible (has i mem_cons_self)).bind fun p s₁ grows first => ?_
    obtain ⟨unused, own, inUse, first⟩ := first
    have later : ∀ k ∈ is, s.Has k := fun k hk => has k (mem_cons_of_mem _ hk)
    rw [StateT.run_bind]
    refine (ih first.reserved (visible.grows grows) fun k hk => grows.has (later k hk)).bind
      fun q s₂ grows' rest => arrives_pure ?_
    obtain ⟨taken, hq, inUse', steady, moved, sizes⟩ := rest
    rw [inUse] at taken inUse' moved
    refine ⟨⟨.cons (own.imp id And.right) taken.own, nodup_cons.2 ⟨fun mem => ?_, taken.distinct⟩, fun hj => ?_⟩,
      forall_mem_cons.2 ⟨grows'.has first.has, hq⟩, by simp [inUse'], ⟨steady.reserved, steady.extents.trans first.extents⟩,
      fun distinct => ?_, fun size sized => ?_⟩
    · exact taken.unused mem (by simp)
    · rcases mem_cons.1 hj with rfl | hj
      · exact unused
      · exact fun mem => taken.unused hj (mem_append_left _ mem)
    · obtain ⟨out, distinct⟩ := nodup_cons.1 distinct
      refine .cons (own.imp id fun clash => .inl clash.1) (forall₂_iff_zip.2 ⟨taken.own.length_eq, fun {k j} hk => ?_⟩)
      refine (forall₂_zip (moved distinct) hk).imp id fun clash => clash.elim (fun mem => ?_) .inr
      -- the name of the first index is in use now: it is the first index, or a name that was given
      rcases mem_append.1 mem with mem | mem
      · exact .inl mem
      · obtain rfl := mem_singleton.1 mem
        rcases own with rfl | ⟨-, hidden⟩
        · exact absurd (of_mem_zip hk).1 out
        · exact .inr hidden
    · obtain ⟨size₁, resized, same⟩ := first.sized sized
      obtain ⟨size₂, resized', same'⟩ := sizes size₁ resized.sized
      refine ⟨size₂, resized.trans resized' grows, .cons (by rw [resized'.keeps first.has, same])
        (forall₂_iff_zip.2 ⟨same'.length_eq, fun {k j} hk => ?_⟩)⟩
      rw [forall₂_zip same' hk, resized.keeps (later k (of_mem_zip hk).1)]

/-- The indices that got another name, with it. -/
def changes (is js : List Index) : List (Index × Index) := (is.zip js).filter fun p => p.1 != p.2

/-- Indices under names that were taken for them. Those that got another name were in use, or may be names themselves, and
the name has their size. -/
structure Given (V : Index → Prop) (inUse is js : List Index) (size : Index → Int) : Prop where
  taken : Taken V inUse is js
  moved {p : Index × Index} : p ∈ changes is js → p.1 ∈ inUse ∨ ¬ V p.1
  sizes {p : Index × Index} : p ∈ changes is js → size p.2 = size p.1

theorem arrives_takeNames {is : List Index} (reserved : Reserved V r.names s) (visible : Visible V s) (has : ∀ i ∈ is, s.Has i) :
    Arrives s ((takeNames is).run r) fun p s' => (Taken V r.inUse is p.1.1 ∧ (∀ j ∈ p.1.1, s'.Has j) ∧
      p.1.2 = changes is p.1.1) ∧ (p.2.inUse = r.inUse ++ p.1.1 ∧ Steady V s p.2.names s') ∧
      (is.Nodup → ∀ size, Sized size r.names s → ∃ size', Sized size' p.2.names s' ∧ Given V r.inUse is p.1.1 size') := by
  rw [run_takeNames]
  refine (arrives_mapM_takeName reserved visible has).bind fun p s' _ found => arrives_pure ?_
  obtain ⟨taken, hp, inUse, steady, moved, sizes⟩ := found
  refine ⟨⟨taken, hp, rfl⟩, ⟨inUse, steady⟩, fun distinct size sized => ?_⟩
  obtain ⟨size', resized, same⟩ := sizes size sized
  refine ⟨size', resized.sized, taken, fun {p} hp => ?_, fun {p} hp => ?_⟩
  · obtain ⟨hp, differ⟩ := mem_filter.1 hp
    exact (forall₂_zip (moved distinct) hp).resolve_left (Ne.symm (by simpa using differ))
  · have hp := (mem_filter.1 hp).1
    rw [forall₂_zip same hp, resized.keeps (has _ (of_mem_zip hp).1)]

/-- Indices that are not in use keep their names. -/
theorem run_takeNames_of_unused {is : List Index} {r : Renamer} (distinct : is.Nodup) (unused : ∀ i ∈ is, i ∉ r.inUse) :
    (takeNames is).run r = pure ((is, []), { r with inUse := r.inUse ++ is }) := by
  have all : (is.mapM takeName).run r = pure (is, { r with inUse := r.inUse ++ is }) := by
    induction is generalizing r with
    | nil => simp
    | cons i is ih =>
      obtain ⟨out, distinct⟩ := nodup_cons.1 distinct
      have free : r.inUse.contains i = false := by simpa using unused i mem_cons_self
      rw [mapM_cons, StateT.run_bind, run_takeName, run_unusedName_succ, free]
      simp only [Bool.false_eq_true, if_false, pure_bind, StateT.run_bind]
      rw [ih distinct]
      · simp
      · intro j hj mem
        rcases mem_append.1 mem with mem | mem
        · exact unused j (mem_cons_of_mem _ hj) mem
        · exact out (mem_singleton.1 mem ▸ hj)
  rw [run_takeNames, all, pure_bind]
  have none : (is.zip is).filter (fun (i, j) => i != j) = [] := by
    refine filter_eq_nil_iff.2 fun p hp => ?_
    have same : p.1 = p.2 := forall₂_zip (R := Eq) (forall₂_same.2 fun _ _ => rfl) hp
    simp [same]
  simp [none]

end Rewrite

end FormCompiler
