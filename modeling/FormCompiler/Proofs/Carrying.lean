import FormCompiler.Proofs.Definedness
import FormCompiler.Proofs.Entries

/-!
# Carrying values

An expression carries the value of another one if it is defined wherever that one is, and has its value there. The two
may be read at different positions of the indices, as when indices are replaced. A node whose children carry the values
of other children carries the value of the node with those.
-/

namespace FormCompiler

open FormCompiler.Expr List

/-! ## Members at one place -/

variable {α β : Type} {as : List α} {bs : List β} {R : α → β → Prop}

theorem getElem?_of_forall₂ (h : Forall₂ R as bs) (k : Nat) :
    (as[k]? = none ∧ bs[k]? = none) ∨ ∃ a b, as[k]? = some a ∧ bs[k]? = some b ∧ R a b := by
  induction h generalizing k with
  | nil => exact .inl ⟨rfl, rfl⟩
  | cons hab _ ih =>
    cases k with
    | zero => exact .inr ⟨_, _, rfl, rfl, hab⟩
    | succ k => simpa using ih k

theorem forall₂_trans {γ : Type} {S : β → γ → Prop} {T : α → γ → Prop}
    (imp : ∀ {a b c}, R a b → S b c → T a c) {cs : List γ} (first : Forall₂ R as bs)
    (second : Forall₂ S bs cs) : Forall₂ T as cs := by
  induction first generalizing cs with
  | nil =>
    obtain _ | _ := second
    exact .nil
  | cons here _ ih =>
    obtain _ | ⟨there, rest⟩ := second
    exact .cons (imp here there) (ih rest)

theorem length_unravel (s : List Nat) (k : Nat) : (unravel s k).length = s.length := by
  induction s generalizing k with
  | nil => rfl
  | cons n s ih => rw [unravel, length_cons, ih, length_cons]

namespace Expr

variable {K : Type}

section Entries

variable {R : Expr K → Expr K → Prop} {as bs : List (Expr K)}

theorem entryAt_of_forall₂ (h : Forall₂ R as bs) (shape : List Nat) (idx : List Int) :
    (entryAt shape as idx = none ∧ entryAt shape bs idx = none) ∨
      ∃ a b, entryAt shape as idx = some a ∧ entryAt shape bs idx = some b ∧ R a b := by
  unfold entryAt
  cases Tensor.resolveAll shape idx with
  | none => exact .inl ⟨rfl, rfl⟩
  | some p => exact getElem?_of_forall₂ h _

theorem partAt_of_forall₂ (h : Forall₂ R as bs) (shapes : ∀ a b, R a b → b.shape = a.shape) (idx : List Int) :
    (partAt as idx = none ∧ partAt bs idx = none) ∨
      ∃ a b entry, partAt as idx = some (a, entry) ∧ partAt bs idx = some (b, entry) ∧ R a b ∧
        entry.length = a.extents.length := by
  have extents : ∀ a b : Expr K, R a b → b.extents = a.extents := fun a b hab => by
    rw [extents, extents, shapes a b hab]
  have sizes : (bs.map fun p => count p.extents) = as.map fun p => count p.extents := by
    induction h with
    | nil => rfl
    | cons hab _ ih => rw [map_cons, map_cons, extents _ _ hab, ih]
  simp only [partAt, sizes, Option.bind_eq_bind]
  cases Tensor.resolveAll [(as.map fun p => count p.extents).sum] idx with
  | none => exact .inl ⟨rfl, rfl⟩
  | some place =>
    simp only [Option.bind_some]
    cases locatePart (as.map fun p => count p.extents) (place.headD 0) with
    | none => exact .inl ⟨rfl, rfl⟩
    | some found =>
      rcases getElem?_of_forall₂ h found.1 with ⟨ha, hb⟩ | ⟨a, b, ha, hb, hab⟩
      · exact .inl (by simp [ha, hb])
      · refine .inr ⟨a, b, _, by simp only [Option.bind_some, ha]; rfl, by simp only [Option.bind_some, hb, extents a b hab]; rfl,
          hab, ?_⟩
        rw [length_map, length_unravel]

end Entries

variable [Scalar K] [Field K]

/-! ## The value of another expression -/

/-- Where one expression is defined the other is, and has the same value; they are read in two valuations. -/
def Carries (env : Environment K) (σ ρ : Valuation) (e r : Expr K) : Prop :=
  ∀ idx : List Int, idx.length = e.shape.length → Defined env e σ idx →
    Defined env r ρ idx ∧ value env r ρ idx = value env e σ idx

namespace Carries

variable {env : Environment K} {σ ρ τ : Valuation}

theorem refl (e : Expr K) : Carries env ρ ρ e e := fun _ _ defined => ⟨defined, rfl⟩

variable {a b c e r a' body body' : Expr K} {bs : List Binder}

theorem trans (hab : Carries env σ ρ a b) (shape : b.shape = a.shape) (hbc : Carries env ρ τ b c) : Carries env σ τ a c := by
  intro idx entry defined
  obtain ⟨defined, first⟩ := hab idx entry defined
  obtain ⟨defined, second⟩ := hbc idx (shape ▸ entry) defined
  exact ⟨defined, second.trans first⟩

/-- What is carried depends on the free indices alone. -/
theorem congr_left (h : Carries env σ ρ e r) (closed : Everywhere RuntimeClosed e)
    (agree : Valuation.Agree e.freeIndices τ σ) : Carries env τ ρ e r := by
  intro idx entry defined
  obtain ⟨defined, same⟩ := h idx entry (defined.congr closed agree)
  exact ⟨defined, same.trans (value_congr closed idx fun i hi => (agree i hi).symm)⟩

theorem scalar (h : Carries env σ ρ e r) (shape : e.shape = []) (defined : Defined env e σ []) :
    Defined env r ρ [] ∧ value env r ρ [] = value env e σ [] :=
  h [] (by simp [shape]) defined

/-! ### Nodes with new children -/

theorem binary {op : BinaryOp} {b' : Expr K} (fits : a.shape = [] ∧ b.shape = []) (ha : Carries env σ ρ a a')
    (hb : Carries env σ ρ b b') : Carries env σ ρ (.binary op a b) (.binary op a' b') := by
  intro idx _ defined
  obtain ⟨left, right, power⟩ := defined_binary.1 defined
  obtain ⟨left, sameLeft⟩ := ha.scalar fits.1 left
  obtain ⟨right, sameRight⟩ := hb.scalar fits.2 right
  refine ⟨defined_binary.2 ⟨left, right, ?_⟩, ?_⟩
  · rwa [sameLeft, sameRight]
  · rw [value_binary, value_binary, sameLeft, sameRight]

theorem negation (fits : a.shape = []) (ha : Carries env σ ρ a a') : Carries env σ ρ (.negation a) (.negation a') := by
  intro idx _ defined
  obtain ⟨defined, same⟩ := ha.scalar fits (defined_negation.1 defined)
  exact ⟨defined_negation.2 defined, by rw [value_negation, value_negation, same]⟩

theorem call {name : String} {args args' : List (Expr K)} (fits : ∀ a ∈ args, a.shape = [])
    (h : Forall₂ (Carries env σ ρ) args args') : Carries env σ ρ (.call name args) (.call name args') := by
  intro idx entry defined
  clear entry
  rw [defined_call] at defined ⊢
  rw [value_call, value_call]
  have all : (∀ a ∈ args', Defined env a ρ []) ∧
      (args'.map fun a => value env a ρ []) = args.map fun a => value env a σ [] := by
    induction h with
    | nil => exact ⟨by simp, rfl⟩
    | cons first _ ih =>
      simp only [forall_mem_cons] at fits defined
      obtain ⟨here, same⟩ := first.scalar fits.1 defined.1
      obtain ⟨rest, sameRest⟩ := ih fits.2 defined.2
      exact ⟨forall_mem_cons.2 ⟨here, rest⟩, by rw [map_cons, map_cons, same, sameRest]⟩
  exact ⟨all.1, by rw [all.2]⟩

theorem conditional {c' y y' n n' : Expr K} (fits : c.shape = [] ∧ y.shape = n.shape) (hc : Carries env σ ρ c c')
    (hy : Carries env σ ρ y y') (hn : Carries env σ ρ n n') :
    Carries env σ ρ (.conditional c y n) (.conditional c' y' n') := by
  intro idx entry defined
  obtain ⟨condition, yes, no⟩ := defined_conditional.1 defined
  obtain ⟨condition, same⟩ := hc.scalar fits.1 condition
  obtain ⟨yes, sameYes⟩ := hy idx entry yes
  obtain ⟨no, sameNo⟩ := hn idx (fits.2 ▸ entry) no
  exact ⟨defined_conditional.2 ⟨condition, yes, no⟩, by rw [value_conditional, value_conditional, same, sameYes, sameNo]⟩

theorem indexed {t t' : Expr K} {slots slots' : List (Slot (Expr K))} (rank : slots.length = t.shape.length)
    (positions : slots'.map (position env ρ) = slots.map (position env σ)) (ht : Carries env σ ρ t t') :
    Carries env σ ρ (.indexed t slots) (.indexed t' slots') := by
  intro idx _ defined
  obtain ⟨defined, same⟩ := ht _ (by rw [length_map, rank]) (defined_indexed.1 defined)
  rw [defined_indexed, value_indexed, value_indexed, positions]
  exact ⟨defined, same⟩

theorem componentTensor (fits : body.shape = []) (h : ∀ vs, Carries env (σ.bind bs vs) (ρ.bind bs vs) body body') :
    Carries env σ ρ (.componentTensor body bs) (.componentTensor body' bs) := by
  intro idx _ defined
  rw [defined_componentTensor, value_componentTensor, value_componentTensor]
  exact (h idx).scalar fits (defined_componentTensor.1 defined)

theorem indexSum (fits : body.shape = []) (h : ∀ vs, Carries env (σ.bind bs vs) (ρ.bind bs vs) body body') :
    Carries env σ ρ (.indexSum body bs) (.indexSum body' bs) := by
  intro idx _ defined
  obtain ⟨ps, ranging⟩ := Valuation.exists_ranging_eq bs
  rw [defined_indexSum, ranging, forall_mem_map] at defined ⊢
  have each : ∀ vs ∈ ps, _ := fun vs hvs => (h vs).scalar fits (defined vs hvs)
  refine ⟨fun vs hvs => (each vs hvs).1, ?_⟩
  rw [value_indexSum, value_indexSum, ranging, ranging, map_map, map_map]
  exact congrArg List.sum (map_congr_left fun vs hvs => (each vs hvs).2)

theorem listTensor {shape : List Nat} {entries entries' : List (Expr K)} (fits : ∀ a ∈ entries, a.shape = [])
    (h : Forall₂ (Carries env σ ρ) entries entries') :
    Carries env σ ρ (.listTensor shape entries) (.listTensor shape entries') := by
  intro idx _ defined
  rw [defined_listTensor] at defined ⊢
  rw [value_listTensor, value_listTensor]
  rcases entryAt_of_forall₂ h shape idx with ⟨none, none'⟩ | ⟨a, b, some, some', carries⟩
  · rw [none, none']
    exact ⟨nofun, rfl⟩
  · obtain ⟨here, same⟩ := carries.scalar (fits a (mem_of_entryAt some)) (defined a some)
    rw [some, some']
    exact ⟨fun c hc => Option.some.inj hc ▸ here, same⟩

theorem concatenate {ps ps' : List (Expr K)} (fits : ∀ p ∈ ps, (Shape.toNats? p.shape).isSome)
    (h : Forall₂ (fun p p' => p'.shape = p.shape ∧ Carries env σ ρ p p') ps ps') :
    Carries env σ ρ (.concatenate ps) (.concatenate ps') := by
  intro idx _ defined
  rw [defined_concatenate] at defined ⊢
  rw [value_concatenate, value_concatenate]
  rcases partAt_of_forall₂ h (fun _ _ => And.left) idx with ⟨none, none'⟩ | ⟨p, p', entry, some, some', ⟨-, carries⟩, length⟩
  · rw [none, none']
    exact ⟨nofun, rfl⟩
  · have rank : entry.length = p.shape.length := by
      obtain ⟨extents, known⟩ := Option.isSome_iff_exists.1 (fits p (mem_of_partAt some))
      rw [length, Expr.extents, known, eq_ofNats_of_toNats? known, Shape.ofNats, length_map, Option.getD_some]
    obtain ⟨here, same⟩ := carries entry rank (defined _ some)
    rw [some, some']
    exact ⟨fun q hq => Option.some.inj hq ▸ here, same⟩

end Carries

/-! ## Children replaced -/

/-- Does the node itself use indices, other than by binding them? -/
def usesIndices : Expr K → Bool
  | .indexed _ _ | .access _ _ _ | .delta _ _ => true
  | _ => false

/-- The node with other children in the place of its own, as they are. -/
def withChildren : Expr K → List (Expr K) → Expr K
  | .binary op _ _, [a, b] => .binary op a b
  | .negation _, [a] => .negation a
  | .call name _, args => .call name args
  | .conditional _ _ _, [c, y, n] => .conditional c y n
  | .indexed _ slots, [t] => .indexed t slots
  | .componentTensor _ bs, [body] => .componentTensor body bs
  | .indexSum _ bs, [body] => .indexSum body bs
  | .listTensor shape _, entries => .listTensor shape entries
  | .concatenate _, ps => .concatenate ps
  | e, _ => e

variable {e : Expr K} {cs : List (Expr K)}

/-- A node carries the value of a node of its kind if the children do. Where binders are met, they do so for the binders
at all positions. -/
theorem Carries.withChildren {extent : Index → Extent} {env : Environment K} {σ ρ : Valuation}
    (fits : NodeFits extent e) (same : e.usesIndices = true → σ = ρ)
    (h : Forall₂ (fun c c' => c'.shape = c.shape ∧
      ∀ vs, Carries env (σ.bind e.ownBinders vs) (ρ.bind e.ownBinders vs) c c') e.children cs) :
    Carries env σ ρ e (e.withChildren cs) := by
  have each : e.ownBinders = [] → Forall₂ (fun c c' => c'.shape = c.shape ∧ Carries env σ ρ c c') e.children cs := by
    intro none
    rw [none] at h
    exact h.imp fun _ _ hc => ⟨hc.1, hc.2 []⟩
  cases e with
  | binary op a b =>
    obtain _ | ⟨ha, _ | ⟨hb, _ | _⟩⟩ := each rfl
    exact .binary fits ha.2 hb.2
  | negation a =>
    obtain _ | ⟨ha, _ | _⟩ := each rfl
    exact .negation fits ha.2
  | call name args => exact .call fits ((each rfl).imp fun _ _ => And.right)
  | conditional c y n =>
    obtain _ | ⟨hc, _ | ⟨hy, _ | ⟨hn, _ | _⟩⟩⟩ := each rfl
    exact .conditional fits hc.2 hy.2 hn.2
  | indexed t slots =>
    obtain _ | ⟨ht, _ | _⟩ := each rfl
    obtain rfl := same rfl
    exact .indexed fits.2.length_eq rfl ht.2
  | access name shape dims =>
    obtain rfl := same rfl
    exact .refl _
  | componentTensor body bs =>
    obtain _ | ⟨hb, _ | _⟩ := h
    exact .componentTensor fits.scalar hb.2
  | indexSum body bs =>
    obtain _ | ⟨hb, _ | _⟩ := h
    exact .indexSum fits.scalar hb.2
  | listTensor shape entries => exact .listTensor fits.2 ((each rfl).imp fun _ _ => And.right)
  | concatenate ps => exact .concatenate fits (each rfl)
  | delta i j =>
    obtain rfl := same rfl
    exact .refl _
  | _ =>
    intro idx _ _
    exact ⟨by simp [Expr.withChildren, Defined], by simp [Expr.withChildren]⟩

omit [Scalar K] [Field K] in
theorem shape_withChildren
    (h : Forall₂ (fun c c' => c'.shape = c.shape) e.children cs) : (e.withChildren cs).shape = e.shape := by
  have shapes : ∀ {ps ps' : List (Expr K)}, Forall₂ (fun c c' => c'.shape = c.shape) ps ps' →
      shapes ps' = shapes ps := by
    intro ps ps' h
    induction h with
    | nil => rfl
    | cons same _ ih => rw [shapes, shapes, same, ih]
  cases e with
  | conditional c y n =>
    obtain _ | ⟨hc, _ | ⟨hy, _ | ⟨hn, _ | _⟩⟩⟩ := h
    exact hy
  | concatenate ps => exact congrArg (fun s => [totalSize s]) (shapes h)
  | binary op a b =>
    obtain _ | ⟨ha, _ | ⟨hb, _ | _⟩⟩ := h
    rfl
  | negation | indexed | componentTensor | indexSum =>
    obtain _ | ⟨_, _ | _⟩ := h
    rfl
  | _ => rfl

omit [Scalar K] [Field K] in
theorem mem_freeIndices_withChildren (length : cs.length = e.children.length) {i : Index}
    (h : i ∈ (e.withChildren cs).freeIndices) :
    i ∈ e.ownIndices ∨ (∃ c ∈ cs, i ∈ c.freeIndices) ∧ i ∉ e.ownBinders.map Prod.fst := by
  rw [mem_freeIndices_iff] at h
  cases e with
  | binary op a b =>
    obtain ⟨a', b', rfl⟩ := length_eq_two.1 length
    exact h
  | conditional c y n =>
    obtain ⟨c', y', n', rfl⟩ := length_eq_three.1 length
    exact h
  | negation | indexed | componentTensor | indexSum =>
    obtain ⟨c', rfl⟩ := length_eq_one_iff.1 length
    exact h
  | access name shape dims =>
    refine h.imp id ?_
    rintro ⟨⟨c, hc, hi⟩, -⟩
    obtain rfl := mem_singleton.1 hc
    rw [freeIndices] at hi
    cases hi
  | call | listTensor | concatenate => exact h
  | _ =>
    refine h.imp id ?_
    rintro ⟨⟨c, hc, -⟩, -⟩
    cases hc

end Expr

end FormCompiler
