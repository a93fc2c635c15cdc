import FormCompiler.Expr.Build
import FormCompiler.Proofs.WellFormed

/-!
# Computations that build

A computation that builds expressions runs in a session and may be refused. It meets a property under an invariant of the
session if whatever it returns has the property, the invariant is kept, and it is refused for a stated reason only. It
ensures a property if the property holds of whatever it returns, and the indices stay as they are.
-/

namespace FormCompiler

open FormCompiler.Expr List

/-- The extents of the indices of a session. -/
def Session.extents (s : Session) (i : Index) : Extent := (s.indices.getD i.number ⟨none, none⟩).extent

theorem Session.extents_congr {s s' : Session} (h : s'.indices = s.indices) : s'.extents = s.extents :=
  funext fun i => by rw [extents, extents, h]

/-- The reason is not a requirement with a text. -/
def Error.Plain : Error → Prop
  | .requirement text => text = ""
  | _ => True

namespace Build

variable {s : Session} {i : Index} {text : String}

theorem run_bind_ok {α β : Type} {x : Build α} {f : α → Build β} {a : α} {s' : Session} (h : x.run.run s = (.ok a, s')) :
    (x >>= f).run.run s = (f a).run.run s' := by
  rw [ExceptT.run_bind, StateT.run_bind, h]
  rfl

variable {α β : Type} {I : Session → Prop} {E : Error → Prop} {Q : α → Prop} {R : β → Prop}

/-! ## Invariants of a session -/

/-- From a session with the invariant, the computation returns what has the property and keeps the invariant, or it is refused for
one of the reasons. -/
def Meets (I : Session → Prop) (E : Error → Prop) (x : Build α) (Q : α → Prop) : Prop :=
  ∀ s r s', I s → x.run.run s = (r, s') → match r with
    | .ok a => I s' ∧ Q a
    | .error e => E e

variable {a : α} {e : Error} {x y : Build α} {f : α → Build β} {Q' : α → Prop} {c : Prop} {S : α → β → Prop} {as : List α}
  {b : β} {P : List α → β → Prop}

theorem meets_pure (h : Q a) : Meets I E (pure a) Q := by
  intro s r s' inv run
  cases run
  exact ⟨inv, h⟩

theorem meets_throw (h : E e) : Meets I E (throw e) Q := by
  intro s r s' inv run
  cases run
  exact h

theorem Meets.bind (hx : Meets I E x Q) (hf : ∀ a, Q a → Meets I E (f a) R) : Meets I E (x >>= f) R := by
  intro s r s' inv run
  rw [ExceptT.run_bind, StateT.run_bind] at run
  cases first : x.run.run s with
  | mk q s₁ =>
    have here := hx s q s₁ inv first
    rw [first] at run
    cases q with
    | error e =>
      cases run
      exact here
    | ok a => exact hf a here.2 s₁ r s' here.1 run

theorem Meets.mono (h : Meets I E x Q) (imp : ∀ a, Q a → Q' a) : Meets I E x Q' := by
  intro s r s' inv run
  have here := h s r s' inv run
  cases r with
  | error e => exact here
  | ok a => exact ⟨here.1, imp a here.2⟩

theorem Meets.weaken {F : Error → Prop} (h : Meets I F x Q) (imp : ∀ e, F e → E e) : Meets I E x Q := by
  intro s r s' inv run
  have here := h s r s' inv run
  cases r with
  | error e => exact imp e here
  | ok a => exact here

/-- What leaves each session as it is keeps any invariant. -/
theorem Meets.of_same (h : ∀ s, I s → Meets (· = s) E x Q) : Meets I E x Q := by
  intro s r s' inv run
  have here := h s inv s r s' rfl run
  cases r with
  | error e => exact here
  | ok a => exact ⟨here.1.symm ▸ inv, here.2⟩

theorem meets_ite [Decidable c] (hx : c → Meets I E x Q) (hy : ¬ c → Meets I E y Q) :
    Meets I E (if c then x else y) Q := iteInduction (motive := (Meets I E · Q)) hx hy

theorem meets_mapM_forall₂ (h : ∀ a ∈ as, Meets I E (f a) (S a)) : Meets I E (as.mapM f) fun bs => Forall₂ S as bs := by
  induction as with
  | nil => exact meets_pure .nil
  | cons a as ih =>
    rw [mapM_cons]
    refine (h a mem_cons_self).bind fun b hb => ?_
    refine (ih fun a' ha' => h a' (mem_cons_of_mem _ ha')).bind fun bs hbs => ?_
    exact meets_pure (.cons hb hbs)

theorem meets_mapM (h : ∀ a ∈ as, Meets I E (f a) R) : Meets I E (as.mapM f) fun bs => ∀ b ∈ bs, R b :=
  (meets_mapM_forall₂ (S := fun _ => R) h).mono fun _ hbs b hb => (exists_of_forall₂ hbs.flip hb).elim fun _ => And.right

theorem meets_foldlM {f : β → α → Build β} (start : R b)
    (step : ∀ b, ∀ a ∈ as, R b → Meets I E (f b a) R) : Meets I E (as.foldlM f b) R := by
  induction as generalizing b with
  | nil => exact meets_pure start
  | cons a as ih =>
    rw [foldlM_cons]
    exact (step b a mem_cons_self start).bind fun c hc => ih hc fun d a' ha' => step d a' (mem_cons_of_mem _ ha')

/-- A loop that is not left early keeps an invariant of what is still to come. -/
theorem meets_forIn {f : α → β → Build (ForInStep β)}
    (step : ∀ a as b, P (a :: as) b → Meets I E (f a b) fun r => ∃ b', r = .yield b' ∧ P as b')
    (start : P as b) : Meets I E (forIn as b f) (P []) := by
  induction as generalizing b with
  | nil => exact meets_pure start
  | cons a as ih =>
    rw [forIn_cons]
    refine (step a as b start).bind fun r hr => ?_
    obtain ⟨b', rfl, next⟩ := hr
    exact ih next

theorem meets_get : Meets I E (get : Build Session) I := by
  intro s r s' inv run
  cases run
  exact ⟨inv, inv⟩

theorem meets_set (h : I s) : Meets I E (set s : Build PUnit) fun _ => True := by
  intro _ r s' _ run
  cases run
  exact ⟨h, trivial⟩

theorem meets_info : Meets I E (info i) fun known => ∃ s, I s ∧ known.extent = s.extents i :=
  meets_get.bind fun s inv => meets_pure ⟨s, inv, rfl⟩

theorem meets_extent : Meets I E (extent i) fun n => ∃ s, I s ∧ n = s.extents i :=
  meets_info.bind fun _ known => meets_pure known

theorem meets_knownExtent (plain : ∀ {e : Error}, e.Plain → E e) :
    Meets I E (knownExtent i) fun n => ∃ s, I s ∧ s.extents i = some n := by
  refine meets_extent.bind fun n known => ?_
  cases n with
  | none => exact meets_throw (plain trivial)
  | some n => exact meets_pure (known.imp fun _ h => h.imp id Eq.symm)

/-! ## What computations ensure -/

/-- In each session with the given extents, what is returned has the property, and the indices are kept. -/
def Ensures {α : Type} (extent : Index → Extent) (x : Build α) (Q : α → Prop) : Prop :=
  ∀ s : Session, s.extents = extent → ∀ a s', x.run.run s = (.ok a, s') → s'.indices = s.indices ∧ Q a

variable {extent : Index → Extent}

/-- To ensure a property is to keep the indices and return what has it. -/
theorem ensures_iff_meets :
    Ensures extent x Q ↔ ∀ t : Session, t.extents = extent → Meets (fun s => s.indices = t.indices) (fun _ => True) x Q := by
  constructor
  · intro h t size s r s' same run
    cases r with
    | error e => trivial
    | ok a => exact (h s ((Session.extents_congr same).trans size) a s' run).imp_left fun kept => kept.trans same
  · exact fun h s size a s' run => h s size s (.ok a) s' rfl run

theorem ensures_pure (h : Q a) : Ensures extent (pure a) Q := ensures_iff_meets.2 fun _ _ => meets_pure h

theorem ensures_throw : Ensures extent (throw e) Q := ensures_iff_meets.2 fun _ _ => meets_throw trivial

theorem Ensures.bind (hx : Ensures extent x Q) (hf : ∀ a, Q a → Ensures extent (f a) R) : Ensures extent (x >>= f) R :=
  ensures_iff_meets.2 fun t size => (ensures_iff_meets.1 hx t size).bind fun a ha => ensures_iff_meets.1 (hf a ha) t size

theorem Ensures.mono (h : Ensures extent x Q) (imp : ∀ a, Q a → Q' a) : Ensures extent x Q' :=
  fun s hs a s' run => (h s hs a s' run).imp id (imp a)

theorem Ensures.both {P : α → Prop} (hp : Ensures extent x P) (hq : Ensures extent x Q) : Ensures extent x fun a => P a ∧ Q a :=
  fun s hs a s' run => (hp s hs a s' run).imp id fun ha => ⟨ha, (hq s hs a s' run).2⟩

theorem ensures_ite [Decidable c] (hx : c → Ensures extent x Q) (hy : ¬ c → Ensures extent y Q) :
    Ensures extent (if c then x else y) Q := iteInduction (motive := (Ensures extent · Q)) hx hy

theorem ensures_require {c : Bool} : Ensures extent (require c text) fun _ => c = true :=
  ensures_ite (fun h => ensures_pure h) fun _ => ensures_throw

theorem ensures_info : Ensures extent (info i) fun known => known.extent = extent i :=
  ensures_iff_meets.2 fun t size => meets_info.mono fun known ⟨s, same, here⟩ => by
    rw [here, Session.extents_congr same, size]

theorem ensures_extent : Ensures extent (Build.extent i) fun n => n = extent i :=
  ensures_info.bind fun _ known => ensures_pure known

theorem ensures_knownExtent : Ensures extent (knownExtent i) fun n => extent i = some n := by
  refine ensures_extent.bind fun n hn => ?_
  cases n with
  | none => exact ensures_throw
  | some n => exact ensures_pure hn.symm

theorem ensures_mapM (h : ∀ a ∈ as, Ensures extent (f a) (S a)) : Ensures extent (as.mapM f) fun bs => Forall₂ S as bs :=
  ensures_iff_meets.2 fun t size => meets_mapM_forall₂ fun a ha => ensures_iff_meets.1 (h a ha) t size

theorem ensures_foldlM {f : β → α → Build β} (start : R b)
    (step : ∀ b, ∀ a ∈ as, R b → Ensures extent (f b a) R) : Ensures extent (as.foldlM f b) R :=
  ensures_iff_meets.2 fun t size => meets_foldlM start fun b a ha hb => ensures_iff_meets.1 (step b a ha hb) t size

/-- What a computation ensures, and what it gives in any session. -/
theorem Ensures.and {P : α → Prop} (h : Ensures extent x P) (meets : Meets (fun _ => True) (fun _ => True) x Q) :
    Ensures extent x fun a => P a ∧ Q a :=
  fun s hs a s' run => (h s hs a s' run).imp id fun ha => ⟨ha, (meets s (.ok a) s' trivial run).2⟩

/-! ### Extents that are known -/

theorem run_setExtent (s : Session) (i : Index) (n : Extent) : (setExtent i n).run.run s =
    ((match s.extents i with
      | none => set { s with
          indices := s.indices.setIfInBounds i.number ⟨(s.indices.getD i.number ⟨none, none⟩).name, n⟩ }
      | some m => if n == some m then pure () else throw .inconsistentExtents) : Build Unit).run.run s := rfl

/-- An index that has its extent already keeps it. -/
theorem ensures_setExtent {n : Extent} (h : n = none ∨ extent i = n) : Ensures extent (setExtent i n) fun _ => True := by
  intro s hs a s' run
  refine ⟨?_, trivial⟩
  rw [run_setExtent, hs] at run
  cases known : extent i with
  | some m =>
    simp only [known] at run
    split at run
    · cases run
      rfl
    · cases run
  | none =>
    -- nothing is known of the index, and nothing is learnt
    obtain rfl : n = none := h.elim id fun same => same.symm.trans known
    simp only [known] at run
    cases run
    rw [← hs, Session.extents] at known
    refine Array.ext_getElem? fun k => ?_
    rw [Array.getElem?_setIfInBounds]
    split
    · rename_i same
      subst same
      rw [Array.getD_eq_getD_getElem?] at known ⊢
      cases found : s.indices[i.number]? with
      | none =>
        rw [if_neg]
        exact fun lt => absurd found (by simp [lt])
      | some info =>
        rw [found] at known
        rw [if_pos (Array.getElem?_eq_some_iff.1 found).1]
        exact congrArg some (by rw [← known]; rfl)
    · rfl

/-! ## What computations yield -/

/-- Whatever is returned has the property. -/
def Yields (x : Build α) (Q : α → Prop) : Prop := ∀ s a s', x.run.run s = (.ok a, s') → Q a

theorem yields_iff_meets : Yields x Q ↔ Meets (fun _ => True) (fun _ => True) x Q := by
  constructor
  · intro h s r s' _ run
    cases r with
    | error e => trivial
    | ok a => exact ⟨trivial, h s a s' run⟩
  · exact fun h s a s' run => (h s (.ok a) s' trivial run).2

theorem yields_pure (h : Q a) : Yields (pure a) Q := yields_iff_meets.2 (meets_pure h)

theorem yields_throw : Yields (throw e) Q := yields_iff_meets.2 (meets_throw trivial)

theorem yields_any (x : Build α) : Yields x fun _ => True := fun _ _ _ _ => trivial

/-- What a computation ensures in any session. -/
theorem Yields.ofEnsures (h : ∀ extent, Ensures extent x Q) : Yields x Q :=
  fun s a s' run => (h s.extents s rfl a s' run).2

theorem Yields.mono (h : Yields x Q) (imp : ∀ a, Q a → Q' a) : Yields x Q' :=
  fun s a s' run => imp a (h s a s' run)

theorem Yields.bind (hx : Yields x Q) (hf : ∀ a, Q a → Yields (f a) R) : Yields (x >>= f) R :=
  yields_iff_meets.2 ((yields_iff_meets.1 hx).bind fun a ha => yields_iff_meets.1 (hf a ha))

theorem yields_ite [Decidable c] (hx : c → Yields x Q) (hy : ¬ c → Yields y Q) :
    Yields (if c then x else y) Q := iteInduction (motive := (Yields · Q)) hx hy

theorem yields_require {c : Bool} : Yields (require c text) fun _ => c = true :=
  yields_ite (fun h => yields_pure h) fun _ => yields_throw

/-- What a computation yields in any session. -/
theorem Meets.yields {x : Build α} (h : Meets I E x fun _ => True) (yields : Yields x Q) : Meets I E x Q := by
  intro s r s' inv run
  have here := h s r s' inv run
  cases r with
  | error e => exact here
  | ok a => exact ⟨here.1, yields s a s' run⟩

end Build

end FormCompiler
