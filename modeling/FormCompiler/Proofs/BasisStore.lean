import FormCompiler.Element.Basis

/-!
# Bases that are kept

A basis is kept under its description, and under the order of components and functions if that mattered for it. A kept basis
is found again only where making it anew gives the same: every entry says what making the basis gives, for each order that the
entry serves. Bases are made of others, so making and keeping are followed together, part by part.
-/

namespace FormCompiler

namespace Basis

/-! ## Orders that do not matter -/

/-- If the one gives a basis for which no order matters, so does the other, and it is the same. -/
def Unordered (r r' : Except Error Made) : Prop := ∀ made, r = .ok made → made.ordered = false → r' = .ok made

theorem ok_of_bind {α β : Type} {r : Except Error α} {f : α → Except Error β} {b : β} (h : r >>= f = .ok b) :
    ∃ a, r = .ok a ∧ f a = .ok b := by
  cases r with
  | error x => cases h
  | ok a => exact ⟨a, rfl, h⟩

theorem bind_of_ok {α β : Type} {r : Except Error α} {f : α → Except Error β} {a : α} {b : β} (hr : r = .ok a) (hf : f a = .ok b) :
    r >>= f = .ok b := by
  subst hr
  exact hf

/-- Parts that are made in either order, if it matters for none of them. -/
theorem mapM_unordered {α : Type} {f f' : α → Except Error Made} {ps : List α} (h : ∀ p ∈ ps, Unordered (f p) (f' p)) {made : List Made}
    (run : ps.mapM f = .ok made) (none : made.any (·.ordered) = false) : ps.mapM f' = .ok made := by
  induction ps generalizing made with
  | nil => exact run
  | cons p ps ih =>
    rw [List.mapM_cons] at run ⊢
    obtain ⟨first, hfirst, run⟩ := ok_of_bind run
    obtain ⟨rest, hrest, run⟩ := ok_of_bind run
    cases run
    rw [List.any_cons, Bool.or_eq_false_iff] at none
    have others := ih (fun q hq => h q (List.mem_cons_of_mem _ hq)) hrest none.2
    exact bind_of_ok (h p List.mem_cons_self first hfirst none.1) (bind_of_ok others rfl)

/-- A part that is changed without asking for the order. -/
theorem place_unordered {f : Basis → Except Error Basis} {r r' : Except Error Made} (h : Unordered r r') :
    Unordered (r >>= fun made => f made.basis >>= fun basis => pure ⟨basis, made.ordered⟩)
      (r' >>= fun made => f made.basis >>= fun basis => pure ⟨basis, made.ordered⟩) := by
  intro made run none
  obtain ⟨part, hpart, run⟩ := ok_of_bind run
  obtain ⟨basis, hbasis, run⟩ := ok_of_bind run
  cases run
  exact bind_of_ok (h part hpart none) (bind_of_ok hbasis rfl)

/-- One step asks for the order only where it says that the order matters. -/
theorem step_unordered {innermost other : Bool} {e : Element} {self self' : (p : Element) → p.rank < e.rank → Except Error Made}
    (h : ∀ p hp, Unordered (self p hp) (self' p hp)) : Unordered (step innermost e self) (step other e self') := by
  intro made run none
  cases e with
  | simple f c degree variant =>
    simp only [step] at run ⊢
    split at run
    · rename_i cube
      rw [dif_pos cube]
      exact place_unordered (f := fun b => MonadExcept.ofExcept (place (fun g => .ok g.flatten) b)) (h _ _) made run none
    · rename_i plain
      rw [dif_neg plain]
      exact run
  | quadrature c degree scheme => exact run
  | nodalEnriched ps => exact run
  | restricted p domain => exact run
  | vector p n =>
    obtain ⟨base, -, run⟩ := ok_of_bind run
    cases run
    cases none
  | tensor p shape symmetric =>
    obtain ⟨base, -, run⟩ := ok_of_bind run
    cases run
    cases none
  | broken p => exact place_unordered (f := fun b => pure (.broken b)) (h p _) made run none
  | mixed ps =>
    obtain ⟨parts, hparts, run⟩ := ok_of_bind run
    cases run
    exact bind_of_ok (mapM_unordered (fun p _ => h p.1 _) hparts none) rfl
  | enriched ps =>
    obtain ⟨parts, hparts, run⟩ := ok_of_bind run
    cases run
    exact bind_of_ok (mapM_unordered (fun p _ => h p.1 _) hparts none) rfl
  | product c ps =>
    simp only [step] at run ⊢
    split at run
    · cases run
    · rename_i onProduct
      rw [if_neg onProduct]
      obtain ⟨parts, hparts, run⟩ := ok_of_bind run
      obtain ⟨basis, hbasis, run⟩ := ok_of_bind run
      cases run
      exact bind_of_ok (mapM_unordered (fun p _ => h p.1 _) hparts none) (bind_of_ok hbasis rfl)
  | hdiv p => exact place_unordered (f := fun b => MonadExcept.ofExcept (place Functions.hdiv b)) (h p _) made run none
  | hcurl p => exact place_unordered (f := fun b => MonadExcept.ofExcept (place Functions.hcurl b)) (h p _) made run none

/-- A basis for which no order matters is made alike for either. -/
theorem make_unordered (innermost other : Bool) (e : Element) : Unordered (make innermost e) (make other e) := by
  intro made run none
  rw [make] at run ⊢
  split at run
  · cases run
  · rename_i celled
    rw [if_neg celled]
    exact step_unordered (fun p _ => make_unordered innermost other p) made run none
termination_by e.rank

/-! ## Answers from the store -/

/-- Every entry is what making it gives, in each order that it serves. -/
def Store.Faithful (s : Store) : Prop :=
  ∀ e order basis, (e, order, basis) ∈ s → ∀ innermost, order = none ∨ order = some innermost → make innermost e = .ok ⟨basis, order.isSome⟩

/-- In a faithful store the computation gives this answer, and it leaves a faithful store. -/
def Answers {α : Type} (x : ExceptT Error (StateM Store) α) (r : Except Error α) : Prop :=
  ∀ s : Store, s.Faithful → (x.run.run s).1 = r ∧ Store.Faithful (x.run.run s).2

variable {α β : Type}

theorem answers_pure (a : α) : Answers (pure a) (.ok a) := fun _ faithful => ⟨rfl, faithful⟩

theorem answers_throw (error : Error) : Answers (throw error : ExceptT Error (StateM Store) α) (.error error) :=
  fun _ faithful => ⟨rfl, faithful⟩

theorem answers_ofExcept (r : Except Error α) : Answers (MonadExcept.ofExcept r) (MonadExcept.ofExcept r) := by
  cases r with
  | error x => exact answers_throw x
  | ok a => exact answers_pure a

theorem Answers.bind {x : ExceptT Error (StateM Store) α} {r : Except Error α} {f : α → ExceptT Error (StateM Store) β}
    {g : α → Except Error β} (hx : Answers x r) (hf : ∀ a, Answers (f a) (g a)) : Answers (x >>= f) (r >>= g) := by
  intro s faithful
  have here := hx s faithful
  rw [ExceptT.run_bind, StateT.run_bind]
  generalize x.run.run s = result at here
  obtain ⟨rfl, next⟩ := here
  obtain ⟨_ | a, t⟩ := result
  · exact ⟨rfl, next⟩
  · exact hf a t next

theorem answers_ite {c : Prop} [Decidable c] {x y : ExceptT Error (StateM Store) α} {r q : Except Error α} (hx : Answers x r)
    (hy : Answers y q) : Answers (if c then x else y) (if c then r else q) := by
  split
  · exact hx
  · exact hy

theorem answers_mapM {f : α → ExceptT Error (StateM Store) β} {g : α → Except Error β} (h : ∀ a, Answers (f a) (g a)) (as : List α) :
    Answers (as.mapM f) (as.mapM g) := by
  induction as with
  | nil => exact answers_pure []
  | cons a as ih =>
    rw [List.mapM_cons, List.mapM_cons]
    exact (h a).bind fun b => ih.bind fun bs => answers_pure (b :: bs)

/-- One step gives the answer if the parts are answered for. -/
theorem answers_step {innermost : Bool} {e : Element} {self : (p : Element) → p.rank < e.rank → ExceptT Error (StateM Store) Made}
    {self' : (p : Element) → p.rank < e.rank → Except Error Made} (h : ∀ p hp, Answers (self p hp) (self' p hp)) :
    Answers (step innermost e self) (step innermost e self') := by
  cases e with
  | simple f c degree variant =>
    simp only [step]
    split
    · exact (h _ _).bind fun made => (answers_ofExcept _).bind fun basis => answers_pure _
    · exact (answers_ofExcept _).bind fun basis => answers_pure _
  | quadrature c degree scheme => exact (answers_ofExcept _).bind fun functions => answers_pure _
  | nodalEnriched ps => exact answers_throw _
  | restricted p domain =>
    simp only [step]
    cases p.cell? with
    | none => exact answers_throw _
    | some c =>
      have made := (answers_ofExcept (Functions.ofElement true (.restricted p domain))).bind fun functions =>
        answers_pure (⟨.nodal functions, false⟩ : Made)
      exact answers_ite ((answers_throw _).bind fun _ => made) made
  | vector p n => exact (h p _).bind fun base => answers_pure _
  | tensor p shape symmetric => exact (h p _).bind fun base => answers_pure _
  | broken p => exact (h p _).bind fun made => answers_pure _
  | mixed ps => exact (answers_mapM (fun part => h part.val _) ps.attach).bind fun made => answers_pure _
  | enriched ps => exact (answers_mapM (fun part => h part.val _) ps.attach).bind fun made => answers_pure _
  | product c ps =>
    have made := (answers_mapM (fun part => h part.val (Element.rank_lt_of_mem part.property)) ps.attach).bind fun made =>
      (answers_ofExcept (productOf (made.map (·.basis)))).bind fun basis => answers_pure (⟨basis, made.any (·.ordered)⟩ : Made)
    exact answers_ite ((answers_throw _).bind fun _ => made) made
  | hdiv p => exact (h p _).bind fun made => (answers_ofExcept _).bind fun basis => answers_pure _
  | hcurl p => exact (h p _).bind fun made => (answers_ofExcept _).bind fun basis => answers_pure _

namespace Store.Faithful

variable {s : Store} {innermost : Bool} {e : Element} {made : Made}

/-- What is found is what making it gives. -/
theorem of_find (h : s.Faithful) (found : s.find? innermost e = some made) : make innermost e = .ok made := by
  unfold Store.find? at found
  split at found
  · rename_i key order basis first
    cases found
    have serves := List.find?_some first
    rw [Bool.and_eq_true, Bool.or_eq_true, beq_iff_eq, beq_iff_eq, beq_iff_eq] at serves
    obtain ⟨rfl, serves⟩ := serves
    exact h key order basis (List.mem_of_find?_eq_some first) innermost serves
  · cases found

theorem insert (h : s.Faithful) (run : make innermost e = .ok made) : (s.insert innermost e made).Faithful := by
  intro key order basis mem asked serves
  obtain old | new := List.mem_append.1 mem
  · exact h key order basis old asked serves
  obtain ⟨rfl, rfl, rfl⟩ : key = e ∧ order = (if made.ordered then some innermost else none) ∧ basis = made.basis := by
    simpa using new
  obtain ⟨basis, ordered⟩ := made
  cases ordered with
  | false => exact make_unordered innermost asked key _ run rfl
  | true =>
    cases serves.resolve_left (Option.some_ne_none _)
    exact run

theorem of_sublist {t : Store} (h : s.Faithful) (sub : t.Sublist s) : t.Faithful :=
  fun key order basis mem => h key order basis (sub.subset mem)

end Store.Faithful

theorem run_obtain (innermost : Bool) (e : Element) (s : Store) : (obtain innermost e).run.run s =
    match s.find? innermost e with
    | some made => (.ok made, s)
    | none =>
      if e.cell?.isNone then (.error Functions.noCell, s)
      else
        match (step innermost e fun p _ => obtain innermost p).run.run s with
        | (.ok made, t) => (.ok made, t.insert innermost e made)
        | (.error x, t) => (.error x, t) := by
  have read : (get : ExceptT Error (StateM Store) Store).run.run s = pure (.ok s, s) := rfl
  rw [obtain, ExceptT.run_bind, StateT.run_bind, read, pure_bind]
  cases found : s.find? innermost e with
  | some made => simp only [found]; rfl
  | none =>
    simp only [found]
    split
    · rfl
    · rw [ExceptT.run_bind, StateT.run_bind]
      obtain ⟨_ | made, t⟩ := (step innermost e fun p _ => obtain innermost p).run.run s
      · rfl
      · rfl

/-- A basis is obtained as it is made, from any faithful store. -/
theorem answers_obtain (innermost : Bool) (e : Element) : Answers (obtain innermost e) (make innermost e) := by
  intro s faithful
  have parts : Answers (step innermost e fun p _ => obtain innermost p) (step innermost e fun p _ => make innermost p) :=
    answers_step fun p _ => answers_obtain innermost p
  have anew := make.eq_1 innermost e
  rw [run_obtain]
  cases found : s.find? innermost e with
  | some made => exact ⟨(faithful.of_find found).symm, faithful⟩
  | none =>
    cases celled : e.cell?.isNone with
    | true =>
      rw [celled] at anew
      exact ⟨anew.symm, faithful⟩
    | false =>
      rw [celled] at anew
      have result := parts s faithful
      generalize (step innermost e fun p _ => obtain innermost p).run.run s = answered at result
      obtain ⟨answer, t⟩ := answered
      obtain ⟨same, next⟩ := result
      cases answer with
      | error x => exact ⟨same.trans anew.symm, next⟩
      | ok made => exact ⟨same.trans anew.symm, next.insert (anew.trans same.symm)⟩
termination_by e.rank

/-! ## Stores that calls leave -/

/-- The stores that calls leave, one after the other. Between calls, entries may be dropped. -/
inductive Store.Reached : Store → Prop where
  | empty : Reached []
  | obtained {s : Store} (innermost : Bool) (e : Element) : Reached s → Reached ((obtain innermost e).run.run s).2
  | dropped {s t : Store} : Reached s → t.Sublist s → Reached t

theorem faithful_empty : Store.Faithful [] := fun _ _ _ mem => absurd mem List.not_mem_nil

theorem Store.Reached.faithful {s : Store} (h : s.Reached) : s.Faithful := by
  induction h with
  | empty => exact faithful_empty
  | obtained innermost e _ ih => exact (answers_obtain innermost e _ ih).2
  | dropped _ sub ih => exact ih.of_sublist sub

/-- Two components, each with the two linear functions on an interval. -/
def linearPair : Element := .vector (.simple .lagrange (some .interval) 1 none) 2

theorem make_linearPair (innermost : Bool) :
    make innermost linearPair = .ok ⟨.tensor (.nodal (Functions.lagrange .interval 1)) [2] (!innermost), true⟩ := by
  have part : make innermost (.simple .lagrange (some .interval) 1 none) = .ok ⟨.nodal (Functions.lagrange .interval 1), false⟩ := by
    rw [make]
    rfl
  rw [linearPair, make]
  exact bind_of_ok part rfl

end Basis

end FormCompiler
