import Mathlib.Data.Prod.Lex
import FormCompiler.Monomial.Factorise
import FormCompiler.Proofs.Placement
import FormCompiler.Proofs.Success

/-!
# Covers of monomials

A cover has an atomic of each monomial. The search takes the monomials in order and tries all atomics of the first one
that has none among those chosen; it gives up a choice that is as large as the best cover so far. Whenever it ends, be it
for lack of budget, the best so far is a cover. If it ends by itself, then no cover is better: a cheaper one would have
an atomic of each monomial on the way, so that its own choices would have been tried.
-/

namespace FormCompiler

open List Build

namespace Build

variable {α β : Type}

/-- A computation in two steps that returns does so after its first step. -/
theorem exists_run_of_bind {x : Build α} {f : α → Build β} {b : β} {s s' : Session}
    (run : (x >>= f).run.run s = (.ok b, s')) :
    ∃ a t, x.run.run s = (.ok a, t) ∧ (f a).run.run t = (.ok b, s') := by
  rw [ExceptT.run_bind, StateT.run_bind] at run
  cases first : x.run.run s with
  | mk r t =>
    rw [first] at run
    cases r with
    | error e => cases run
    | ok a => exact ⟨a, t, rfl, run⟩

end Build

namespace Monomial

variable {K : Type} {extent : Index → Extent} {linear : List Index} {ms : List (Monomial K)}
  {cover chosen : List (Expr K)}

/-- Each monomial has one of the atomics. -/
def Covers (cover : List (Expr K)) (ms : List (Monomial K)) : Prop :=
  ∀ m ∈ ms, ∃ a ∈ m.atomics, a ∈ cover

/-! ## Prices -/

/-- The number of points that the linear indices of an expression run over, by their extents. -/
def linearPoints (extent : Index → Extent) (linear : List Index) (e : Expr K) : Int :=
  ((e.freeIndices.filter linear.contains).map fun i => (extent i).getD 0).prod

/-- What a cover costs: the number of its atomics, then the negated sum of their linear extents. -/
def price (extent : Index → Extent) (linear : List Index) (cover : List (Expr K)) : ℕ ×ₗ ℤ :=
  toLex (cover.length, -(cover.map (linearPoints extent linear)).sum)

/-- The extents of the linear indices of the expressions are known. -/
def Priced (extent : Index → Extent) (linear : List Index) (cover : List (Expr K)) : Prop :=
  ∀ a ∈ cover, ∀ i ∈ a.freeIndices, i ∈ linear → ∃ n, extent i = some n

theorem price_eq_of_perm (perm : chosen.Perm cover) : price extent linear chosen = price extent linear cover := by
  rw [price, price, perm.length_eq, (perm.map _).sum_eq]

theorem price_lt_of_length_lt (fewer : chosen.length < cover.length) :
    price extent linear chosen < price extent linear cover :=
  Prod.Lex.toLex_lt_toLex.2 (.inl fewer)

/-- Whatever their extents, fewer atomics are cheaper. -/
theorem price_le_of_subperm (sub : chosen.Subperm cover) : price extent linear chosen ≤ price extent linear cover := by
  rcases sub.length_le.lt_or_eq with fewer | same
  · exact (price_lt_of_length_lt fewer).le
  · exact (price_eq_of_perm (sub.perm_of_length_le same.ge)).le

theorem ensures_linearExtent (e : Expr K) :
    Ensures extent (linearExtent linear e) fun n => n = linearPoints extent linear e := by
  refine (ensures_mapM fun i _ => ensures_knownExtent).bind fun ns known => ensures_pure ?_
  have values : ns = (e.freeIndices.filter linear.contains).map fun i => (extent i).getD 0 := by
    rw [← forall₂_eq_eq_eq, forall₂_map_right_iff]
    exact known.flip.imp fun n i h => by rw [h]; rfl
  rw [linearPoints, ← values, prod_eq_foldl]

theorem ensures_coverCost (cover : List (Expr K)) :
    Ensures extent (coverCost linear cover) fun c => toLex c = price extent linear cover := by
  refine (ensures_mapM fun a _ => ensures_linearExtent a).bind fun ns sizes => ensures_pure ?_
  have values : ns = cover.map (linearPoints extent linear) := by
    rw [← forall₂_eq_eq_eq, forall₂_map_right_iff]
    exact sizes.flip
  rw [price, ← values, sum_eq_foldl]

theorem succeeds_coverCost (priced : Priced extent linear cover) :
    Succeeds extent (coverCost linear cover) fun c => toLex c = price extent linear cover := by
  refine (Succeeds.and (Q := fun _ => True) ?_ (ensures_coverCost cover)).mono fun _ h => h.2
  refine (succeeds_mapM (S := fun _ _ => True) fun a ha => ?_).bind fun _ _ => succeeds_pure trivial
  refine (succeeds_mapM (S := fun _ _ => True) fun i hi => ?_).bind fun _ _ => succeeds_pure trivial
  obtain ⟨free, lin⟩ := mem_filter.1 hi
  obtain ⟨n, hn⟩ := priced a ha i free (by simpa using lin)
  exact (succeeds_knownExtent hn).mono fun _ _ => trivial

/-! ## The search -/

/-- A candidate replaces the best cover so far if it is cheaper, and is counted; the search stops at the candidate for
which no budget is left. -/
def CoverSearch.look (extent : Index → Extent) (linear : List Index) (chosen : List (Expr K)) (s : CoverSearch K) :
    CoverSearch K where
  best := if price extent linear chosen < price extent linear s.best then chosen else s.best
  remaining := s.remaining - 1
  stopped := s.stopped || s.remaining == 0

variable {all : List (Monomial K)} {m : Monomial K} {s t : CoverSearch K} {a : Expr K}

/-- At the end of the monomials the atomics that were chosen are looked at. -/
theorem ensures_searchCovers_nil [Scalar K] :
    Ensures extent (searchCovers linear chosen [] s) fun t => t = s.look extent linear chosen := by
  refine (ensures_coverCost chosen).bind fun c hc => (ensures_coverCost s.best).bind fun c' hc' => ?_
  have cheaper : (c.1 < c'.1 || (c.1 == c'.1 && c.2 < c'.2)) = true ↔
      price extent linear chosen < price extent linear s.best := by
    rw [← hc, ← hc', Prod.Lex.toLex_lt_toLex]
    simp
  by_cases less : price extent linear chosen < price extent linear s.best
  · simp only [if_pos (cheaper.2 less), CoverSearch.look, if_pos less]
    exact ensures_ite (fun out => ensures_pure (by simp [out])) fun out => ensures_pure (by simp [out])
  · simp only [if_neg (mt cheaper.1 less), CoverSearch.look, if_neg less]
    exact ensures_ite (fun out => ensures_pure (by simp [out])) fun out => ensures_pure (by simp [out])

/-- Atomics that are chosen on the way: some monomials are left, the others have one of the atomics. -/
structure Choice (all ms : List (Monomial K)) (chosen : List (Expr K)) : Prop where
  nodup : chosen.Nodup
  atomic : chosen ⊆ all.flatMap atomics
  left : ms ⊆ all
  done : ∀ m ∈ all, m ∈ ms ∨ ∃ a ∈ m.atomics, a ∈ chosen

theorem Choice.covers (h : Choice all [] chosen) : Covers chosen all :=
  fun m hm => (h.done m hm).resolve_left not_mem_nil

/-- A monomial that has one of the atomics is passed over. -/
theorem Choice.skip (h : Choice all (m :: ms) chosen) (has : ∃ a ∈ m.atomics, a ∈ chosen) : Choice all ms chosen where
  nodup := h.nodup
  atomic := h.atomic
  left := fun _ hn => h.left (mem_cons_of_mem _ hn)
  done n hn := by
    rcases h.done n hn with left | found
    · rcases mem_cons.1 left with rfl | left
      · exact .inr has
      · exact .inl left
    · exact .inr found

/-- For a monomial that has none of them, one of its own is taken. -/
theorem Choice.take (h : Choice all (m :: ms) chosen) (ha : a ∈ m.atomics) (new : a ∉ chosen) :
    Choice all ms (chosen ++ [a]) where
  nodup := by simpa [nodup_append] using ⟨h.nodup, fun b hb same => new (same ▸ hb)⟩
  atomic := append_subset.2 ⟨h.atomic, by
    simpa using ⟨m, h.left mem_cons_self, ha⟩⟩
  left := fun _ hn => h.left (mem_cons_of_mem _ hn)
  done n hn := by
    rcases h.done n hn with left | ⟨b, hb, found⟩
    · rcases mem_cons.1 left with rfl | left
      · exact .inr ⟨a, ha, by simp⟩
      · exact .inl left
    · exact .inr ⟨b, hb, by simp [found]⟩

/-- What is known after a search among the covers that have the chosen atomics. -/
structure Searched (extent : Index → Extent) (linear : List Index) (all : List (Monomial K))
    (among : List (Expr K) → Prop) (s t : CoverSearch K) : Prop where
  feasible : Choice all [] t.best
  cheaper : price extent linear t.best ≤ price extent linear s.best
  /-- A search that goes on has not been stopped before. -/
  going : t.stopped = false → s.stopped = false
  least : t.stopped = false → ∀ cover, among cover → price extent linear t.best ≤ price extent linear cover

variable {among among' : List (Expr K) → Prop} {as : List (Expr K)} {f g : CoverSearch K → Build (CoverSearch K)}

/-- The covers that are left to one search and then those left to the next. -/
theorem Searched.trans {u : CoverSearch K}
    (first : Searched extent linear all among s t) (second : Searched extent linear all among' t u) :
    Searched extent linear all (fun cover => among cover ∨ among' cover) s u where
  feasible := second.feasible
  cheaper := second.cheaper.trans first.cheaper
  going h := first.going (second.going h)
  least h cover
    | .inl here => second.cheaper.trans (first.least (second.going h) cover here)
    | .inr here => second.least h cover here

theorem Searched.narrow (h : Searched extent linear all among s t)
    (sub : ∀ cover, among' cover → among cover) : Searched extent linear all among' s t :=
  { h with least := fun going cover hc => h.least going cover (sub cover hc) }

/-- One search for each of some atomics, as long as the search is not stopped. -/
theorem ensures_searchEach {f : CoverSearch K → Expr K → Build (CoverSearch K)} {among : Expr K → List (Expr K) → Prop}
    (feasible : Choice all [] s.best)
    (search : ∀ s, ∀ a ∈ as, Choice all [] s.best → Ensures extent (f s a) (Searched extent linear all (among a) s)) :
    Ensures extent (as.foldlM (fun s a => if s.stopped then return s else f s a) s)
      (Searched extent linear all (fun cover => ∃ a ∈ as, among a cover) s) := by
  induction as generalizing s with
  | nil => exact ensures_pure ⟨feasible, le_rfl, id, fun _ _ h => by simp at h⟩
  | cons a as ih =>
    have first : Ensures extent (if s.stopped then return s else f s a) (Searched extent linear all (among a) s) := by
      refine ensures_ite (fun stopped => ensures_pure ?_) fun _ => search s a mem_cons_self feasible
      exact ⟨feasible, le_rfl, id, fun going => by simp [stopped] at going⟩
    rw [foldlM_cons]
    refine first.bind fun t ht => ?_
    refine (ih ht.feasible fun s b hb => search s b (mem_cons_of_mem _ hb)).mono fun u hu => ?_
    exact (ht.trans hu).narrow fun cover h => by simpa using h

/-- A cover among those that have the chosen atomics and one of each monomial that is left. -/
def Completes (chosen : List (Expr K)) (ms : List (Monomial K)) (cover : List (Expr K)) : Prop :=
  cover.Nodup ∧ chosen ⊆ cover ∧ Covers cover ms

/-- Nothing that is found by choosing more is as cheap as a cover of as many atomics as are chosen. -/
theorem price_le_of_full (choice : Choice all (m :: ms) chosen) (lacks : ∀ a ∈ m.atomics, a ∉ chosen)
    {best : List (Expr K)} (full : best.length ≤ chosen.length) (h : Completes chosen (m :: ms) cover) :
    price extent linear best ≤ price extent linear cover := by
  obtain ⟨nodup, sub, covers⟩ := h
  obtain ⟨a, ha, found⟩ := covers m mem_cons_self
  have more : (a :: chosen).Subperm cover :=
    (nodup_cons.2 ⟨lacks a ha, choice.nodup⟩).subperm (cons_subset.2 ⟨found, sub⟩)
  have := more.length_le
  rw [length_cons] at this
  exact (price_lt_of_length_lt (by omega)).le

/-- The search leaves a cover that no cover with the chosen atomics undercuts, unless it is stopped. -/
theorem ensures_searchCovers [Scalar K] [StrictSame K] (choice : Choice all ms chosen) (feasible : Choice all [] s.best) :
    Ensures extent (searchCovers linear chosen ms s) (Searched extent linear all (Completes chosen ms) s) := by
  induction ms generalizing chosen s with
  | nil =>
    refine ensures_searchCovers_nil.mono fun t ht => ?_
    subst ht
    by_cases less : price extent linear chosen < price extent linear s.best
    · refine ⟨?_, ?_, by simp +contextual [CoverSearch.look], fun _ cover h => ?_⟩
      all_goals simp only [CoverSearch.look, if_pos less]
      · exact choice
      · exact less.le
      · exact price_le_of_subperm (choice.nodup.subperm h.2.1)
    · refine ⟨?_, ?_, by simp +contextual [CoverSearch.look], fun _ cover h => ?_⟩
      all_goals simp only [CoverSearch.look, if_neg less]
      · exact feasible
      · exact le_rfl
      · exact (not_lt.1 less).trans (price_le_of_subperm (choice.nodup.subperm h.2.1))
  | cons m ms ih =>
    rw [searchCovers]
    refine ensures_ite (fun has => ?_) fun lacks => ?_
    · have has : ∃ a ∈ m.atomics, a ∈ chosen := by simpa using has
      refine (ih (choice.skip has) feasible).mono fun t h => ?_
      exact h.narrow fun cover hc => ⟨hc.1, hc.2.1, fun n hn => hc.2.2 n (mem_cons_of_mem _ hn)⟩
    have lacks : ∀ a ∈ m.atomics, a ∉ chosen := by simpa using lacks
    refine ensures_ite (fun few => ?_) fun full => ensures_pure ⟨feasible, le_rfl, id, fun _ cover h => ?_⟩
    · have search : ∀ s, ∀ a ∈ m.atomics, Choice all [] s.best →
          Ensures extent (searchCovers linear (if chosen.contains a then chosen else chosen ++ [a]) ms s)
            (Searched extent linear all (Completes (chosen ++ [a]) ms) s) := by
        intro s a ha best
        rw [if_neg (by simpa using lacks a ha)]
        exact ih (choice.take ha (lacks a ha)) best
      refine (ensures_searchEach feasible search).mono fun t h => h.narrow fun cover hc => ?_
      -- a cover has an atomic of this monomial, and is found where that one is taken
      obtain ⟨a, ha, found⟩ := hc.2.2 m mem_cons_self
      exact ⟨a, ha, hc.1, by simpa using ⟨hc.2.1, found⟩, fun n hn => hc.2.2 n (mem_cons_of_mem _ hn)⟩
    · exact price_le_of_full choice lacks (by omega) h

/-! ## The budget -/

/-- A step of the search that, unless it is stopped, takes the same way with any budget for as many candidates. -/
def Unhurried (f : CoverSearch K → Build (CoverSearch K)) : Prop :=
  ∀ s t σ σ', (f s).run.run σ = (.ok t, σ') → t.stopped = false →
    s.stopped = false ∧ t.remaining ≤ s.remaining ∧ ∀ n, s.remaining ≤ n + t.remaining →
      (f { s with remaining := n }).run.run σ = (.ok { t with remaining := n + t.remaining - s.remaining }, σ')

theorem unhurried_pure : Unhurried (pure : CoverSearch K → Build (CoverSearch K)) := by
  intro s t σ σ' run going
  cases run
  exact ⟨going, le_rfl, fun n _ => by rw [Nat.add_sub_cancel]; rfl⟩

theorem Unhurried.bind (hf : Unhurried f) (hg : Unhurried g) : Unhurried fun s => f s >>= g := by
  intro s t σ σ' run going
  obtain ⟨u, σ₁, first, second⟩ := exists_run_of_bind run
  obtain ⟨going, less, again⟩ := hg u t σ₁ σ' second going
  obtain ⟨going, less', again'⟩ := hf s u σ σ₁ first going
  refine ⟨going, less.trans less', fun n enough => ?_⟩
  have left : n + u.remaining - s.remaining + t.remaining - u.remaining = n + t.remaining - s.remaining := by omega
  rw [run_bind_ok (again' n (by omega)), again _ (by omega), left]

theorem unhurried_foldlM {f : CoverSearch K → Expr K → Build (CoverSearch K)}
    (h : ∀ a ∈ as, Unhurried fun s => f s a) : Unhurried fun s => as.foldlM f s := by
  induction as with
  | nil => exact unhurried_pure
  | cons a as ih =>
    simp only [foldlM_cons]
    exact (h a mem_cons_self).bind (ih fun b hb => h b (mem_cons_of_mem _ hb))

/-- A branch that is not taken for the sake of the budget. -/
theorem unhurried_ite {c : CoverSearch K → Prop} [∀ s, Decidable (c s)]
    (same : ∀ s n, c { s with remaining := n } ↔ c s) (hf : Unhurried f) (hg : Unhurried g) :
    Unhurried fun s => if c s then f s else g s := by
  intro s t σ σ' run going
  by_cases h : c s
  · simp only [if_pos h, if_pos ((same s _).2 h)] at run ⊢
    exact hf s t σ σ' run going
  · simp only [if_neg h, if_neg (mt (same s _).1 h)] at run ⊢
    exact hg s t σ σ' run going

/-- What is worked out first without a look at the budget. -/
theorem Unhurried.after {β : Type} {x : CoverSearch K → Build β} {f : β → CoverSearch K → Build (CoverSearch K)}
    (same : ∀ s n, x { s with remaining := n } = x s) (hf : ∀ b, Unhurried (f b)) :
    Unhurried fun s => x s >>= fun b => f b s := by
  intro s t σ σ' run going
  obtain ⟨b, σ₁, first, run⟩ := exists_run_of_bind run
  obtain ⟨going, less, again⟩ := hf b s t σ₁ σ' run going
  refine ⟨going, less, fun n enough => ?_⟩
  dsimp only
  rw [same, run_bind_ok first, again n enough]

theorem Unhurried.withBest (hf : Unhurried f) (best : List (Expr K)) : Unhurried fun s => f { s with best } :=
  fun s t σ σ' run going => hf { s with best } t σ σ' run going

/-- A candidate is counted. -/
theorem unhurried_count : Unhurried fun s : CoverSearch K =>
    if s.remaining = 0 then pure { s with stopped := true } else pure { s with remaining := s.remaining - 1 } := by
  intro s t σ σ' run going
  dsimp only at run ⊢
  split at run
  · cases run
    cases going
  · cases run
    refine ⟨going, Nat.sub_le .., fun n enough => ?_⟩
    dsimp only at enough ⊢
    rw [if_neg (by omega), show n + (s.remaining - 1) - s.remaining = n - 1 by omega]
    rfl

theorem unhurried_searchCovers [Scalar K] : Unhurried fun s => searchCovers linear chosen ms s := by
  induction ms generalizing chosen with
  | nil =>
    simp only [searchCovers]
    refine .after (fun _ _ => rfl) fun c => .after (fun _ _ => rfl) fun c' => ?_
    by_cases cheaper : (c.1 < c'.1 || (c.1 == c'.1 && c.2 < c'.2)) = true
    · simp only [if_pos cheaper]
      exact unhurried_count.withBest chosen
    · simp only [if_neg cheaper]
      exact unhurried_count
  | cons m ms ih =>
    simp only [searchCovers]
    refine unhurried_ite (fun _ _ => Iff.rfl) ih (unhurried_ite (fun _ _ => Iff.rfl) ?_ unhurried_pure)
    exact unhurried_foldlM fun a _ => unhurried_ite (fun _ _ => Iff.rfl) unhurried_pure ih

/-- There are no more candidates than choices of an atomic for each monomial: with a budget for those, the search ends by
itself. -/
theorem ensures_searchCovers_going [Scalar K] (going : s.stopped = false)
    (budget : (ms.map fun m => m.atomics.length).prod ≤ s.remaining) :
    Ensures extent (searchCovers linear chosen ms s) fun t =>
      t.stopped = false ∧ s.remaining ≤ t.remaining + (ms.map fun m => m.atomics.length).prod := by
  induction ms generalizing chosen s with
  | nil =>
    refine ensures_searchCovers_nil.mono fun t ht => ?_
    subst ht
    rw [map_nil, prod_nil] at budget ⊢
    simp only [CoverSearch.look, going, Bool.false_or, beq_eq_false_iff_ne]
    omega
  | cons m ms ih =>
    rw [map_cons, prod_cons] at budget ⊢
    generalize (ms.map fun m => m.atomics.length).prod = choices at ih budget ⊢
    rw [searchCovers]
    refine ensures_ite (fun has => ?_) fun _ => ensures_ite (fun few => ?_) fun _ => ensures_pure ⟨going, by omega⟩
    · have some_ : 0 < m.atomics.length := by
        obtain ⟨a, ha, -⟩ := any_eq_true.1 has
        exact length_pos_of_mem ha
      have := Nat.le_mul_of_pos_left choices some_
      exact (ih going (by omega)).mono fun t h => ⟨h.1, by omega⟩
    · clear few
      generalize m.atomics = as at budget ⊢
      induction as generalizing s with
      | nil => exact ensures_pure ⟨going, by omega⟩
      | cons a as each =>
        rw [length_cons, Nat.succ_mul] at budget ⊢
        rw [foldlM_cons, if_neg (by simp [going])]
        refine (ih going (by omega)).bind fun t ht => ?_
        exact (each ht.1 (by omega)).mono fun u hu => ⟨hu.1, by omega⟩

/-! ## The chosen atomics -/

open Program (mem_distinct nodup_distinct)

variable [Scalar K] [StrictSame K]

/-- All atomics together are a cover. -/
theorem choice_distinct (atomics_ne_nil : ∀ m ∈ ms, m.atomics ≠ []) : Choice ms [] (distinct (ms.flatMap atomics)) where
  nodup := nodup_distinct _
  atomic := fun a ha => mem_distinct.1 ha
  left := nil_subset _
  done m hm := by
    obtain ⟨a, as, eq⟩ := exists_cons_of_ne_nil (atomics_ne_nil m hm)
    have ha : a ∈ m.atomics := by simp [eq]
    exact .inr ⟨a, ha, mem_distinct.2 (mem_flatMap.2 ⟨m, hm, ha⟩)⟩

/-- Atomics in the order in which they are first met. -/
theorem perm_filter_contains (choice : Choice ms [] cover) :
    ((distinct (ms.flatMap atomics)).filter cover.contains).Perm cover := by
  refine (perm_ext_iff_of_nodup ((nodup_distinct _).filter _) choice.nodup).2 fun a => ?_
  rw [mem_filter, mem_distinct, contains_iff_mem]
  exact ⟨And.right, fun ha => ⟨choice.atomic ha, ha⟩⟩

omit [Scalar K] [StrictSame K] in
theorem choice_nil : Choice ms ms [] :=
  ⟨nodup_nil, nil_subset _, Subset.refl _, fun _ hm => .inl hm⟩

/-- What the search leaves is a cover, whether it was stopped or not. -/
theorem ensures_optimalAtomics (atomics_ne_nil : ∀ m ∈ ms, m.atomics ≠ []) :
    Ensures extent (optimalAtomics ms linear) fun cover => Covers cover ms := by
  refine (ensures_searchCovers choice_nil (choice_distinct atomics_ne_nil)).bind fun t found => ensures_pure ?_
  intro m hm
  obtain ⟨a, ha, chosen⟩ := found.feasible.covers m hm
  exact ⟨a, ha, (perm_filter_contains found.feasible).mem_iff.2 chosen⟩

/-- No candidate is refused if the linear extents of the atomics are known. -/
theorem succeeds_searchCovers (choice : Choice all ms chosen) (feasible : Choice all [] s.best)
    (priced : Priced extent linear (all.flatMap atomics)) :
    Succeeds extent (searchCovers linear chosen ms s) fun t => Choice all [] t.best := by
  induction ms generalizing chosen s with
  | nil =>
    refine (Succeeds.and (Q := fun _ => True) ?_ (ensures_searchCovers choice feasible)).mono fun _ h => h.2.feasible
    refine (succeeds_coverCost fun a ha => priced a (choice.atomic ha)).bind fun c _ => ?_
    refine (succeeds_coverCost fun a ha => priced a (feasible.atomic ha)).bind fun c' _ => ?_
    exact succeeds_ite (fun _ => succeeds_pure trivial) fun _ => succeeds_pure trivial
  | cons m ms ih =>
    rw [searchCovers]
    refine succeeds_ite (fun has => ih (choice.skip (by simpa using has)) feasible) fun lacks => ?_
    have lacks : ∀ a ∈ m.atomics, a ∉ chosen := by simpa using lacks
    refine succeeds_ite (fun _ => succeeds_foldlM feasible fun s a ha best => ?_) fun _ => succeeds_pure feasible
    refine succeeds_ite (fun _ => succeeds_pure best) fun _ => ?_
    rw [if_neg (by simpa using lacks a ha)]
    exact ih (choice.take ha (lacks a ha)) best

theorem succeeds_optimalAtomics (atomics_ne_nil : ∀ m ∈ ms, m.atomics ≠ [])
    (priced : Priced extent linear (ms.flatMap atomics)) : Succeeds extent (optimalAtomics ms linear) fun _ => True :=
  (succeeds_searchCovers choice_nil (choice_distinct atomics_ne_nil) priced).bind fun _ _ => succeeds_pure trivial

/-- **The covering problem is solved.** Let each monomial have an atomic. Where the linear extents of the atomics are
known, atomics are found. What is found has an atomic of each monomial, also if the search is stopped. And if the search,
with some budget, ends by itself after at most 4096 candidates, then no atomics that have one of each monomial cost
less. -/
theorem optimalAtomics_solves_covering (linear : List Index) (atomics_ne_nil : ∀ m ∈ ms, m.atomics ≠ []) (σ : Session) :
    (Priced σ.extents linear (ms.flatMap atomics) → ∃ cover σ', (optimalAtomics ms linear).run.run σ = (.ok cover, σ')) ∧
    ∀ cover σ', (optimalAtomics ms linear).run.run σ = (.ok cover, σ') →
      Covers cover ms ∧ cover.Sublist (distinct (ms.flatMap atomics)) ∧
      ∀ n found σ'', (searchCovers linear [] ms { best := distinct (ms.flatMap atomics), remaining := n }).run.run σ =
          (.ok found, σ'') → found.stopped = false → n ≤ found.remaining + 4096 →
        ∀ other, other.Nodup → Covers other ms → price σ.extents linear cover ≤ price σ.extents linear other := by
  refine ⟨fun priced => ?_, fun cover σ' run => ⟨?_, ?_, ?_⟩⟩
  · obtain ⟨cover, σ', run, -⟩ := succeeds_optimalAtomics atomics_ne_nil priced σ rfl
    exact ⟨cover, σ', run⟩
  · exact (ensures_optimalAtomics atomics_ne_nil σ rfl cover σ' run).2
  all_goals
    obtain ⟨t, σ₁, search, run⟩ := Build.exists_run_of_bind run
    cases run
  · exact List.filter_sublist
  · intro n found σ'' ended going few other nodup covers
    -- with the budget that is given the search ends by itself as well, with the same result
    obtain ⟨-, -, again⟩ := unhurried_searchCovers _ found σ σ'' ended going
    cases search.symm.trans (again 4096 (by dsimp only; omega))
    obtain ⟨-, result⟩ := ensures_searchCovers choice_nil (choice_distinct atomics_ne_nil) σ rfl _ _ search
    rw [price_eq_of_perm (perm_filter_contains result.feasible)]
    exact result.least going other ⟨nodup, List.nil_subset _, covers⟩

/-- An entry of a vector of length 2. -/
def entryOf (name : String) : Expr ℚ := .indexed (.var name [some 2]) [.free ⟨0⟩]

/-- Two products that share a factor, which stands last in both. -/
def sharedFactor : List (Monomial ℚ) :=
  [⟨[], [entryOf "u", entryOf "w"], one⟩, ⟨[], [entryOf "v", entryOf "w"], one⟩]

theorem optimalAtomics_solves_covering_sharedFactor :
    ∃ cover σ', (optimalAtomics sharedFactor [⟨0⟩]).run.run ⟨#[⟨none, some 2⟩], 0⟩ = (.ok cover, σ') ∧
      Covers cover sharedFactor ∧ ∀ other, other.Nodup → Covers other sharedFactor →
        price (Session.extents ⟨#[⟨none, some 2⟩], 0⟩) [⟨0⟩] cover ≤
          price (Session.extents ⟨#[⟨none, some 2⟩], 0⟩) [⟨0⟩] other := by
  have atomics_ne_nil : ∀ m ∈ sharedFactor, m.atomics ≠ [] := by decide
  have priced : Priced (Session.extents ⟨#[⟨none, some 2⟩], 0⟩) [⟨0⟩] (sharedFactor.flatMap atomics) :=
    fun a _ i _ hi => by rw [List.mem_singleton.1 hi]; exact ⟨2, rfl⟩
  obtain ⟨found, σ'', ended, -, -, going, -⟩ :=
    (succeeds_searchCovers (s := ⟨_, 4096, false⟩) choice_nil (choice_distinct atomics_ne_nil) priced).and
      (ensures_searchCovers_going rfl (by decide)) ⟨#[⟨none, some 2⟩], 0⟩ rfl
  obtain ⟨returns, spec⟩ := optimalAtomics_solves_covering [⟨0⟩] atomics_ne_nil ⟨#[⟨none, some 2⟩], 0⟩
  obtain ⟨cover, σ', run⟩ := returns priced
  obtain ⟨covers, -, least⟩ := spec cover σ' run
  exact ⟨cover, σ', run, covers, least 4096 found σ'' ended going (by omega)⟩

end Monomial

end FormCompiler
