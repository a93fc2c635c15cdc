import FormCompiler.Proofs.Renaming

/-!
# Products summed over indices

The value of a product of terms that is summed over indices. Such sums multiply, run into each other, and may be renamed,
as long as the indices of the one do not occur in the terms of the other.
-/

namespace FormCompiler

open List

namespace Valuation

variable {extent : Index → Extent} {is js : List Index} {ρ σ : Valuation}

/-- The valuations in which indices stand at all the positions below their extents. -/
def runs (ρ : Valuation) (extent : Index → Extent) (is : List Index) : List Valuation :=
  ρ.ranging (bindersOf (Bounds.sizes extent) is)

/-- Indices of known extents run as before. -/
theorem runs_grows {s s' : Session} (grows : s.Grows s') (known : ∀ i ∈ is, ∃ n, s.extents i = some n) (ρ : Valuation) :
    ρ.runs s'.extents is = ρ.runs s.extents is := by
  rw [runs, grows.bindersOf known]
  rfl

theorem runs_nil (ρ : Valuation) (extent : Index → Extent) : ρ.runs extent [] = [ρ] := rfl

theorem eq_of_mem_runs {i : Index} (h : σ ∈ ρ.runs extent is) (hi : i ∉ is) : σ i = ρ i :=
  (mem_ranging.1 h).1 i hi

theorem runs_append (apart : ∀ i ∈ is, i ∉ js) :
    ρ.runs extent (is ++ js) = (ρ.runs extent is).flatMap fun σ => σ.runs extent js := by
  rw [runs, bindersOf_append]
  refine ranging_append ρ fun b hb => ?_
  obtain ⟨i, hi, rfl⟩ := mem_map.1 hb
  rw [map_fst_bindersOf]
  exact apart i hi

theorem runs_perm (same : ∀ i, i ∈ is ↔ i ∈ js) : (ρ.runs extent is).Perm (ρ.runs extent js) := ranging_perm ρ same

/-- A valuation from which indices of two kinds run, with those of the second kind put back. -/
theorem exists_mem_runs (h : σ ∈ ρ.runs extent (is ++ js)) : ∃ τ ∈ ρ.runs extent is, ∀ i, i ∉ js → τ i = σ i := by
  obtain ⟨out, range⟩ := mem_ranging.1 h
  refine ⟨ρ.patch σ is, patch_mem_ranging ρ (range.mono (subset_append_left _ _)), fun i hi => ?_⟩
  rw [patch]
  split
  · rfl
  · rename_i hi'
    exact (out i (by simp [hi, hi'])).symm

/-- Indices of known extents have positions to run over. -/
theorem exists_run (known : ∀ i ∈ is, ∃ n, extent i = some n ∧ 0 < n) (ρ : Valuation) : ∃ σ, σ ∈ ρ.runs extent is := by
  refine ⟨fun i => if i ∈ is then 0 else ρ i, mem_ranging.2 ⟨fun i hi => if_neg hi, fun i hi => ?_⟩⟩
  obtain ⟨n, size, pos⟩ := known i hi
  simp only [if_pos hi, Bounds.sizes, size, Option.getD_some]
  omega

/-- From two valuations, indices run over the same positions, one after the other. -/
theorem runs_forall₂ (ρ ρ' : Valuation) (extent : Index → Extent) (is : List Index) :
    Forall₂ (fun σ τ : Valuation => (∀ i ∈ is, σ i = τ i) ∧ (∀ i, i ∉ is → σ i = ρ i) ∧ ∀ i, i ∉ is → τ i = ρ' i)
      (ρ.runs extent is) (ρ'.runs extent is) := by
  obtain ⟨ps, ranging⟩ := exists_ranging_eq (bindersOf (Bounds.sizes extent) is)
  rw [runs, runs, ranging, ranging, forall₂_map_left_iff, forall₂_map_right_iff]
  refine forall₂_same.2 fun vs _ => ⟨fun i hi => ?_, fun i hi => ?_, fun i hi => ?_⟩
  · have agree : Agree [i] (ρ.bind (bindersOf (Bounds.sizes extent) is) vs) (ρ'.bind (bindersOf (Bounds.sizes extent) is) vs) :=
      Agree.bind vs fun j hj out => absurd (by simpa using mem_singleton.1 hj ▸ hi) out
    exact agree i mem_cons_self
  · exact bind_of_not_mem (by simpa using hi)
  · exact bind_of_not_mem (by simpa using hi)

/-- What looks at no index of another sum takes the same values wherever that sum has come to. -/
theorem map_runs_congr {α : Type} {g : Valuation → α} (hg : ∀ σ τ : Valuation, (∀ i, i ∉ is → σ i = τ i) → g σ = g τ)
    (same : ∀ i, i ∉ is → σ i = ρ i) : (σ.runs extent js).map g = (ρ.runs extent js).map g := by
  have pairs := runs_forall₂ σ ρ extent js
  rw [← forall₂_eq_eq_eq, forall₂_map_left_iff, forall₂_map_right_iff]
  refine pairs.imp fun τ τ' h => hg τ τ' fun i hi => ?_
  obtain ⟨run, left, right⟩ := h
  by_cases mem : i ∈ js
  · exact run i mem
  · rw [left i mem, right i mem, same i hi]

/-- Sums of factors that do not depend on each other's indices multiply. -/
theorem sum_runs_mul {K : Type} [Semiring K] {f g : Valuation → K} (apart : ∀ i ∈ is, i ∉ js)
    (hf : ∀ σ τ : Valuation, (∀ i, i ∉ js → σ i = τ i) → f σ = f τ) (hg : ∀ σ τ : Valuation, (∀ i, i ∉ is → σ i = τ i) → g σ = g τ) :
    ((ρ.runs extent is).map f).sum * ((ρ.runs extent js).map g).sum =
      ((ρ.runs extent (is ++ js)).map fun σ => f σ * g σ).sum := by
  have inner : ∀ σ ∈ ρ.runs extent is, ((σ.runs extent js).map fun τ => f τ * g τ).sum =
      f σ * ((ρ.runs extent js).map g).sum := by
    intro σ hσ
    have outer : ((σ.runs extent js).map fun τ => f τ * g τ) = (σ.runs extent js).map fun τ => f σ * g τ :=
      map_congr_left fun τ hτ => by rw [hf τ σ fun i hi => eq_of_mem_runs hτ hi]
    rw [outer, sum_map_mul_left, map_runs_congr hg fun i hi => eq_of_mem_runs hσ hi]
  rw [runs_append apart, map_flatMap, flatMap_def, sum_flatten, map_map, ← sum_map_mul_right]
  exact congrArg List.sum (map_congr_left fun σ hσ => (inner σ hσ).symm)

end Valuation

namespace Expr

variable {K : Type} [Scalar K] [Field K]

/-- The product of the values of terms. -/
def productAt (env : Environment K) (σ : Valuation) (ts : List (Expr K)) : K := (ts.map fun t => value env t σ []).prod

/-- The product of terms, summed over indices, is defined, and this is its value. -/
structure Amounts (env : Environment K) (extent : Index → Extent) (ρ : Valuation) (is : List Index) (ts : List (Expr K))
    (x : K) : Prop where
  defined {σ : Valuation} : σ ∈ ρ.runs extent is → ∀ t ∈ ts, Defined env t σ []
  value : ((ρ.runs extent is).map fun σ => productAt env σ ts).sum = x

/-- Terms that depend on the given indices alone. -/
structure Within (F : Index → Prop) (extent : Index → Extent) (ts : List (Expr K)) : Prop where
  fits {t : Expr K} : t ∈ ts → WellFormed extent t
  scalar {t : Expr K} : t ∈ ts → t.shape = []
  free {t : Expr K} {i : Index} : t ∈ ts → i ∈ t.freeIndices → F i

section Within

variable {F G : Index → Prop} {extent : Index → Extent} {ts us : List (Expr K)} {env : Environment K} {σ τ : Valuation}

omit [Field K]

theorem Within.mono (h : Within F extent ts) (sub : ∀ i, F i → G i) : Within G extent ts :=
  ⟨h.fits, h.scalar, fun ht hi => sub _ (h.free ht hi)⟩

theorem Within.append (ht : Within F extent ts) (hu : Within F extent us) : Within F extent (ts ++ us) := by
  refine ⟨fun h => ?_, fun h => ?_, fun h => ?_⟩
  · exact (mem_append.1 h).elim ht.fits hu.fits
  · exact (mem_append.1 h).elim ht.scalar hu.scalar
  · exact (mem_append.1 h).elim ht.free hu.free

theorem Within.grows {s s' : Session} (h : Within F s.extents ts) (grows : s.Grows s') : Within F s'.extents ts :=
  ⟨fun ht => grows.wellFormed (h.fits ht), h.scalar, h.free⟩

variable [Field K]

theorem Within.productAt_congr (h : Within F extent ts) (same : ∀ i, F i → σ i = τ i) :
    productAt env σ ts = productAt env τ ts := by
  refine congrArg List.prod (map_congr_left fun t ht => ?_)
  exact value_congr (h.fits ht).runtimeClosed [] fun i hi => same i (h.free ht hi)

theorem Within.defined_congr (h : Within F extent ts) (same : ∀ i, F i → σ i = τ i) (defined : ∀ t ∈ ts, Defined env t σ []) :
    ∀ t ∈ ts, Defined env t τ [] :=
  fun t ht => (defined t ht).congr (h.fits ht).runtimeClosed fun i hi => same i (h.free ht hi)

theorem productAt_congr {fs fs' : List (Expr K)} (h : Forall₂ (fun f f' => f'.value env σ [] = f.value env τ []) fs fs') :
    productAt env σ fs' = productAt env τ fs := by
  refine congrArg List.prod ?_
  rw [← forall₂_eq_eq_eq, forall₂_map_left_iff, forall₂_map_right_iff]
  exact h.flip

variable {is js : List Index} {names : List (Index × Index)}

omit [Field K] in
/-- Indices run as their names do: each term is read where its indices stand under their names. -/
theorem Within.runs_renamed (within : Within (fun i => F i ∨ i ∈ is) extent ts)
    (ρ : Valuation) (hi : is.Nodup) (hj : js.Nodup) (length : is.length = js.length)
    (named : ∀ p ∈ is.zip js, Rewrite.renamed names p.1 = p.2) (kept : ∀ i, i ∉ is → Rewrite.renamed names i = i)
    (sizes : ∀ p ∈ is.zip js, Bounds.sizes extent p.1 = Bounds.sizes extent p.2) (apart : ∀ j ∈ js, F j → j ∈ is) :
    Forall₂ (fun σ τ : Valuation => ∀ t ∈ ts, Valuation.Agree t.freeIndices σ (Rewrite.under names τ))
      (ρ.runs extent is) (ρ.runs extent js) := by
  have extents : (bindersOf (Bounds.sizes extent) is).map Prod.snd = (bindersOf (Bounds.sizes extent) js).map Prod.snd := by
    rw [bindersOf, bindersOf, map_map, map_map, ← forall₂_eq_eq_eq, forall₂_map_left_iff,
      forall₂_map_right_iff]
    exact forall₂_iff_zip.2 ⟨length, fun hp => congrArg Int.ofNat (sizes _ hp)⟩
  have once : ∀ {ks : List Index}, ks.Nodup → ((bindersOf (Bounds.sizes extent) ks).map Prod.fst).Nodup := fun nodup => by
    rwa [map_fst_bindersOf]
  have pairs := Valuation.ranging_renamed ρ (once hi) (once hj) extents
  simp only [map_fst_bindersOf] at pairs
  refine pairs.imp ?_
  rintro σ τ ⟨run, left, right⟩ t ht i free
  rw [Rewrite.under]
  by_cases mem : i ∈ is
  · obtain ⟨j, hp⟩ := Rewrite.exists_mem_zip length mem
    rw [named _ hp]
    exact run _ hp
  · have other : i ∉ js := fun hj => mem (apart i hj ((within.free ht free).resolve_right mem))
    rw [kept i mem, left i mem, right i other]

/-- Terms under new names, summed over the names, whatever their values are. -/
theorem Within.sum_renamed (within : Within (fun i => F i ∨ i ∈ is) extent ts)
    (ρ : Valuation) (hi : is.Nodup) (hj : js.Nodup) (length : is.length = js.length)
    (named : ∀ p ∈ is.zip js, Rewrite.renamed names p.1 = p.2) (kept : ∀ i, i ∉ is → Rewrite.renamed names i = i)
    (sizes : ∀ p ∈ is.zip js, Bounds.sizes extent p.1 = Bounds.sizes extent p.2) (apart : ∀ j ∈ js, F j → j ∈ is)
    (values : Forall₂ (fun t u => ∀ σ, u.value env σ [] = t.value env (Rewrite.under names σ) []) ts us) :
    ((ρ.runs extent js).map fun σ => productAt env σ us).sum = ((ρ.runs extent is).map fun σ => productAt env σ ts).sum := by
  have pairs := within.runs_renamed ρ hi hj length named kept sizes apart
  refine congrArg List.sum ?_
  rw [← forall₂_eq_eq_eq, forall₂_map_left_iff, forall₂_map_right_iff]
  refine pairs.flip.imp fun τ σ agree => Expr.productAt_congr (forall₂_iff_zip.2 ⟨values.length_eq, fun {t u} hp => ?_⟩)
  have ht := (of_mem_zip hp).1
  rw [forall₂_zip values hp τ]
  exact (value_congr (within.fits ht).runtimeClosed [] (agree t ht)).symm

end Within

namespace Amounts

variable {env : Environment K} {extent : Index → Extent} {ρ : Valuation} {is js : List Index} {ts us : List (Expr K)} {x y : K}

theorem single {e : Expr K} (defined : Defined env e ρ []) : Amounts env extent ρ [] [e] (Expr.value env e ρ []) := by
  refine ⟨fun hσ t ht => ?_, ?_⟩
  · rw [Valuation.runs_nil, mem_singleton] at hσ
    rw [hσ, mem_singleton.1 ht]
    exact defined
  · simp [Valuation.runs_nil, productAt]

/-- A sum is its summand, summed over the indices of its binders. -/
theorem ofSum {body : Expr K} {bs : List Binder} (bounds : Bounds extent bs) (defined : Defined env (.indexSum body bs) ρ []) :
    Amounts env extent ρ (bs.map Prod.fst) [body] (Expr.value env (.indexSum body bs) ρ []) := by
  have runs : ρ.runs extent (bs.map Prod.fst) = ρ.ranging bs := by
    rw [Valuation.runs, ← bounds.eq_bindersOf]
  refine ⟨fun hσ t ht => ?_, ?_⟩
  · rw [mem_singleton.1 ht]
    exact defined_indexSum.1 defined _ (runs ▸ hσ)
  · simp [runs, productAt]

/-- Terms may be replaced by such as carry their values. -/
theorem replace (h : Amounts env extent ρ is ts x)
    (carries : Forall₂ (fun t u => t.shape = [] ∧ ∀ σ, Carries env σ σ t u) ts us) : Amounts env extent ρ is us x := by
  have each : ∀ σ ∈ ρ.runs extent is, (∀ u ∈ us, Defined env u σ []) ∧ productAt env σ us = productAt env σ ts := by
    intro σ hσ
    have terms : Forall₂ (fun t u => Defined env u σ [] ∧ Expr.value env u σ [] = Expr.value env t σ []) ts us :=
      forall₂_iff_zip.2 ⟨carries.length_eq, fun {t u} hp =>
        ((forall₂_zip carries hp).2 σ).scalar (forall₂_zip carries hp).1 (h.defined hσ t (of_mem_zip hp).1)⟩
    refine ⟨fun u hu => ?_, congrArg List.prod ?_⟩
    · obtain ⟨t, -, here, -⟩ := exists_of_forall₂ terms.flip hu
      exact here
    · rw [← forall₂_eq_eq_eq, forall₂_map_left_iff, forall₂_map_right_iff]
      exact terms.flip.imp fun _ _ same => same.2
  refine ⟨fun hσ => (each _ hσ).1, ?_⟩
  rw [← h.value]
  exact congrArg List.sum (map_congr_left fun σ hσ => (each σ hσ).2)

theorem of_eq (h : Amounts env extent ρ is ts x) (eq : x = y) : Amounts env extent ρ is ts y := eq ▸ h

variable {F : Index → Prop}

/-- Sums multiply if the indices of the one do not occur in the terms of the other. -/
theorem mul {G : Index → Prop} (first : Amounts env extent ρ is ts x) (second : Amounts env extent ρ js us y)
    (ht : Within F extent ts) (hu : Within G extent us) (apart : ∀ i ∈ is, i ∉ js) (outer : ∀ j ∈ js, ¬ F j) (inner : ∀ i ∈ is, ¬ G i) :
    Amounts env extent ρ (is ++ js) (ts ++ us) (x * y) := by
  refine ⟨fun {σ} hσ => ?_, ?_⟩
  · obtain ⟨τ, hτ, same⟩ := Valuation.exists_mem_runs hσ
    obtain ⟨τ', hτ', same'⟩ := Valuation.exists_mem_runs
      (((Valuation.runs_perm fun i => by simp [or_comm]).mem_iff).1 hσ : σ ∈ ρ.runs extent (js ++ is))
    intro t mem
    rcases mem_append.1 mem with mem | mem
    · exact ht.defined_congr (fun i hi => same i fun hj => outer i hj hi) (first.defined hτ) t mem
    · exact hu.defined_congr (fun i hi => same' i fun hj => inner i hj hi) (second.defined hτ') t mem
  · rw [← first.value, ← second.value, Valuation.sum_runs_mul apart]
    · exact congrArg List.sum (map_congr_left fun σ _ => by rw [productAt, map_append, prod_append]; rfl)
    · exact fun σ τ same => ht.productAt_congr fun i hi => same i fun hj => outer i hj hi
    · exact fun σ τ same => hu.productAt_congr fun i hi => same i fun hj => inner i hj hi

/-- Sums run into each other. -/
theorem nest {f : Valuation → K} (apart : ∀ i ∈ is, i ∉ js) (h : ∀ σ ∈ ρ.runs extent is, Amounts env extent σ js ts (f σ)) :
    Amounts env extent ρ (is ++ js) ts ((ρ.runs extent is).map f).sum := by
  have split : ρ.runs extent (is ++ js) = _ := Valuation.runs_append apart
  refine ⟨fun hσ => ?_, ?_⟩
  · rw [split] at hσ
    obtain ⟨τ, hτ, hσ⟩ := mem_flatMap.1 hσ
    exact (h τ hτ).defined hσ
  · rw [split, map_flatMap, flatMap_def, sum_flatten, map_map]
    exact congrArg List.sum (map_congr_left fun σ hσ => (h σ hσ).value)

/-- Terms under new names, summed over the names. -/
theorem rename {names : List (Index × Index)} (h : Amounts env extent ρ is ts x)
    (hi : is.Nodup) (hj : js.Nodup) (length : is.length = js.length)
    (named : ∀ p ∈ is.zip js, Rewrite.renamed names p.1 = p.2) (kept : ∀ i, i ∉ is → Rewrite.renamed names i = i)
    (sizes : ∀ p ∈ is.zip js, Bounds.sizes extent p.1 = Bounds.sizes extent p.2)
    (within : Within (fun i => F i ∨ i ∈ is) extent ts) (apart : ∀ j ∈ js, F j → j ∈ is)
    (carries : Forall₂ (fun t t' => ∀ σ, Carries env (Rewrite.under names σ) σ t t') ts us) :
    Amounts env extent ρ js us x := by
  have pairs := within.runs_renamed ρ hi hj length named kept sizes apart
  have each : ∀ σ τ : Valuation, (∀ t ∈ ts, Valuation.Agree t.freeIndices σ (Rewrite.under names τ)) →
      (∀ t ∈ ts, Defined env t σ []) → (∀ u ∈ us, Defined env u τ []) ∧ productAt env τ us = productAt env σ ts := by
    intro σ τ agree defined
    have terms : Forall₂ (fun t u => Defined env u τ [] ∧ Expr.value env u τ [] = Expr.value env t σ []) ts us := by
      refine forall₂_iff_zip.2 ⟨carries.length_eq, fun {t u} hp => ?_⟩
      have ht := (of_mem_zip hp).1
      have here := (forall₂_zip carries hp τ).congr_left (within.fits ht).runtimeClosed (agree t ht)
      exact here.scalar (within.scalar ht) (defined t ht)
    constructor
    · intro u hu
      obtain ⟨t, -, here, -⟩ := exists_of_forall₂ terms.flip hu
      exact here
    · exact productAt_congr (terms.imp fun _ _ same => same.2)
  refine ⟨fun {τ} hτ => ?_, ?_⟩
  · obtain ⟨σ, hσ, pair⟩ := exists_of_forall₂ pairs.flip hτ
    exact (each σ τ pair (h.defined hσ)).1
  · rw [← h.value]
    refine congrArg List.sum ?_
    rw [← forall₂_eq_eq_eq, forall₂_map_left_iff, forall₂_map_right_iff]
    refine forall₂_iff_zip.2 ⟨pairs.length_eq.symm, fun {τ σ} hp => ?_⟩
    have mem := forall₂_zip pairs.flip hp
    exact (each σ τ mem (h.defined (of_mem_zip hp).2)).2

theorem grows {s s' : Session} (h : Amounts env s.extents ρ is ts x) (grows : s.Grows s') (known : ∀ i ∈ is, s.Knows i) :
    Amounts env s'.extents ρ is ts x := by
  have same := Valuation.runs_grows grows (fun i hi => (known i hi).known) ρ
  exact ⟨fun hσ => h.defined (same ▸ hσ), by rw [same]; exact h.value⟩

end Amounts

end Expr

end FormCompiler
