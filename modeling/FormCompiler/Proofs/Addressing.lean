import FormCompiler.Proofs.Computations
import FormCompiler.Proofs.Execution
import FormCompiler.Proofs.Rational

/-!
# Accesses by offset and strides

An access addresses a named tensor, along each dimension, at an offset plus positions times strides. Fixed positions go into
the offset. Whether the access stays inside the tensor is tested at one place only, where every index stands at its last
position; that decides for all places if nothing counts downwards.
-/

namespace FormCompiler

open FormCompiler.Expr List

/-- Every index stands at its last position. -/
def Session.last (s : Session) : Valuation := fun i => (s.extents i).getD 0 - 1

namespace Build

variable {K : Type} {s : Session} {I : Session → Prop} {E : Error → Prop}

/-- The slot is fixed, or a running index whose extent is known. -/
def Placed (s : Session) : Slot (Expr K) → Prop
  | .fixed _ => True
  | .free i => ∃ n, s.extents i = some n
  | .runtime _ => False

/-- The terms of one dimension, with the fixed positions in the offset. -/
def gathered (d : Int × List (Slot (Expr K) × Stride)) : DimAccess where
  offset := d.1 + (d.2.map fun t => t.1.fixed?.getD 0 * t.2.value).sum
  terms := d.2.filterMap fun t => t.1.index?.map (·, t.2)

/-- With every index at its last position, no dimension is exceeded. -/
def Admitted (s : Session) (shape : Shape) (dims : List (Int × List (Slot (Expr K) × Stride))) : Prop :=
  Forall₂ (fun (n : Extent) d => ∀ m, n = some m → (gathered d).at s.last < m) shape dims

/-- The reasons to refuse an access: a slot cannot be placed, or a dimension is exceeded. -/
def Refuses (s : Session) (shape : Shape) (dims : List (Int × List (Slot (Expr K) × Stride))) (e : Error) : Prop :=
  e.Plain ∧ (shape.length = dims.length → (∀ d ∈ dims, ∀ t ∈ d.2, Placed s t.1) →
    (∃ offset text n, e = .beyondDimension offset text n) ∧ ¬ Admitted s shape dims)

theorem meets_gatherTerms (offset : Int) (terms : List (Slot (Expr K) × Stride)) :
    Meets (· = s) (fun e => e.Plain ∧ ¬ ∀ t ∈ terms, Placed s t.1) (gatherTerms offset terms) fun g =>
      (∀ t ∈ terms, Placed s t.1) ∧ DimAccess.mk g.1 g.2.1 = gathered (offset, terms) ∧
        g.1 + g.2.2 = (gathered (offset, terms)).at s.last := by
  unfold gatherTerms
  -- the terms met so far are gathered
  refine (meets_forIn (P := fun rest (st : Int × Array (Index × Stride) × Int) => ∃ met, met ++ rest = terms ∧
      (∀ t ∈ met, Placed s t.1) ∧ DimAccess.mk st.1 st.2.1.toList = gathered (offset, met) ∧
        st.1 + st.2.2 = (gathered (offset, met)).at s.last) (fun t rest st inv => ?_) ?_).bind fun st inv => ?_
  · obtain ⟨met, rfl, placed, same, reach⟩ := inv
    obtain ⟨slot, stride⟩ := t
    have here : (slot, stride) ∈ met ++ (slot, stride) :: rest := by simp
    obtain ⟨offset', terms'⟩ := DimAccess.mk.inj same
    cases slot with
    | fixed n =>
      refine meets_pure ⟨_, rfl, met ++ [(.fixed n, stride)], by simp, ?_, ?_, ?_⟩
      · simpa [Placed, or_imp, forall_and] using placed
      · simp [gathered, offset', terms', Slot.fixed?, Slot.index?, add_assoc]
      · rw [add_right_comm, reach]
        simp [gathered, DimAccess.at, Slot.fixed?, Slot.index?]
        ring
    | free i =>
      refine meets_extent.bind fun n known => ?_
      obtain ⟨_, rfl, known⟩ := known
      cases n with
      | none =>
        refine meets_throw ⟨rfl, fun all => ?_⟩
        obtain ⟨n, hn⟩ := all _ here
        cases known.trans hn
      | some n =>
        refine meets_pure ⟨_, rfl, met ++ [(.free i, stride)], by simp, ?_, ?_, ?_⟩
        · intro t ht
          obtain ht | rfl := mem_append.1 ht |>.imp id mem_singleton.1
          · exact placed t ht
          · exact ⟨n, known.symm⟩
        · simp [gathered, offset', terms', Slot.fixed?, Slot.index?]
        · rw [← add_assoc, reach]
          simp [gathered, DimAccess.at, Slot.fixed?, Slot.index?, Session.last, ← known, add_assoc]
    | runtime r => exact meets_throw ⟨trivial, fun all => all _ here⟩
  · exact ⟨[], rfl, by simp, by simp [gathered], by simp [gathered, DimAccess.at]⟩
  · obtain ⟨met, all, inv⟩ := inv
    obtain rfl : met = terms := (append_nil met).symm.trans all
    exact meets_pure inv

theorem meets_termsText {terms : List (Slot (Expr K) × Stride)} : Meets I E (termsText terms) fun _ => True := by
  have name (i : Index) : Meets I E (indexText i) fun _ => True := by
    refine meets_info.bind fun known _ => ?_
    cases known.name <;> exact meets_pure trivial
  refine (meets_mapM (R := fun _ => True) fun t _ => ?_).bind fun _ _ => meets_pure trivial
  obtain ⟨_ | i | _, _⟩ := t
  · exact meets_pure trivial
  · exact (name i).bind fun _ _ => meets_pure trivial
  · exact meets_pure trivial

/-- An access leaves the session as it is. It is made of the gathered terms, unless a slot cannot be placed or the last positions
exceed a dimension. -/
theorem meets_access (name : String) (shape : Shape) (dims : List (Int × List (Slot (Expr K) × Stride))) :
    Meets (· = s) (Refuses s shape dims) (access (.var name shape) dims) fun r =>
      (∀ d ∈ dims, ∀ t ∈ d.2, Placed s t.1) ∧ Admitted s shape dims ∧ r = .access name shape (dims.map gathered) := by
  unfold access
  refine Meets.bind (Q := fun _ => shape.length = dims.length) ?_ fun _ rank => ?_
  · exact meets_ite (fun same => meets_pure (eq_of_beq same)) fun differ =>
      meets_throw ⟨rfl, fun same => absurd (beq_iff_eq.2 same) differ⟩
  refine (meets_mapM_forall₂ (S := fun (p : Extent × Int × List (Slot (Expr K) × Stride)) g => g = gathered p.2 ∧
    (∀ t ∈ p.2.2, Placed s t.1) ∧ ∀ m, p.1 = some m → (gathered p.2).at s.last < m) fun p hp => ?_).bind fun ds hds => meets_pure ?_
  · obtain ⟨n, offset, terms⟩ := p
    have here := (of_mem_zip hp).2
    refine ((meets_gatherTerms offset terms).weaken fun e refused => ?_).bind fun g hg => ?_
    · exact ⟨refused.1, fun _ all => absurd (all _ here) refused.2⟩
    obtain ⟨total, running, last⟩ := g
    obtain ⟨placed, same, reach⟩ := hg
    cases n with
    | none => exact meets_pure ⟨same, placed, nofun⟩
    | some n =>
      refine meets_ite (fun beyond => meets_termsText.bind fun text _ => meets_throw ⟨trivial, fun _ _ => ?_⟩) fun below => ?_
      · refine ⟨⟨offset, text, n, rfl⟩, fun admitted => ?_⟩
        exact absurd ((forall₂_iff_zip.1 admitted).2 hp n rfl) (reach ▸ not_lt.2 beyond)
      · refine meets_pure ⟨same, placed, fun m hm => ?_⟩
        cases hm
        exact reach ▸ not_le.1 below
  · have dims' : (shape.zip dims).map Prod.snd = dims := map_snd_zip rank.ge
    refine ⟨fun d hd => ?_, ?_, ?_⟩
    · rw [← dims'] at hd
      obtain ⟨p, hp, rfl⟩ := mem_map.1 hd
      obtain ⟨g, -, here⟩ := exists_of_forall₂ hds hp
      exact here.2.1
    · refine forall₂_iff_zip.2 ⟨rank, fun hp => ?_⟩
      obtain ⟨g, -, here⟩ := exists_of_forall₂ hds hp
      exact here.2.2
    · rw [← dims', map_map]
      exact congrArg _ (forall₂_eq_eq_eq ▸ forall₂_map_right_iff.2 (hds.flip.imp fun _ _ h => h.1))

/-! ## Places inside the tensor -/

variable [Scalar K] [Field K]

/-- The position that terms with slots address along one dimension. -/
def termsAt (env : Environment K) (ρ : Valuation) (d : Int × List (Slot (Expr K) × Stride)) : Int :=
  d.1 + (d.2.map fun t => Expr.position env ρ t.1 * t.2.value).sum

variable {d : Int × List (Slot (Expr K) × Stride)}

theorem at_gathered (placed : ∀ t ∈ d.2, Placed s t.1) (env : Environment K) (ρ : Valuation) :
    (gathered d).at ρ = termsAt env ρ d := by
  obtain ⟨offset, terms⟩ := d
  simp only [gathered, DimAccess.at, termsAt, add_assoc]
  congr 1
  induction terms with
  | nil => rfl
  | cons t terms ih =>
    obtain ⟨here, later⟩ := forall_mem_cons.1 placed
    obtain ⟨n | i | r, stride⟩ := t
    · rw [map_cons, sum_cons, map_cons, sum_cons, ← ih later, ← add_assoc]
      rfl
    · rw [map_cons, sum_cons, map_cons, sum_cons, ← ih later, add_left_comm, filterMap_cons]
      simp [Slot.fixed?, Slot.index?, Expr.position]
    · exact here.elim

omit [Scalar K] [Field K] in
theorem mem_terms_gathered {t : Index × Stride} : t ∈ (gathered d).terms ↔ (.free t.1, t.2) ∈ d.2 := by
  refine mem_filterMap.trans ⟨?_, fun h => ⟨_, h, rfl⟩⟩
  rintro ⟨⟨_ | i | _, stride⟩, h, run⟩
  · cases run
  · cases run
    exact h
  · cases run

/-- The running indices of the terms. -/
def runningOf (dims : List (Int × List (Slot (Expr K) × Stride))) : List Index := dims.flatMap fun d => (gathered d).terms.map Prod.fst

/-- The computation is refused because a dimension is exceeded. -/
def Exceeds (s : Session) (x : Build (Expr K)) : Prop := ∃ offset text n s', x.run.run s = (.error (.beyondDimension offset text n), s')

variable {shape : Shape} {dims : List (Int × List (Slot (Expr K) × Stride))}

section

omit [Scalar K] [Field K]

theorem inside_last (placed : ∀ d ∈ dims, ∀ t ∈ d.2, Placed s t.1) (pos : ∀ i ∈ runningOf dims, ∀ n, s.extents i = some n → 0 < n) :
    s.last.Inside s.extents (runningOf dims) := by
  intro i hi
  obtain ⟨d, hd, hi'⟩ := mem_flatMap.1 hi
  obtain ⟨t, ht, rfl⟩ := mem_map.1 hi'
  obtain ⟨n, known⟩ : ∃ n, s.extents t.1 = some n := placed d hd _ (mem_terms_gathered.1 ht)
  have := pos _ hi n known
  simp only [Session.last, known, Option.getD_some, Option.some.injEq, forall_eq']
  omega

/-- Where no stride is negative, the last positions reach farthest. -/
theorem at_le_last {ρ : Valuation} (hd : d ∈ dims) (placed : ∀ t ∈ d.2, Placed s t.1)
    (upward : ∀ t ∈ (gathered d).terms, 0 ≤ t.2.value) (inside : ρ.Inside s.extents (runningOf dims)) :
    (gathered d).at ρ ≤ (gathered d).at s.last := by
  refine Int.add_le_add_left (sum_le_sum fun t ht => mul_le_mul_of_nonneg_right ?_ (upward t ht)) _
  obtain ⟨n, known⟩ : ∃ n, s.extents t.1 = some n := placed _ (mem_terms_gathered.1 ht)
  have := (inside t.1 (mem_flatMap.2 ⟨d, hd, mem_map_of_mem ht⟩)).2 n known
  simp only [Session.last, known, Option.getD_some]
  omega

theorem access_cases (name : String) (rank : shape.length = dims.length) (placed : ∀ d ∈ dims, ∀ t ∈ d.2, Placed s t.1) :
    Admitted s shape dims ∧ (access (.var name shape) dims).run.run s = (.ok (.access name shape (dims.map gathered)), s) ∨
      ¬ Admitted s shape dims ∧ Exceeds s (access (.var name shape) dims) := by
  cases run : (access (.var name shape) dims).run.run s with
  | mk r s' =>
    have here := meets_access name shape dims s r s' rfl run
    cases r with
    | ok r =>
      obtain ⟨rfl, -, admitted, rfl⟩ := here
      exact .inl ⟨admitted, rfl⟩
    | error e =>
      obtain ⟨⟨offset, text, n, rfl⟩, not⟩ := here.2 rank placed
      exact .inr ⟨not, offset, text, n, s', run⟩

theorem exceeds_iff_not_admitted (name : String) (rank : shape.length = dims.length) (placed : ∀ d ∈ dims, ∀ t ∈ d.2, Placed s t.1) :
    Exceeds s (access (.var name shape) dims) ↔ ¬ Admitted s shape dims := by
  obtain ⟨admitted, run⟩ | ⟨not, exceeds⟩ := access_cases name rank placed
  · refine iff_of_false ?_ (not_not_intro admitted)
    rintro ⟨offset, text, n, s', run'⟩
    cases run.symm.trans run'
  · exact iff_of_true exceeds not

end

theorem admitted_iff (env : Environment K) (rank : shape.length = dims.length) (placed : ∀ d ∈ dims, ∀ t ∈ d.2, Placed s t.1) :
    Admitted s shape dims ↔ ∀ p ∈ shape.zip dims, ∀ n, p.1 = some n → termsAt env s.last p.2 < n := by
  refine (forall₂_iff_zip.trans (and_iff_right rank)).trans ⟨fun h p hp => ?_, fun h n d hp => ?_⟩
  · rw [← at_gathered (placed p.2 (of_mem_zip hp).2)]
    exact h hp
  · rw [at_gathered (placed d (of_mem_zip hp).2) env]
    exact h (n, d) hp

theorem within_iff (env : Environment K) (ρ : Valuation) (rank : shape.length = dims.length) : within shape (dims.map (termsAt env ρ)) = true ↔
    ∀ p ∈ shape.zip dims, 0 ≤ termsAt env ρ p.2 ∧ ∀ n, p.1 = some n → termsAt env ρ p.2 < n := by
  rw [within_iff_forall₂, forall₂_map_right_iff, forall₂_iff_zip, and_iff_right rank]
  exact ⟨fun h p hp => h hp, fun h n d hp => h (n, d) hp⟩

/-- An access either is made of the gathered terms, or is refused because, with every index at its last position, a dimension is
exceeded. So it is refused only if some places are outside the tensor, and just then if no offset and no stride is negative. -/
theorem access_exceeds_iff (env : Environment K) (name : String) (rank : shape.length = dims.length) (placed : ∀ d ∈ dims, ∀ t ∈ d.2, Placed s t.1)
    (pos : ∀ i ∈ runningOf dims, ∀ n, s.extents i = some n → 0 < n) :
    (Exceeds s (access (.var name shape) dims) ↔ ∃ p ∈ shape.zip dims, ∃ n, p.1 = some n ∧ n ≤ termsAt env s.last p.2) ∧
    (¬ Exceeds s (access (.var name shape) dims) →
      (access (.var name shape) dims).run.run s = (.ok (.access name shape (dims.map gathered)), s)) ∧
    (Exceeds s (access (.var name shape) dims) →
      ∃ ρ, ρ.Inside s.extents (runningOf dims) ∧ within shape (dims.map (termsAt env ρ)) = false) ∧
    ((∀ d ∈ dims, 0 ≤ (gathered d).offset ∧ ∀ t ∈ (gathered d).terms, 0 ≤ t.2.value) →
      (Exceeds s (access (.var name shape) dims) ↔
        ∃ ρ, ρ.Inside s.extents (runningOf dims) ∧ within shape (dims.map (termsAt env ρ)) = false)) := by
  have refused : Exceeds s (access (.var name shape) dims) ↔ ¬ Admitted s shape dims := exceeds_iff_not_admitted name rank placed
  have outside (not : ¬ Admitted s shape dims) : within shape (dims.map (termsAt env s.last)) = false :=
    Bool.eq_false_iff.2 fun inside => not ((admitted_iff env rank placed).2 fun p hp => ((within_iff env _ rank).1 inside p hp).2)
  refine ⟨?_, fun not => ?_, fun h => ⟨s.last, inside_last placed pos, outside (refused.1 h)⟩, fun upward =>
    ⟨fun h => ⟨s.last, inside_last placed pos, outside (refused.1 h)⟩, ?_⟩⟩
  · rw [refused, admitted_iff env rank placed]
    push Not
    rfl
  · exact ((access_cases name rank placed).resolve_right fun h => not h.2).2
  · rintro ⟨ρ, inside, out⟩
    refine refused.2 fun admitted => Bool.eq_false_iff.1 out ((within_iff env ρ rank).2 fun p hp => ?_)
    have hd := (of_mem_zip hp).2
    rw [← at_gathered (placed p.2 hd)]
    refine ⟨?_, fun n hn => ?_⟩
    · refine add_nonneg (upward p.2 hd).1 (sum_nonneg ?_)
      rintro x hx
      obtain ⟨t, ht, rfl⟩ := mem_map.1 hx
      exact mul_nonneg (inside t.1 (mem_flatMap.2 ⟨p.2, hd, mem_map_of_mem ht⟩)).1 ((upward p.2 hd).2 t ht)
    · refine (at_le_last hd (placed p.2 hd) (upward p.2 hd).2 inside).trans_lt ?_
      rw [at_gathered (placed p.2 hd) env]
      exact (admitted_iff env rank placed).1 admitted p hp n hn

/-- One index, of extent two. -/
def twoPlaces : Session := ⟨#[⟨none, some 2⟩], 1⟩

/-- One dimension, addressed by an index and a fixed position. -/
def strided (step : Int) : List (Int × List (Slot (Expr ℚ) × Stride)) := [(1, [(.free ⟨0⟩, ⟨step, false⟩), (.fixed 1, ⟨1, false⟩)])]

/-- With steps of two, the last position is beyond four entries. -/
theorem access_exceeds_strided : Exceeds twoPlaces (access (.var "x" [some 4]) (strided 2)) ∧
    ∃ ρ : Valuation, ρ.Inside twoPlaces.extents (runningOf (strided 2)) ∧
      within [some 4] ((strided 2).map (termsAt ⟨fun _ _ _ => 0, fun _ _ => 0, fun _ _ => 0, fun _ => 0⟩ ρ)) = false := by
  have placed : ∀ d ∈ strided 2, ∀ t ∈ d.2, Placed twoPlaces t.1 :=
    forall_mem_singleton.2 (forall_mem_cons.2 ⟨⟨2, rfl⟩, forall_mem_singleton.2 trivial⟩)
  have pos : ∀ i ∈ runningOf (strided 2), ∀ n, twoPlaces.extents i = some n → 0 < n := by
    simp [runningOf, strided, gathered, Slot.index?, twoPlaces, Session.extents]
  obtain ⟨iff, -, -, upward⟩ := access_exceeds_iff ⟨fun _ _ _ => 0, fun _ _ => 0, fun _ _ => 0, fun _ => 0⟩ "x"
    (show ([some 4] : Shape).length = _ from rfl) placed pos
  have exceeds := iff.2 ⟨_, mem_singleton_self _, 4, rfl, by simp [termsAt, Expr.position, Session.last, twoPlaces, Session.extents]⟩
  exact ⟨exceeds, (upward (forall_mem_singleton.2 ⟨by decide, forall_mem_singleton.2 (by decide)⟩)).1 exceeds⟩

/-- An access that counts downwards is made although it starts behind the last entry. -/
theorem access_starts_outside : (access (.var "x" [some 2]) (strided (-1))).run.run twoPlaces =
      (.ok (.access "x" [some 2] [⟨2, [(⟨0⟩, ⟨-1, false⟩)]⟩]), twoPlaces) ∧
    within [some 2] ((strided (-1)).map (termsAt ⟨fun _ _ _ => 0, fun _ _ => 0, fun _ _ => 0, fun _ => 0⟩ fun _ => 0)) = false :=
  ⟨rfl, by simp [strided, termsAt, Expr.position, within]⟩

end Build

end FormCompiler
