import FormCompiler.Proofs.Sessions
import FormCompiler.Proofs.Sizes

/-!
# Slices of tensors

Tensors are taken apart at new indices and put together over them. New indices take the extents of the dimensions in which
they first stand. A list of tensors has one more dimension, and a slice along it is the tensor at that place of the list.
-/

namespace FormCompiler

open FormCompiler.Expr List

namespace Session

variable {s s' : Session}

theorem Has.of_extent {i : Index} {n : Int} (h : s.extents i = some n) : s.Has i := by
  by_contra out
  rw [Has, Nat.not_lt] at out
  simp [extents, Array.getD_eq_getD_getElem?, Array.getElem?_eq_none out] at h

theorem Grows.mapExtents (h : Grows s s') {is : List Index} {ns : List Nat} (known : is.map s.extents = Shape.ofNats ns) :
    is.map s'.extents = Shape.ofNats ns := by
  rw [← known]
  refine map_congr_left fun i hi => ?_
  have mem : s.extents i ∈ Shape.ofNats ns := known ▸ mem_map_of_mem hi
  obtain ⟨n, -, same⟩ := mem_map.1 mem
  rw [← same, h.extent same.symm]

end Session

namespace Build

variable {s : Session}

/-! ## New indices -/

/-- Some new indices: they are distinct, and the session did not have them. -/
structure NewIndices (s s' : Session) (n : Nat) (is : List Index) : Prop where
  length : is.length = n
  nodup : is.Nodup
  new {i : Index} : i ∈ is → ¬ s.Has i
  has {i : Index} : i ∈ is → s'.Has i

theorem leads_freshIndexOf (n : Extent) : Leads s (freshIndex n) fun j s' => ¬ s.Has j ∧ s'.Has j := by
  intro j s' run
  cases run
  have size : (s.indices.push ⟨none, n⟩).size = s.indices.size + 1 := Array.size_push _
  refine ⟨⟨size ▸ Nat.le_succ _, fun {i m} known => ?_⟩, Nat.lt_irrefl _, Nat.lt_of_lt_of_eq (Nat.lt_succ_self _) size.symm⟩
  have old : i.number ≠ s.indices.size := (Session.Has.of_extent known).ne
  rw [Session.extents, Array.getD_eq_getD_getElem?] at known ⊢
  rwa [Array.getElem?_push, if_neg old]

theorem leads_freshIndices (extents : Shape) :
    Leads s (freshIndices extents) fun is s' => NewIndices s s' extents.length is := by
  unfold freshIndices
  induction extents generalizing s with
  | nil => exact leads_pure ⟨rfl, .nil, nofun, nofun⟩
  | cons n extents ih =>
    rw [mapM_cons]
    refine (leads_freshIndexOf n).bind fun j s₁ grows hj => ih.bind fun is s₂ grows' his => leads_pure ?_
    refine ⟨congrArg (· + 1) his.length, nodup_cons.2 ⟨fun mem => his.new mem hj.2, his.nodup⟩, fun hi => ?_, fun hi => ?_⟩
    · rcases mem_cons.1 hi with rfl | hi
      · exact hj.1
      · exact fun old => his.new hi (grows.has old)
    · rcases mem_cons.1 hi with rfl | hi
      · exact grows'.has hj.2
      · exact his.has hi

/-! ## Indices that take extents -/

variable {K : Type} [Scalar K] {slots : List (Slot (Expr K))}

/-- A slot that fits a dimension, or an index that may still take its extent. -/
def SlotTakes (s : Session) (slot : Slot (Expr K)) (n : Extent) : Prop :=
  SlotFits s.extents slot n ∨ ∃ i m, slot = .free i ∧ n = some m ∧ s.Has i

variable {slot : Slot (Expr K)} {shape : Shape} {ns inner : List Nat} {ρ : Valuation} {idx : List Int}

theorem SlotTakes.mono {s s' : Session} (grows : s.Grows s') {n : Extent} (h : SlotTakes s slot n) : SlotTakes s' slot n := by
  rcases h with fits | ⟨i, m, rfl, rfl, has⟩
  · exact .inl (grows.slotFits fits)
  · exact .inr ⟨i, m, rfl, rfl, grows.has has⟩

theorem leads_setExtents (h : Forall₂ (SlotTakes s) slots shape) :
    Leads s (setExtents slots shape) fun _ s' => Forall₂ (SlotFits s'.extents) slots shape := by
  induction slots generalizing s shape with
  | nil =>
    obtain _ | _ := h
    exact leads_pure .nil
  | cons slot slots ih =>
    obtain _ | @⟨_, n, _, shape, first, rest⟩ := h
    refine Leads.bind (Q := fun _ s' => SlotFits s'.extents slot n) ?_ fun _ s₁ grows fits => ?_
    · rcases first with fits | ⟨i, m, rfl, rfl, has⟩
      · cases slot with
        | free i =>
          refine (ensures_setExtent fits).leads.mono fun _ s' _ same => ?_
          rwa [Session.extents_congr same.1]
        | fixed n => exact leads_pure fits
        | runtime r => exact leads_pure fits
      · exact (leads_setExtent has).mono fun _ _ _ known => .inr known
    · exact (ih (rest.imp fun _ _ => SlotTakes.mono grows)).mono fun _ s₂ grows' below => .cons (grows'.slotFits fits) below

variable [Field K] [Exact K] {w : Index → Prop} {t : Expr K}

/-- An entry of a tensor, where indices may take the extents of their dimensions. -/
theorem leads_indexed (ht : t.WellFormed s.extents) (takes : Forall₂ (SlotTakes s) slots t.shape)
    (runtime : ∀ {r : Expr K}, .runtime r ∈ slots → r.WellFormed s.extents) :
    Leads s (indexed t slots) fun r s' =>
      SlotsFit s'.extents slots t.shape ∧ Refines w s'.extents (.indexed t slots) r := by
  refine ensures_require.leads.bind fun _ s₁ grows _ => ?_
  refine (leads_setExtents (takes.imp fun _ _ => SlotTakes.mono grows)).bind fun _ s₂ grows' dims => ?_
  have fits : SlotsFit s₂.extents slots t.shape := ⟨dims, fun hr => (grows.trans grows').wellFormed (runtime hr)⟩
  refine (ensures_entry (w := w) ((grows.trans grows').wellFormed ht) fits).leads.mono fun r s₃ _ hr => ?_
  rw [Session.extents_congr hr.1]
  exact ⟨fits, hr.2⟩

variable {extent : Index → Extent} {is : List Index} {es : List (Expr K)}

omit [Field K] [Exact K] in
/-- Indices at which a tensor of known extents is read have its extents. -/
theorem extents_of_slotFits
    (h : Forall₂ (SlotFits (K := K) extent) (is.map .free) (Shape.ofNats ns)) : is.map extent = Shape.ofNats ns := by
  rw [← forall₂_eq_eq_eq, forall₂_map_left_iff]
  rw [Shape.ofNats, forall₂_map_left_iff, forall₂_map_right_iff] at h
  rw [Shape.ofNats, forall₂_map_right_iff]
  exact h.imp fun i n fits => fits.resolve_left (Option.some_ne_none _)

theorem leads_indexedAt (ht : t.WellFormed s.extents) (shape : t.shape = Shape.ofNats ns)
    (length : is.length = ns.length) (has : ∀ i ∈ is, s.Has i) :
    Leads s (indexedAt t is) fun r s' =>
      is.map s'.extents = Shape.ofNats ns ∧ Refines w s'.extents (.indexed t (is.map .free)) r := by
  have takes : Forall₂ (SlotTakes (K := K) s) (is.map .free) t.shape := by
    rw [shape, Shape.ofNats, forall₂_map_left_iff, forall₂_map_right_iff]
    exact forall₂_iff_zip.2 ⟨length, fun {i n} mem => .inr ⟨i, _, rfl, rfl, has i (of_mem_zip mem).1⟩⟩
  refine (leads_indexed ht takes fun hr => ?_).mono fun r s' _ hr => ⟨extents_of_slotFits (shape ▸ hr.1.dims), hr.2⟩
  obtain ⟨i, -, eq⟩ := mem_map.1 hr
  cases eq

omit [Scalar K] [Field K] [Exact K] in
theorem ensures_setExtent_known {i : Index} {m : Int} (known : extent i = some m) (n : Extent) :
    Ensures extent (setExtent i n) fun _ => n = some m := by
  intro s hs a s' run
  rw [run_setExtent, hs] at run
  simp only [known] at run
  split at run
  · rename_i same
    cases run
    exact ⟨rfl, eq_of_beq same⟩
  · cases run

omit [Scalar K] [Field K] [Exact K] in
/-- Indices of known extents stand only in dimensions of those. -/
theorem ensures_setExtents_known (known : is.map extent = Shape.ofNats ns) (length : shape.length = is.length) :
    Ensures extent (setExtents (is.map (Slot.free (α := Expr K))) shape) fun _ => shape = Shape.ofNats ns := by
  induction is generalizing ns shape with
  | nil =>
    obtain rfl := length_eq_zero_iff.1 length
    exact ensures_pure known
  | cons i is ih =>
    cases shape with
    | nil => cases length
    | cons n shape =>
      cases ns with
      | nil => cases known
      | cons m ns =>
        obtain ⟨first, rest⟩ := cons.inj known
        refine Ensures.bind (Q := fun _ => n = some (Int.ofNat m)) (ensures_setExtent_known first n) fun _ same => ?_
        refine (ih rest (Nat.succ.inj length)).mono fun _ same' => ?_
        rw [same, same']
        rfl

/-- Read at indices of known extents, a tensor has these extents. -/
theorem ensures_indexed_known (known : is.map extent = Shape.ofNats ns) (ht : t.WellFormed extent) :
    Ensures extent (indexed t (is.map .free)) fun r => t.shape = Shape.ofNats ns ∧ Refines w extent (.indexed t (is.map .free)) r := by
  refine ensures_require.bind fun _ rank => ?_
  refine (ensures_setExtents_known known (by simpa using rank)).bind fun _ shape => ?_
  refine (ensures_entry ht ⟨?_, fun hr => ?_⟩).mono fun r hr => ⟨shape, hr⟩
  · rw [shape, ← known, forall₂_map_left_iff, forall₂_map_right_iff]
    exact forall₂_same.2 fun i _ => .inr rfl
  · obtain ⟨i, -, eq⟩ := mem_map.1 hr
    cases eq

/-! ## Tensors over indices of known extents -/

omit [Exact K] in
/-- A tensor over indices of known extents is made only if none of them is empty. -/
theorem ensures_tensorOver_known {body : Expr K} (hb : body.WellFormed extent) (known : is.map extent = Shape.ofNats ns) :
    Ensures extent (tensorOver body is) fun r => body.shape = [] ∧ ∃ bs, bs.map Prod.fst = is ∧
      (bs.map fun b => some b.2) = Shape.ofNats ns ∧ Refines w extent (.componentTensor body bs) r := by
  by_cases scalar : body.shape = []
  swap
  · exact ensures_requireScalar.bind fun _ h => absurd h scalar
  have extents : ∀ i ∈ is, ∃ n ∈ ns, extent i = some (Int.ofNat n) ∧ Bounds.sizes extent i = n := by
    intro i hi
    have mem : extent i ∈ Shape.ofNats ns := known ▸ mem_map_of_mem hi
    obtain ⟨n, hn, same⟩ := mem_map.1 mem
    exact ⟨n, hn, same.symm, by rw [Bounds.sizes, ← same]; rfl⟩
  have dims : ((bindersOf (Bounds.sizes extent) is).map fun b => some b.2) = Shape.ofNats ns := by
    rw [← known, bindersOf, map_map]
    refine map_congr_left fun i hi => ?_
    obtain ⟨n, -, ext, size⟩ := extents i hi
    rw [Function.comp_apply, ext, size]
    rfl
  by_cases full : ∀ n ∈ ns, n ≠ 0
  · have bounds : Bounds extent (bindersOf (Bounds.sizes extent) is) := by
      constructor
      · intro b hb
        obtain ⟨i, hi, rfl⟩ := mem_map.1 hb
        obtain ⟨n, -, ext, size⟩ := extents i hi
        rw [ext, size]
        rfl
      · intro b hb
        obtain ⟨i, hi, rfl⟩ := mem_map.1 hb
        obtain ⟨n, hn, -, size⟩ := extents i hi
        rw [size]
        exact Int.natCast_pos.2 (Nat.pos_of_ne_zero (full n hn))
    have made := ensures_tensorOver (w := w) hb bounds
    rw [map_fst_bindersOf] at made
    exact made.mono fun r hr => ⟨scalar, _, map_fst_bindersOf .., dims, hr⟩
  · -- an empty extent is refused
    obtain ⟨n, mem, zero⟩ : ∃ n ∈ ns, n = 0 := by simpa using full
    subst zero
    unfold tensorOver componentTensor
    refine ensures_requireScalar.bind fun _ _ => ensures_ite (fun none => ?_) fun _ => ?_
    · obtain rfl : is = [] := by simpa using none
      obtain rfl : ns = [] := by simpa [Shape.ofNats] using known.symm
      cases mem
    refine (succeeds_runningIndices is).ensures.bind fun js same => ?_
    subst same
    refine (ensures_mapM (S := fun i n => n = extent i) fun i _ => ensures_extent).bind fun shape hshape => ?_
    obtain rfl : shape = Shape.ofNats ns := by
      rw [← known, ← forall₂_eq_eq_eq, forall₂_map_right_iff]
      exact hshape.flip
    refine ensures_require.bind fun _ closed => absurd closed ?_
    have empty : Shape.hasOpenOrEmpty (Shape.ofNats ns) = true :=
      any_eq_true.2 ⟨some 0, mem_map.2 ⟨0, mem, rfl⟩, rfl⟩
    simp [empty]

/-! ## Lists of tensors -/

/-- What a list of tensors is made of: the entries of the tensors, one tensor after the other. -/
structure Rows (w : Index → Prop) (extent : Index → Extent) (es : List (Expr K)) (inner : List Nat) (entries : List (Expr K)) : Prop where
  shape {e : Expr K} : e ∈ es → e.shape = Shape.ofNats inner
  fits {x : Expr K} : x ∈ entries → x.WellFormed extent
  scalar {x : Expr K} : x ∈ entries → x.shape = []
  free {x : Expr K} : x ∈ entries → ∃ e ∈ es, x.freeIndices ⊆ e.freeIndices
  length : entries.length = es.length * count inner
  entry {k : Nat} {e : Expr K} {idx : List Nat} : es[k]? = some e → Forall₂ (· < ·) idx inner →
    ∃ x, entries[k * count inner + position inner idx]? = some x ∧
      Refines w extent (.indexed e (idx.map fun n => .fixed (Int.ofNat n))) x

omit [Exact K] in
theorem rows_of_scalars (fits : ∀ e ∈ es, e.WellFormed extent) (scalars : ∀ e ∈ es, e.shape = []) : Rows w extent es [] es where
  shape he := scalars _ he
  fits hx := fits _ hx
  scalar hx := scalars _ hx
  free hx := ⟨_, hx, Subset.refl _⟩
  length := (Nat.mul_one _).symm
  entry {k e idx} he inside := by
    obtain _ | _ := inside
    have mem := mem_of_getElem? he
    refine ⟨e, by simpa [count, position] using he, ?_⟩
    refine .ofScalar rfl (fits e mem) (scalars e mem) (fun i hi => mem_freeIndices_indexed.2 (.inr hi))
      (.child mem_cons_self) fun env ρ defined => ?_
    exact ⟨defined_indexed.1 defined, (value_indexed env ρ [] e []).symm⟩

omit [Exact K] in
theorem rows_of_tensors {rows : List (List (Expr K))} (shape : ∀ e ∈ es, e.shape = Shape.ofNats inner)
    (h : Forall₂ (fun e row => Forall₂ (fun (idx : List Nat) x =>
      Refines w extent (.indexed e (idx.map fun n => .fixed (Int.ofNat n))) x) (tuples inner) row) es rows) :
    Rows w extent es inner rows.flatten := by
  have each : ∀ x ∈ rows.flatten, ∃ e ∈ es, ∃ idx : List Nat,
      Refines w extent (.indexed e (idx.map fun n => .fixed (Int.ofNat n))) x := by
    intro x hx
    obtain ⟨row, hrow, hx⟩ := mem_flatten.1 hx
    obtain ⟨e, he, row⟩ := exists_of_forall₂ h.flip hrow
    obtain ⟨idx, -, refines⟩ := exists_of_forall₂ row.flip hx
    exact ⟨e, he, idx, refines⟩
  have length : ∀ row ∈ rows, row.length = count inner := by
    intro row hrow
    obtain ⟨e, -, row⟩ := exists_of_forall₂ h.flip hrow
    rw [← row.length_eq, length_tuples]
  refine ⟨fun he => shape _ he, fun hx => ?_, fun hx => ?_, fun hx => ?_, ?_, fun {k e idx} he inside => ?_⟩
  · obtain ⟨e, he, idx, refines⟩ := each _ hx
    exact refines.fits
  · obtain ⟨e, he, idx, refines⟩ := each _ hx
    exact refines.shape
  · obtain ⟨e, he, idx, refines⟩ := each _ hx
    refine ⟨e, he, fun i hi => ?_⟩
    exact (mem_freeIndices_indexed.1 (refines.free hi)).resolve_left (by simp)
  · rw [length_flatten, h.length_eq]
    rw [map_congr_left length]
    simp
  · rw [getElem?_flatten length (position_lt inside)]
    rcases getElem?_of_forall₂ h k with ⟨none, -⟩ | ⟨e', row, some, there, related⟩
    · rw [none] at he
      cases he
    · obtain rfl : e' = e := Option.some.inj (some.symm.trans he)
      rcases getElem?_of_forall₂ related (position inner idx) with ⟨none, -⟩ | ⟨idx', x, some, found, refines⟩
      · rw [getElem?_tuples inside] at none
        cases none
      · rw [getElem?_tuples inside] at some
        cases some
        exact ⟨x, by rw [there, Option.bind_some, found], refines⟩

/-- A list of tensors is the list of their entries. -/
theorem ensures_listTensor_rows (fits : ∀ e ∈ es, e.WellFormed extent) :
    Ensures extent (listTensor [es.length] es) fun r => ∃ inner entries, Rows w extent es inner entries ∧
      Refines w extent (.listTensor (es.length :: inner) entries) r := by
  have close : ∀ {inner : List Nat} {entries : List (Expr K)}, Rows w extent es inner entries → ∀ shape, shape = es.length :: inner →
      Ensures extent (do
        if entries.isEmpty then throw .malformed
        if entries.all isConstant then literal ⟨shape, (← entries.mapM value).toArray⟩
        else return .listTensor shape entries) fun r => ∃ inner entries, Rows w extent es inner entries ∧
          Refines w extent (.listTensor (es.length :: inner) entries) r := by
    rintro inner entries rows shape rfl
    refine (ensures_closeList (w := w) (fun x hx => rows.fits hx) (fun x hx => rows.scalar hx) ?_).mono fun r hr =>
      ⟨inner, entries, rows, hr⟩
    rw [rows.length, count_cons]
  unfold listTensor
  refine ensures_require.bind fun _ _ => ?_
  cases es with
  | nil => exact ensures_throw
  | cons first rest =>
    refine ensures_require.bind fun _ same => ?_
    have same : ∀ e ∈ first :: rest, e.shape = first.shape := fun e he => eq_of_beq (all_eq_true.1 same e he)
    refine ensures_ite (fun scalar => ?_) fun _ => ?_
    · rw [pure_bind]
      exact close (rows_of_scalars fits fun e he => (same e he).trans (isEmpty_iff.1 scalar)) _ rfl
    cases known : Shape.toNats? first.shape with
    | none =>
      exact Ensures.bind (Q := fun _ => False) ensures_throw fun _ none => none.elim
    | some inner =>
      have shape : ∀ e ∈ first :: rest, e.shape = Shape.ofNats inner := fun e he =>
        (same e he).trans (eq_ofNats_of_toNats? known)
      refine (ensures_mapM fun e he => ensures_mapM fun idx hidx => ensures_indexed (w := w) (fits e he) ⟨?_, ?_⟩).bind
        fun rows hrows => ?_
      · rw [shape e he, Shape.ofNats, forall₂_map_left_iff, forall₂_map_right_iff]
        exact (mem_tuples.1 hidx).imp fun _ _ _ => trivial
      · simp
      · rw [pure_bind]
        exact close (rows_of_tensors shape hrows) _ rfl

omit [Exact K] in
/-- A slice of a list of tensors is the tensor at that place. -/
theorem Rows.slice {entries : List (Expr K)} {r : Expr K}
    (rows : Rows w extent es inner entries) (hr : Expr.Refines w extent (.listTensor (es.length :: inner) entries) r)
    {env : Environment K} {k : Nat} {e : Expr K} (he : es[k]? = some e)
    (inside : within e.shape idx = true) (defined : Expr.Defined env e ρ idx) :
    Expr.Defined env r ρ ((k : Int) :: idx) ∧ r.value env ρ ((k : Int) :: idx) = e.value env ρ idx := by
  rw [rows.shape (mem_of_getElem? he)] at inside
  obtain ⟨ns, rfl, lt⟩ := exists_of_within inside
  obtain ⟨x, found, refines⟩ := rows.entry he lt
  have positions : (ns.map fun n => (.fixed (Int.ofNat n) : Slot (Expr K))).map (Expr.position env ρ) = ns.map Int.ofNat := by
    rw [map_map]
    rfl
  have chosen : Expr.entryAt (es.length :: inner) entries ((k : Int) :: ns.map Int.ofNat) = some x := by
    have below : k < es.length := (List.getElem?_eq_some_iff.1 he).1
    have resolved := resolveAll_ofNats (Forall₂.cons below lt)
    rw [Expr.entryAt]
    refine Option.bind_eq_some_iff.2 ⟨k :: ns, resolved, ?_⟩
    rw [position_cons lt.length_eq]
    exact found
  obtain ⟨here, same⟩ := (refines.carries env ρ).scalar rfl (by rwa [Expr.defined_indexed, positions])
  obtain ⟨there, value⟩ := hr.carries env ρ ((k : Int) :: ns.map Int.ofNat)
    (by simp [Expr.shape, Shape.ofNats, lt.length_eq]) (Expr.defined_listTensor.2 fun c hc => Option.some.inj (chosen.symm.trans hc) ▸ here)
  refine ⟨there, value.trans ?_⟩
  rw [Expr.value_listTensor, chosen]
  rw [Expr.value_indexed, positions] at same
  exact same

/-! ## Tensors over new indices -/

/-- Binders that are distinct stand at the positions at which they are bound. -/
theorem map_bind {bs : List Binder} (nodup : (bs.map Prod.fst).Nodup) (ρ : Valuation)
    (length : idx.length = bs.length) : (bs.map Prod.fst).map (ρ.bind bs idx) = idx := by
  induction bs generalizing ρ idx with
  | nil => exact (length_eq_zero_iff.1 length).symm
  | cons b bs ih =>
    cases idx with
    | nil => cases length
    | cons v vs =>
      obtain ⟨out, nodup⟩ := nodup_cons.1 nodup
      rw [map_cons, map_cons]
      refine congrArg₂ cons ?_ (ih nodup _ (Nat.succ.inj length))
      rw [Valuation.bind, Valuation.bind_of_not_mem out, Valuation.set_self]
      rfl

/-- Valuations that put the indices of a session at the same positions. -/
def AgreeOn (s : Session) (ρ ρ' : Valuation) : Prop := ∀ i, s.Has i → ρ i = ρ' i

omit [Exact K] in
/-- The entries of a tensor over new indices are those of its body, where the new indices stand at the entry and all others
where they were. -/
theorem ensures_tensorOver_new {x : Expr K} (hx : x.WellFormed extent)
    (known : is.map extent = Shape.ofNats inner) (nodup : is.Nodup) (new : ∀ i ∈ is, ¬ s.Has i) :
    Ensures extent (tensorOver x is) fun r => r.WellFormed extent ∧ x.shape = [] ∧ r.shape = Shape.ofNats inner ∧
      ∀ env ρ idx, within (Shape.ofNats inner) idx = true →
        ∃ ρ' : Valuation, is.map ρ' = idx ∧ AgreeOn s ρ' ρ ∧
          (Defined env x ρ' [] → Defined env r ρ idx ∧ r.value env ρ idx = x.value env ρ' []) := by
  refine (ensures_tensorOver_known (w := fun _ => False) hx known).mono fun r ⟨scalar, bs, first, dims, refines⟩ => ?_
  subst first
  refine ⟨refines.fits, scalar, refines.shape.trans dims, fun env ρ idx inside => ⟨ρ.bind bs idx, ?_, fun i hi => ?_, fun defined => ?_⟩⟩
  · refine map_bind nodup ρ ?_
    rw [length_of_within inside, ← dims, length_map]
  · exact Valuation.bind_of_not_mem fun mem => new i mem hi
  · obtain ⟨there, value⟩ := refines.carries env ρ idx (by
      rw [length_of_within inside, ← dims]
      rfl) (defined_componentTensor.2 defined)
    exact ⟨there, value.trans (value_componentTensor ..)⟩

omit [Exact K] in
/-- A slot of a session stands where its indices do. -/
theorem AgreeOn.position {ρ' : Valuation} (agree : AgreeOn s ρ' ρ) {n : Int}
    (fits : SlotsFit s.extents [slot] [some n]) (env : Environment K) : Expr.position env ρ' slot = Expr.position env ρ slot := by
  obtain _ | ⟨here, -⟩ := fits.dims
  refine Expr.position_congr ?_ ?_
  · rintro i rfl
    exact agree i (.of_extent (here.resolve_left nofun))
  · rintro r rfl
    refine Expr.value_congr (fits.runtime mem_cons_self).runtimeClosed [] ?_
    rw [here.1]
    exact fun i hi => absurd hi not_mem_nil

/-! ## Slices along the first dimension -/

/-- The slice of a tensor at a slot. -/
theorem leads_partialIndexed {n : Nat} (ht : t.WellFormed s.extents)
    (shape : t.shape = Shape.ofNats (n :: inner)) (known : ∀ i ∈ t.freeIndices, s.Has i)
    (fits : SlotsFit s.extents [slot] [some (Int.ofNat n)]) :
    Leads s (partialIndexed t [slot]) fun r s' => r.WellFormed s'.extents ∧ r.shape = Shape.ofNats inner ∧
      ∀ env ρ idx, within (Shape.ofNats inner) idx = true →
        Expr.Defined env t ρ (Expr.position env ρ slot :: idx) →
        Expr.Defined env r ρ idx ∧ r.value env ρ idx = t.value env ρ (Expr.position env ρ slot :: idx) := by
  have rank : t.shape.length = inner.length + 1 := by rw [shape]; simp [Shape.ofNats]
  obtain _ | ⟨here, -⟩ := fits.dims
  unfold partialIndexed
  refine leads_ite (fun none => absurd none (by simp)) fun _ => ?_
  refine leads_ite (fun more => ?_) fun less => ?_
  · -- the other dimensions are read at new indices
    refine (leads_freshIndices _).bind fun is s₁ grows new => ?_
    have length : is.length = inner.length := by
      rw [new.length, length_replicate, rank]
      rfl
    have takes : Forall₂ (SlotTakes s₁) (slot :: is.map .free) t.shape := by
      rw [shape, Shape.ofNats, map_cons]
      refine .cons (.inl (grows.slotFits here)) ?_
      rw [forall₂_map_left_iff, forall₂_map_right_iff]
      exact forall₂_iff_zip.2 ⟨length, fun {i n} mem => .inr ⟨i, _, rfl, rfl, new.has (of_mem_zip mem).1⟩⟩
    refine (leads_indexed (w := fun _ => False) (grows.wellFormed ht) takes fun {r} hr => ?_).bind fun x s₂ grows' hx => ?_
    · rcases mem_cons.1 hr with rfl | hr
      · exact grows.wellFormed (fits.runtime mem_cons_self)
      · obtain ⟨i, -, eq⟩ := mem_map.1 hr
        cases eq
    have extents : is.map s₂.extents = Shape.ofNats inner := by
      have dims := hx.1.dims
      rw [shape, Shape.ofNats, map_cons] at dims
      obtain _ | ⟨-, dims⟩ := dims
      exact extents_of_slotFits dims
    refine (ensures_tensorOver_new hx.2.fits extents new.nodup fun i hi => new.new hi).leads.mono fun r s₃ _ hr => ?_
    obtain ⟨same, fit, -, outer, entries⟩ := hr
    rw [Session.extents_congr same]
    refine ⟨fit, outer, fun env ρ idx inside defined => ?_⟩
    obtain ⟨ρ', positions, agree, entry⟩ := entries env ρ idx inside
    have slots : (slot :: is.map .free).map (Expr.position env ρ') = Expr.position env ρ slot :: idx := by
      rw [map_cons, agree.position fits, map_map, ← positions]
      rfl
    obtain ⟨there, value⟩ := (hx.2.carries env ρ').scalar rfl (by
      rw [Expr.defined_indexed, slots]
      exact defined.congr ht.runtimeClosed fun i hi => (agree i (known i hi)).symm)
    obtain ⟨there, outer⟩ := entry there
    refine ⟨there, ?_⟩
    rw [outer, value, Expr.value_indexed, slots]
    exact Expr.value_congr ht.runtimeClosed _ fun i hi => agree i (known i hi)
  · refine leads_ite (fun _ => ?_) fun _ => leads_throw
    obtain rfl : inner = [] := length_eq_zero_iff.1 (by
      rw [length_singleton, rank] at less
      omega)
    have slots : SlotsFit s.extents [slot] t.shape := by rwa [shape]
    refine (ensures_indexed (w := fun _ => False) ht slots).leads.mono fun r s₁ _ hr => ?_
    rw [Session.extents_congr hr.1]
    refine ⟨hr.2.fits, hr.2.shape, fun env ρ idx inside defined => ?_⟩
    obtain rfl : idx = [] := length_eq_zero_iff.1 (length_of_within inside)
    obtain ⟨there, value⟩ := (hr.2.carries env ρ).scalar rfl (Expr.defined_indexed.2 defined)
    exact ⟨there, value.trans (Expr.value_indexed ..)⟩

end Build

end FormCompiler
