import FormCompiler.Proofs.Building
import FormCompiler.Proofs.Reading

/-!
# Entries in row order

The entries of a tensor of known extents stand one after the other in row order. Two tensors may have the same entries in
this order without having the same shape, which is all that matters where tensors are put one after the other.
-/

namespace FormCompiler

open FormCompiler.Expr List

/-! ## Places in row order -/

variable {s idx : List Nat} {k : Nat}

theorem resolveAll_ofNats (h : Forall₂ (· < ·) idx s) : Tensor.resolveAll s (idx.map Int.ofNat) = some idx := by
  induction h with
  | nil => rfl
  | @cons i n idx s lt _ ih =>
    have here : Tensor.resolve n (Int.ofNat i) = some i := by
      have nonneg : 0 ≤ Int.ofNat i := Int.natCast_nonneg i
      have below : Int.ofNat i < Int.ofNat n := Int.ofNat_lt.2 lt
      rw [Tensor.resolve, if_pos nonneg, if_pos below]
      rfl
    rw [map_cons, Tensor.resolveAll, here, ih]
    rfl

/-- The positions within known extents are those of the index tuples. -/
theorem exists_of_within {idx : List Int} (h : within (Shape.ofNats s) idx = true) :
    ∃ ns : List Nat, idx = ns.map Int.ofNat ∧ Forall₂ (· < ·) ns s := by
  induction s generalizing idx with
  | nil =>
    cases idx with
    | nil => exact ⟨[], rfl, .nil⟩
    | cons v vs => cases h
  | cons n s ih =>
    cases idx with
    | nil => cases h
    | cons v vs =>
      obtain ⟨⟨nonneg, below⟩, rest⟩ := within_cons.1 h
      obtain ⟨ns, rfl, lt⟩ := ih rest
      obtain ⟨k, rfl⟩ := Int.eq_ofNat_of_zero_le nonneg
      exact ⟨k :: ns, rfl, .cons (Int.ofNat_lt.1 (below _ rfl)) lt⟩

theorem length_of_within {s : Shape} {idx : List Int} (h : within s idx = true) : idx.length = s.length := by
  induction s generalizing idx with
  | nil =>
    cases idx with
    | nil => rfl
    | cons v vs => cases h
  | cons n s ih =>
    cases idx with
    | nil => cases h
    | cons v vs => rw [length_cons, length_cons, ih (within_cons.1 h).2]

theorem position_cons {n i : Nat} (length : idx.length = s.length) :
    position (n :: s) (i :: idx) = i * count s + position s idx := by
  have fold : ∀ {s idx : List Nat} (a : Nat), idx.length = s.length →
      (s.zip idx).foldl (fun acc p => acc * p.1 + p.2) a = a * count s + position s idx := by
    intro s
    induction s with
    | nil => intro idx a _; simp [count, position]
    | cons m s ih =>
      intro idx a length
      cases idx with
      | nil => cases length
      | cons j idx =>
        have rest : idx.length = s.length := by simpa using length
        have first : position (m :: s) (j :: idx) = j * count s + position s idx := by
          change (s.zip idx).foldl (fun acc p => acc * p.1 + p.2) (0 * m + j) = _
          rw [ih _ rest, Nat.zero_mul, Nat.zero_add]
        rw [zip_cons_cons, foldl_cons, ih _ rest, first, count_cons]
        ring
  change (s.zip idx).foldl (fun acc p => acc * p.1 + p.2) (0 * n + i) = _
  rw [fold _ length, Nat.zero_mul, Nat.zero_add]

theorem position_lt (h : Forall₂ (· < ·) idx s) : position s idx < count s := by
  induction h with
  | nil => simp [position, count]
  | @cons i n idx s lt rest ih =>
    rw [position_cons rest.length_eq, count_cons]
    calc i * count s + position s idx < i * count s + count s := Nat.add_lt_add_left ih _
      _ = (i + 1) * count s := by ring
      _ ≤ n * count s := Nat.mul_le_mul_right _ lt

theorem position_unravel (h : k < count s) : position s (unravel s k) = k := by
  induction s generalizing k with
  | nil =>
    have : k = 0 := by simpa [count] using h
    rw [this]
    rfl
  | cons n s ih =>
    rw [count_cons] at h
    have pos : 0 < count s := Nat.pos_of_ne_zero fun zero => by simp [zero] at h
    rw [unravel, position_cons (length_unravel s _), ih (Nat.mod_lt k pos)]
    exact Nat.div_add_mod' k (count s)

/-- Lists of one length, one after the other. -/
theorem getElem?_flatten {α : Type} {m : Nat} {rows : List (List α)} (length : ∀ row ∈ rows, row.length = m) {j : Nat}
    (hj : j < m) : rows.flatten[k * m + j]? = rows[k]?.bind (·[j]?) := by
  induction rows generalizing k with
  | nil => simp
  | cons row rows ih =>
    obtain ⟨here, rest⟩ := forall_mem_cons.1 length
    rw [flatten_cons]
    cases k with
    | zero => rw [List.getElem?_append_left (by omega), Nat.zero_mul, Nat.zero_add]; rfl
    | succ k =>
      have shift : (k + 1) * m + j - row.length = k * m + j := by
        rw [here, Nat.succ_mul]
        omega
      rw [List.getElem?_append_right (by rw [here, Nat.succ_mul]; omega), shift, ih rest]
      rfl

/-- An index tuple stands at its position. -/
theorem getElem?_tuples (h : Forall₂ (· < ·) idx s) : (tuples s)[position s idx]? = some idx := by
  induction h with
  | nil => rfl
  | @cons i n idx s lt rest ih =>
    have rows : tuples (n :: s) = ((List.range n).map fun i => (tuples s).map (i :: ·)).flatten := by
      rw [tuples, flatMap_def]
    have length : ∀ row ∈ (List.range n).map fun i => (tuples s).map (i :: ·), row.length = count s := by
      intro row hrow
      obtain ⟨j, -, rfl⟩ := mem_map.1 hrow
      rw [length_map, length_tuples]
    rw [position_cons rest.length_eq, rows, getElem?_flatten length (position_lt rest)]
    simp [lt, ih]

namespace Expr

variable {K : Type}

/-! ## Sizes -/

/-- The extents are known. -/
def Sized (e : Expr K) : Prop := (Shape.toNats? e.shape).isSome = true

/-- The number of entries. -/
def size (e : Expr K) : Nat := count e.extents

/-- The positions of the entry at a place in row order. -/
def place (e : Expr K) (n : Nat) : List Int := (unravel e.extents n).map Int.ofNat

variable {e r : Expr K} {s : List Nat} {n : Nat} {ps qs : List (Expr K)}

theorem Sized.shape_eq (h : e.Sized) : e.shape = Shape.ofNats e.extents := by
  obtain ⟨extents, known⟩ := Option.isSome_iff_exists.1 h
  rw [Expr.extents, known, Option.getD_some]
  exact eq_ofNats_of_toNats? known

theorem sized_of_shape (h : e.shape = Shape.ofNats s) : e.Sized ∧ e.extents = s := by
  rw [Sized, extents, h, toNats?_ofNats]
  exact ⟨rfl, rfl⟩

theorem sized_of_scalar (h : e.shape = []) : e.Sized ∧ e.size = 1 := by
  obtain ⟨sized, extents⟩ := sized_of_shape (s := []) h
  exact ⟨sized, by rw [size, extents]; rfl⟩

theorem place_of_scalar (h : e.shape = []) (n : Nat) : e.place n = [] := by
  rw [place, (sized_of_shape (s := []) h).2]
  rfl

theorem Sized.within_place (h : e.Sized) (lt : n < e.size) : within e.shape (e.place n) = true := by
  rw [h.shape_eq]
  exact within_ofNats (unravel_lt lt)

theorem extents_congr (h : r.shape = e.shape) : r.extents = e.extents := by
  rw [extents, extents, h]

theorem size_congr (h : r.shape = e.shape) : r.size = e.size := by
  rw [size, size, extents_congr h]

theorem place_congr (h : r.shape = e.shape) (n : Nat) : r.place n = e.place n := by
  rw [place, place, extents_congr h]

theorem size?_ofNats (s : List Nat) : Shape.size? (Shape.ofNats s) = some (Int.ofNat (count s)) := by
  have fold : ∀ (s : List Nat) (a : Nat),
      (Shape.ofNats s).foldlM (fun (acc : Int) d => Option.map (acc * ·) d) (Int.ofNat a) =
        some (Int.ofNat (s.foldl (· * ·) a)) := by
    intro s
    induction s with
    | nil => intro a; rfl
    | cons n s ih => intro a; exact ih (a * n)
  exact fold s 1

/-- Parts of known extents follow one another. -/
theorem shape_concatenate (known : ∀ p ∈ ps, p.Sized) : (Expr.concatenate ps).shape = Shape.ofNats [(ps.map size).sum] := by
  have fold : ∀ (ps : List (Expr K)) (a : Nat), (∀ p ∈ ps, p.Sized) →
      (shapes ps).foldlM (fun (acc : Int) s => (Shape.size? s).map (acc + ·)) (Int.ofNat a) =
        some (Int.ofNat (a + (ps.map size).sum)) := by
    intro ps
    induction ps with
    | nil => intro a _; rfl
    | cons p ps ih =>
      intro a known
      obtain ⟨here, rest⟩ := forall_mem_cons.1 known
      rw [shapes, foldlM_cons, here.shape_eq, size?_ofNats]
      refine (ih (a + p.size) rest).trans ?_
      rw [map_cons, sum_cons, Nat.add_assoc]
  rw [shape, totalSize]
  refine congrArg (fun n => [n]) ((fold ps 0 known).trans ?_)
  rw [Nat.zero_add]

theorem sum_size_le (h : Forall₂ (fun p q => q.size ≤ p.size) ps qs) : (qs.map size).sum ≤ (ps.map size).sum := by
  induction h with
  | nil => exact Nat.le_refl _
  | cons le _ ih => exact Nat.add_le_add le ih

/-- Parts that are not larger one by one, but as large together, are as large one by one. -/
theorem size_eq_of_sum_eq (h : Forall₂ (fun p q => q.size ≤ p.size) ps qs)
    (sum : (qs.map size).sum = (ps.map size).sum) : Forall₂ (fun p q => q.size = p.size) ps qs := by
  induction h with
  | nil => exact .nil
  | @cons p q ps qs le rest ih =>
    have below := sum_size_le rest
    rw [map_cons, map_cons, sum_cons, sum_cons] at sum
    exact .cons (by omega) (ih (by omega))

variable [Scalar K] [Field K]

/-! ## The same entries -/

/-- At each entry of one tensor the other is defined if that one is, and has the same value. -/
def Gives (env : Environment K) (ρ : Valuation) (e r : Expr K) : Prop :=
  ∀ idx, within e.shape idx = true → Defined env e ρ idx → Defined env r ρ idx ∧ value env r ρ idx = value env e ρ idx

/-- One tensor has the entries of the other in row order. -/
def GivesInOrder (env : Environment K) (ρ : Valuation) (e r : Expr K) : Prop :=
  ∀ n, n < e.size → Defined env e ρ (e.place n) →
    Defined env r ρ (r.place n) ∧ value env r ρ (r.place n) = value env e ρ (e.place n)

variable {env : Environment K} {ρ : Valuation} {e r : Expr K}

theorem Carries.gives (h : Carries env ρ ρ e r) : Gives env ρ e r := fun idx inside =>
  h idx (length_of_within inside)

theorem Gives.carries (h : Gives env ρ e r) (scalar : e.shape = []) : Carries env ρ ρ e r := by
  intro idx length
  obtain rfl : idx = [] := length_eq_zero_iff.1 (by rw [length, scalar, length_nil])
  exact h [] (by rw [scalar]; rfl)

variable {r' : Expr K}

theorem Gives.trans (h : Gives env ρ e r) (shape : r.shape = e.shape) (h' : Gives env ρ r r') : Gives env ρ e r' := by
  intro idx inside defined
  obtain ⟨defined, first⟩ := h idx inside defined
  obtain ⟨defined, second⟩ := h' idx (shape ▸ inside) defined
  exact ⟨defined, second.trans first⟩

theorem Gives.inOrder (h : Gives env ρ e r) (sized : e.Sized) (shape : r.shape = e.shape) : GivesInOrder env ρ e r := by
  intro n lt
  rw [place_congr shape]
  exact h _ (sized.within_place lt)

theorem GivesInOrder.trans (h : GivesInOrder env ρ e r) (size : r.size = e.size)
    (h' : GivesInOrder env ρ r r') : GivesInOrder env ρ e r' := by
  intro n lt defined
  obtain ⟨defined, first⟩ := h n lt defined
  obtain ⟨defined, second⟩ := h' n (by rwa [size]) defined
  exact ⟨defined, second.trans first⟩

/-! ## Choices -/

section Choices

variable {c c' y y' n n' : Expr K}

theorem Gives.conditional (scalar : c.shape = []) (branches : y.shape = n.shape) (hc : Carries env ρ ρ c c') (hy : Gives env ρ y y')
    (hn : Gives env ρ n n') : Gives env ρ (.conditional c y n) (.conditional c' y' n') := by
  intro idx inside defined
  obtain ⟨condition, yes, no⟩ := defined_conditional.1 defined
  obtain ⟨condition, same⟩ := hc.scalar scalar condition
  obtain ⟨yes, sameYes⟩ := hy idx inside yes
  obtain ⟨no, sameNo⟩ := hn idx (branches ▸ inside) no
  exact ⟨defined_conditional.2 ⟨condition, yes, no⟩, by rw [value_conditional, value_conditional, same, sameYes, sameNo]⟩

theorem GivesInOrder.conditional (scalar : c.shape = []) (branches : y.shape = n.shape) (branches' : y'.shape = n'.shape)
    (hc : Carries env ρ ρ c c') (hy : GivesInOrder env ρ y y') (hn : GivesInOrder env ρ n n') :
    GivesInOrder env ρ (.conditional c y n) (.conditional c' y' n') := by
  intro k lt defined
  have place : (Expr.conditional c y n).place k = y.place k := place_congr rfl k
  have place' : (Expr.conditional c' y' n').place k = y'.place k := place_congr rfl k
  rw [place] at defined ⊢
  rw [place']
  have below : k < y.size := lt
  obtain ⟨condition, yes, no⟩ := defined_conditional.1 defined
  obtain ⟨condition, same⟩ := hc.scalar scalar condition
  obtain ⟨yes, sameYes⟩ := hy k below yes
  rw [size_congr branches] at below
  rw [place_congr branches] at no
  obtain ⟨no, sameNo⟩ := hn k below no
  rw [← place_congr branches', ← place_congr branches] at sameNo
  rw [← place_congr branches'] at no
  exact ⟨defined_conditional.2 ⟨condition, yes, no⟩, by rw [value_conditional, value_conditional, same, sameYes, sameNo]⟩

end Choices

/-! ## Tensors from parts -/

omit [Scalar K] [Field K] in
theorem size_listTensor (s : List Nat) (entries : List (Expr K)) : (Expr.listTensor s entries).size = count s := by
  rw [size, (sized_of_shape (s := s) rfl).2]

variable {entries ps' : List (Expr K)}

omit [Scalar K] [Field K] in
theorem entryAt_place (lt : n < count s) : entryAt s entries ((Expr.listTensor s entries).place n) = entries[n]? := by
  rw [place, (sized_of_shape (s := s) rfl).2, entryAt, resolveAll_ofNats (unravel_lt lt), Option.bind_some,
    position_unravel lt]

/-- Lists of entries, whatever their shapes. -/
theorem GivesInOrder.listTensor {s' : List Nat} {entries' : List (Expr K)} (size : count s' = count s)
    (scalars : ∀ x ∈ entries, x.shape = []) (h : Forall₂ (Gives env ρ) entries entries') :
    GivesInOrder env ρ (.listTensor s entries) (.listTensor s' entries') := by
  intro n lt
  rw [size_listTensor] at lt
  rw [defined_listTensor, defined_listTensor, value_listTensor, value_listTensor, entryAt_place lt,
    entryAt_place (by rwa [size])]
  rcases getElem?_of_forall₂ h n with ⟨none, none'⟩ | ⟨x, x', some, some', gives⟩
  · rw [none, none']
    exact fun _ => ⟨nofun, rfl⟩
  · intro defined
    obtain ⟨here, same⟩ := gives [] (by rw [scalars x (mem_of_getElem? some)]; rfl) (defined x some)
    rw [some, some']
    exact ⟨fun c hc => Option.some.inj hc ▸ here, same⟩

omit [Scalar K] [Field K] in
/-- Parts of the same sizes have their places at the same positions. -/
theorem partAt_of_sizes {R : Expr K → Expr K → Prop}
    (h : Forall₂ (fun p p' => p'.size = p.size ∧ R p p') ps ps') (idx : List Int) :
    (partAt ps idx = none ∧ partAt ps' idx = none) ∨
      ∃ p p' n, partAt ps idx = some (p, p.place n) ∧ partAt ps' idx = some (p', p'.place n) ∧ n < p.size ∧ R p p' := by
  have sizes : ps'.map size = ps.map size := by
    induction h with
    | nil => rfl
    | cons same _ ih => rw [map_cons, map_cons, same.1, ih]
  have part : ∀ qs : List (Expr K), partAt qs idx = (Tensor.resolveAll [(qs.map size).sum] idx).bind fun place =>
      (locatePart (qs.map size) (place.headD 0)).bind fun found =>
        qs[found.1]?.bind fun c => some (c, c.place found.2) := fun qs => rfl
  rw [part, part, sizes]
  cases Tensor.resolveAll [(ps.map size).sum] idx with
  | none => exact .inl ⟨rfl, rfl⟩
  | some place =>
    simp only [Option.bind_some]
    cases located : locatePart (ps.map size) (place.headD 0) with
    | none => exact .inl ⟨rfl, rfl⟩
    | some found =>
      simp only [Option.bind_some]
      rcases getElem?_of_forall₂ h found.1 with ⟨none, none'⟩ | ⟨p, p', some, some', -, related⟩
      · rw [none, none']
        exact .inl ⟨rfl, rfl⟩
      · obtain ⟨n, hn, lt⟩ := locatePart_lt located
        rw [List.getElem?_map, some, Option.map_some, Option.some.injEq] at hn
        rw [some, some']
        exact .inr ⟨p, p', found.2, rfl, rfl, hn ▸ lt, related⟩

/-- Parts with the same entries in row order, one after the other. -/
theorem Gives.concatenate (h : Forall₂ (fun p p' => p'.size = p.size ∧ GivesInOrder env ρ p p') ps ps') :
    Gives env ρ (.concatenate ps) (.concatenate ps') := by
  intro idx _ defined
  rw [defined_concatenate] at defined ⊢
  rw [value_concatenate, value_concatenate]
  rcases partAt_of_sizes h idx with ⟨none, none'⟩ | ⟨p, p', n, some, some', lt, gives⟩
  · rw [none, none']
    exact ⟨nofun, rfl⟩
  · obtain ⟨here, same⟩ := gives n lt (defined _ some)
    rw [some, some']
    exact ⟨fun q hq => Option.some.inj hq ▸ here, same⟩

end Expr

end FormCompiler
