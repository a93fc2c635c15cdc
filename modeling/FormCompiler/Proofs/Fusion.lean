import FormCompiler.Proofs.Execution

/-!
# Loops that operations share

Operations are gathered into loops that neighbours share. Such a program does what its operations do one after the
other, each over all its loops, provided that a later operation at one position of a shared loop commutes with an
earlier one at another position.
-/

namespace FormCompiler

open List

/-! ## Steps that commute -/

section Commuting

variable {σ β γ : Type}

/-- Steps that may fail, in either order. -/
def Commutes (f g : σ → Option σ) : Prop := ∀ st, (f st).bind g = (g st).bind f

variable {f : σ → Option σ} {xs : List β} {g : β → σ → Option σ}

theorem Commutes.symm {g : σ → Option σ} (h : Commutes f g) : Commutes g f := fun st => (h st).symm

theorem Commutes.some_right (f : σ → Option σ) : Commutes f some := fun st => by simp

theorem foldlM_congr {f g : σ → β → Option σ} (h : ∀ x ∈ xs, ∀ st, f st x = g st x) (st : σ) :
    xs.foldlM f st = xs.foldlM g st := by
  induction xs generalizing st with
  | nil => rfl
  | cons x xs ih =>
    rw [foldlM_cons, foldlM_cons, h x mem_cons_self]
    congr 1
    funext st
    exact ih (fun y hy => h y (mem_cons_of_mem _ hy)) st

/-- A step commutes with a sequence of steps if it commutes with each. -/
theorem Commutes.foldlM (h : ∀ x ∈ xs, Commutes f (g x)) : Commutes f (fun st => xs.foldlM (fun st x => g x st) st) := by
  induction xs with
  | nil => exact Commutes.some_right f
  | cons x xs ih =>
    have head := h x mem_cons_self
    have tail := ih fun y hy => h y (mem_cons_of_mem _ hy)
    intro st
    simp only [foldlM_cons]
    calc (f st).bind (fun st => (g x st).bind fun st => xs.foldlM (fun st x => g x st) st)
        = ((f st).bind (g x)).bind fun st => xs.foldlM (fun st x => g x st) st := by rw [Option.bind_assoc]
      _ = ((g x st).bind f).bind fun st => xs.foldlM (fun st x => g x st) st := by rw [head st]
      _ = (g x st).bind fun st => (f st).bind fun st => xs.foldlM (fun st x => g x st) st := by rw [Option.bind_assoc]
      _ = (g x st).bind fun st => (xs.foldlM (fun st x => g x st) st).bind f := by
        congr 1
        funext st
        exact tail st
      _ = ((g x st).bind fun st => xs.foldlM (fun st x => g x st) st).bind f := by rw [Option.bind_assoc]

/-- Two sequences of steps one after the other are one sequence of pairs, if what is moved past each other commutes. -/
theorem foldlM_bind_foldlM {f : β → σ → Option σ} (h : xs.Pairwise fun x y => Commutes (f y) (g x)) (st : σ) :
    (xs.foldlM (fun st x => f x st) st).bind (fun st => xs.foldlM (fun st x => g x st) st) =
      xs.foldlM (fun st x => (f x st).bind (g x)) st := by
  induction xs generalizing st with
  | nil => rfl
  | cons x xs ih =>
    obtain ⟨head, tail⟩ := pairwise_cons.1 h
    simp only [foldlM_cons]
    have move : Commutes (g x) (fun st => xs.foldlM (fun st x => f x st) st) :=
      Commutes.foldlM fun y hy => (head y hy).symm
    calc ((f x st).bind fun st => xs.foldlM (fun st x => f x st) st).bind
          (fun st => (g x st).bind fun st => xs.foldlM (fun st x => g x st) st)
        = (f x st).bind fun st => ((xs.foldlM (fun st x => f x st) st).bind (g x)).bind
            fun st => xs.foldlM (fun st x => g x st) st := by
          rw [Option.bind_assoc]
          congr 1
          funext st
          rw [Option.bind_assoc]
      _ = (f x st).bind fun st => ((g x st).bind fun st => xs.foldlM (fun st x => f x st) st).bind
            fun st => xs.foldlM (fun st x => g x st) st := by
          congr 1
          funext st
          rw [move st]
      _ = (f x st).bind fun st => (g x st).bind fun st => xs.foldlM (fun st x => (f x st).bind (g x)) st := by
          congr 1
          funext st
          rw [Option.bind_assoc]
          congr 1
          funext st
          exact ih tail st
      _ = ((f x st).bind (g x)).bind fun st => xs.foldlM (fun st x => (f x st).bind (g x)) st := by
          rw [Option.bind_assoc]

/-- Steps by rows are steps by columns, if a later step of an earlier row commutes with an earlier one of a later. -/
theorem foldlM_interchange {f : β → γ → σ → Option σ} {vs : List γ}
    (h : xs.Pairwise fun x y => vs.Pairwise fun v w => Commutes (f y v) (f x w)) (st : σ) :
    vs.foldlM (fun st v => xs.foldlM (fun st x => f x v st) st) st =
      xs.foldlM (fun st x => vs.foldlM (fun st v => f x v st) st) st := by
  induction vs generalizing st with
  | nil =>
    induction xs with
    | nil => rfl
    | cons x xs ih => simpa using ih (pairwise_cons.1 h).2
  | cons v vs ih =>
    simp only [foldlM_cons]
    have rest : xs.Pairwise fun x y => vs.Pairwise fun v w => Commutes (f y v) (f x w) :=
      h.imp fun hxy => (pairwise_cons.1 hxy).2
    have cross : xs.Pairwise fun x y => Commutes (f y v) (fun st => vs.foldlM (fun st w => f x w st) st) :=
      h.imp fun {x y} hxy => Commutes.foldlM (f := f y v) (g := f x) fun w hw => (pairwise_cons.1 hxy).1 w hw
    calc (xs.foldlM (fun st x => f x v st) st).bind
          (fun st => vs.foldlM (fun st v => xs.foldlM (fun st x => f x v st) st) st)
        = (xs.foldlM (fun st x => f x v st) st).bind
          (fun st => xs.foldlM (fun st x => vs.foldlM (fun st v => f x v st) st) st) := by
          congr 1
          funext st
          exact ih rest st
      _ = xs.foldlM (fun st x => (f x v st).bind fun st => vs.foldlM (fun st v => f x v st) st) st :=
          foldlM_bind_foldlM cross st

end Commuting

namespace Statement

/-! ## Runs of operations -/

section Runs

variable {K : Type}

variable {r : List (Pending K)} {inner : List (Pending K) → List (Statement K)}

/-- The runs into which operations are split have one outermost loop, or none. -/
theorem outer_of_mem_splitBy {ps : List (Pending K)} (h : r ∈ ps.splitBy fun a b => a.1.head? == b.1.head?) :
    r <:+: ps ∧ r ≠ [] ∧ ((∀ p ∈ r, p.1 = []) ∨ ∃ i, ∀ p ∈ r, p.1 = i :: p.1.drop 1) := by
  have part : r <:+: ps := by
    have := infix_of_mem_flatten h
    rwa [flatten_splitBy] at this
  refine ⟨part, ne_nil_of_mem_splitBy h, ?_⟩
  have chain : r.IsChain fun a b => a.1.head? = b.1.head? :=
    (isChain_of_mem_splitBy h).imp fun a b hab => by simpa using hab
  have trans : IsTrans (Pending K) fun a b => a.1.head? = b.1.head? := ⟨fun _ _ _ => Eq.trans⟩
  have pairwise := isChain_iff_pairwise.1 chain
  cases r with
  | nil => exact .inl (by simp)
  | cons p r =>
    have same : ∀ q ∈ p :: r, q.1.head? = p.1.head? := by
      intro q hq
      rcases mem_cons.1 hq with rfl | hq
      · rfl
      · exact ((pairwise_cons.1 pairwise).1 q hq).symm
    cases hp : p.1 with
    | nil => exact .inl fun q hq => List.head?_eq_none_iff.1 (by rw [same q hq, hp]; rfl)
    | cons i is =>
      refine .inr ⟨i, fun q hq => ?_⟩
      have := same q hq
      rw [hp, List.head?_cons] at this
      obtain ⟨js, hjs⟩ := List.head?_eq_some_iff.1 this
      rw [hjs, drop_one, tail_cons]

/-- A run without loops keeps its operations in order. -/
theorem ofRun_nil (h : ∀ p ∈ r, p.1 = []) :
    ofRun inner r = r.filterMap fun p => if p.2.isHold then none else some (.run p.2) := by
  cases r with
  | nil => rfl
  | cons p r =>
    obtain ⟨is, op⟩ := p
    obtain rfl : is = [] := h _ mem_cons_self
    rfl

/-- A run in a loop is that loop around what is made of the rest, or nothing. -/
theorem ofRun_cons {i : Index} (hr : r ≠ []) (h : ∀ p ∈ r, p.1 = i :: p.1.drop 1) :
    ofRun inner r = if inner (r.map fun p => (p.1.drop 1, p.2)) = [] then []
      else [.loop i (inner (r.map fun p => (p.1.drop 1, p.2)))] := by
  cases r with
  | nil => exact absurd rfl hr
  | cons p r =>
    obtain ⟨is, op⟩ := p
    have head : is = i :: is.drop 1 := h _ mem_cons_self
    cases is with
    | nil => simp at head
    | cons j js =>
      simp only [List.cons.injEq, drop_one, tail_cons, and_true] at head
      subst head
      rw [ofRun]
      cases inner (((j :: js, op) :: r).map fun p => (p.1.drop 1, p.2)) <;> simp

end Runs

/-! ## Operations one after the other -/

variable {K : Type} [Scalar K] [Field K] (T : List (Expr K)) (env : Environment K) (size : Index → Nat)

/-- Run an operation at all positions of its loops. -/
def runOver (p : Pending K) (ρ : Valuation) (st : RunState K) : Option (RunState K) :=
  (ρ.ranging (bindersOf size p.1)).foldlM (fun st σ => p.2.run T env σ st) st

/-- Run operations one after the other, each at all positions of its loops. -/
def runAll (ps : List (Pending K)) (ρ : Valuation) (st : RunState K) : Option (RunState K) :=
  ps.foldlM (fun st p => runOver T env size p ρ st) st

/-- Operations may share loops: among neighbours that all loop over an index, a later operation at one position of the
index commutes with an earlier one at another. -/
def Fusible (ps : List (Pending K)) : Prop :=
  ∀ qs, qs <:+: ps → ∀ i, (∀ p ∈ qs, i ∈ p.1) →
    qs.Pairwise fun a b => ∀ ρ σ : Valuation, ρ i ≠ σ i → Commutes (b.2.run T env ρ) (a.2.run T env σ)

variable {T env size}

variable {ps r : List (Pending K)} {i : Index} {ρ : Valuation}

theorem Fusible.part {qs : List (Pending K)} (h : Fusible T env ps) (sub : qs <:+: ps) : Fusible T env qs :=
  fun rs hrs => h rs (hrs.trans sub)

/-- The outermost loop may be dropped. -/
theorem Fusible.drop (h : Fusible T env ps) : Fusible T env (ps.map fun p => (p.1.drop 1, p.2)) := by
  intro qs sub i hi
  obtain ⟨before, after, parts⟩ := sub
  obtain ⟨front, rest, rfl, hfront, -⟩ := map_eq_append_iff.1 parts.symm
  obtain ⟨xs, ys, rfl, -, rfl⟩ := map_eq_append_iff.1 hfront
  have all : ∀ p ∈ ys, i ∈ p.1 := by
    intro p hp
    exact mem_of_mem_drop (hi _ (mem_map_of_mem hp))
  exact pairwise_map.2 (h ys ⟨xs, rest, rfl⟩ i all)

theorem runOver_nil (op : Operation K) (ρ : Valuation) (st : RunState K) :
    runOver T env size ([], op) ρ st = op.run T env ρ st := by
  simp [runOver, bindersOf, Valuation.ranging]

/-- The outermost loop of an operation. -/
theorem runOver_cons {is : List Index} (nodup : i ∉ is) (op : Operation K) (ρ : Valuation) (st : RunState K) :
    runOver T env size (i :: is, op) ρ st =
      (List.range (size i)).foldlM (fun st (n : Nat) => runOver T env size (is, op) (ρ.set i n) st) st := by
  have split : ρ.ranging (bindersOf size (i :: is)) =
      (List.range (size i)).flatMap fun (n : Nat) => (ρ.set i n).ranging (bindersOf size is) :=
    Valuation.ranging_cons_of_not_mem (b := (i, (size i : Int))) (by simpa using nodup)
  simp only [runOver, split]
  induction List.range (size i) generalizing st with
  | nil => rfl
  | cons n ns ih =>
    rw [flatMap_cons, foldlM_append, foldlM_cons]
    congr 1
    funext st
    exact ih st

theorem commutes_runOver {p q : Pending K} {σ : Valuation} (hp : i ∉ p.1) (hq : i ∉ q.1)
    (apart : ρ i ≠ σ i) (h : ∀ ρ σ : Valuation, ρ i ≠ σ i → Commutes (p.2.run T env ρ) (q.2.run T env σ)) :
    Commutes (runOver T env size p ρ) (runOver T env size q σ) := by
  refine Commutes.foldlM fun σ' hσ => (Commutes.foldlM fun ρ' hρ => ?_).symm
  refine (h ρ' σ' ?_).symm
  rw [Valuation.eq_of_mem_ranging hρ (by simpa using hp), Valuation.eq_of_mem_ranging hσ (by simpa using hq)]
  exact apart

/-! ## Gathered loops -/

theorem execAll_append (ss ts : List (Statement K)) (ρ : Valuation) (st : RunState K) :
    execAll T env size (ss ++ ts) ρ st = (execAll T env size ss ρ st).bind (execAll T env size ts ρ) := by
  induction ss generalizing st with
  | nil => simp [execAll]
  | cons s ss ih =>
    rw [cons_append, execAll, execAll]
    cases exec T env size s ρ st with
    | none => rfl
    | some st' => exact ih st'

/-- Operations outside all loops run one after the other; places that are held do nothing. -/
theorem execAll_plain (h : ∀ p ∈ r, p.1 = []) (ρ : Valuation) (st : RunState K) :
    execAll T env size (r.filterMap fun p => if p.2.isHold then none else some (.run p.2)) ρ st =
      runAll T env size r ρ st := by
  induction r generalizing st with
  | nil => rfl
  | cons p r ih =>
    obtain ⟨is, op⟩ := p
    obtain rfl : is = [] := h _ mem_cons_self
    have tail := ih fun q hq => h q (mem_cons_of_mem _ hq)
    rw [runAll, foldlM_cons, runOver_nil]
    cases hop : op.isHold with
    | true =>
      obtain ⟨e, rfl⟩ : ∃ e, op = .hold e := by cases op <;> simp_all [Operation.isHold]
      rw [filterMap_cons_none (by simp [hop])]
      exact tail st
    | false =>
      simp only [filterMap_cons, hop, Bool.false_eq_true, if_false, execAll, exec]
      cases op.run T env ρ st with
      | none => rfl
      | some st' => exact tail st'

/-- One shared loop does what the operations do one after the other. -/
theorem runAll_loop (h : ∀ p ∈ r, p.1 = i :: p.1.drop 1)
    (nodup : ∀ p ∈ r, p.1.Nodup) (fusible : Fusible T env r) (ρ : Valuation) (st : RunState K) :
    (List.range (size i)).foldlM (fun st (n : Nat) =>
      runAll T env size (r.map fun p => (p.1.drop 1, p.2)) (ρ.set i n) st) st = runAll T env size r ρ st := by
  have outer : ∀ p ∈ r, i ∉ p.1.drop 1 := by
    intro p hp
    have := nodup p hp
    rw [h p hp] at this
    exact (nodup_cons.1 this).1
  have commute : r.Pairwise fun a b => (List.range (size i)).Pairwise fun (m n : Nat) =>
      Commutes (runOver T env size (b.1.drop 1, b.2) (ρ.set i m)) (runOver T env size (a.1.drop 1, a.2) (ρ.set i n)) := by
    have all : ∀ p ∈ r, i ∈ p.1 := fun p hp => by rw [h p hp]; exact mem_cons_self
    refine (fusible r infix_rfl i all).imp_of_mem fun {a b} ha hb hab => ?_
    refine nodup_range.imp fun {m n} hmn => ?_
    refine commutes_runOver (outer b hb) (outer a ha) ?_ hab
    rw [Valuation.set_self, Valuation.set_self]
    omega
  have columns := foldlM_interchange
    (f := fun (p : Pending K) (n : Nat) st => runOver T env size (p.1.drop 1, p.2) (ρ.set i n) st) commute st
  simp only [runAll, foldlM_map]
  rw [columns]
  refine foldlM_congr (fun p hp st => ?_) st
  have whole : p = (i :: p.1.drop 1, p.2) := Prod.ext (h p hp) rfl
  calc (List.range (size i)).foldlM (fun st (n : Nat) => runOver T env size (p.1.drop 1, p.2) (ρ.set i n) st) st
      = runOver T env size (i :: p.1.drop 1, p.2) ρ st := (runOver_cons (outer p hp) p.2 ρ st).symm
    _ = runOver T env size p ρ st := by rw [← whole]

/-- Runs that do what their operations do make a program that does. -/
theorem execAll_flatMap {rs : List (List (Pending K))} {make : List (Pending K) → List (Statement K)}
    (h : ∀ r ∈ rs, ∀ st, execAll T env size (make r) ρ st = runAll T env size r ρ st) (st : RunState K) :
    execAll T env size (rs.flatMap make) ρ st = runAll T env size rs.flatten ρ st := by
  induction rs generalizing st with
  | nil => rfl
  | cons r rs ih =>
    rw [flatMap_cons, execAll_append, h r mem_cons_self, flatten_cons, runAll, runAll,
      foldlM_append]
    congr 1
    funext st
    exact ih (fun r hr => h r (mem_cons_of_mem _ hr)) st

/-- Gathered operations do what the operations do one after the other. -/
theorem execAll_gather {depth : Nat} (deep : ∀ p ∈ ps, p.1.length ≤ depth)
    (nodup : ∀ p ∈ ps, p.1.Nodup) (fusible : Fusible T env ps) (ρ : Valuation) (st : RunState K) :
    execAll T env size (gather depth ps) ρ st = runAll T env size ps ρ st := by
  induction depth generalizing ps ρ st with
  | zero => exact execAll_plain (fun p hp => length_eq_zero_iff.1 (by have := deep p hp; omega)) ρ st
  | succ depth ih =>
    have runs : ∀ r ∈ ps.splitBy fun a b => a.1.head? == b.1.head?, ∀ st,
        execAll T env size (ofRun (gather depth) r) ρ st = runAll T env size r ρ st := by
      intro r hr st
      obtain ⟨part, ne, outer⟩ := outer_of_mem_splitBy hr
      have mem : ∀ p ∈ r, p ∈ ps := fun p hp => part.subset hp
      rcases outer with plain | ⟨i, loop⟩
      · rw [ofRun_nil plain]
        exact execAll_plain plain ρ st
      · have inner : ∀ (n : Nat) (st : RunState K),
            execAll T env size (gather depth (r.map fun p => (p.1.drop 1, p.2))) (ρ.set i n) st =
              runAll T env size (r.map fun p => (p.1.drop 1, p.2)) (ρ.set i n) st := by
          intro n st
          refine ih ?_ ?_ (fusible.part part).drop (ρ.set i n) st
          · intro q hq
            obtain ⟨p, hp, rfl⟩ := mem_map.1 hq
            have := deep p (mem p hp)
            simp only [length_drop]
            omega
          · intro q hq
            obtain ⟨p, hp, rfl⟩ := mem_map.1 hq
            exact (nodup p (mem p hp)).sublist (drop_sublist 1 p.1)
        rw [ofRun_cons ne loop, ← runAll_loop loop (fun p hp => nodup p (mem p hp)) (fusible.part part) ρ st]
        split
        · rename_i empty
          -- a loop around nothing is left out
          rw [empty] at inner
          simp only [execAll] at inner ⊢
          rw [foldlM_congr (fun n _ st => (inner n st).symm)]
          induction List.range (size i) with
          | nil => rfl
          | cons n ns ihn => simpa using ihn
        · rw [execAll, exec, foldlM_congr fun n _ st => inner n st]
          simp [execAll]
    rw [gather, execAll_flatMap runs, flatten_splitBy]

end Statement

end FormCompiler
