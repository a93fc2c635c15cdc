import FormCompiler.Code.Generate
import FormCompiler.Proofs.Building
import FormCompiler.Proofs.LoopTrees
import FormCompiler.Proofs.RelabelledPrograms

/-!
# Code does not see indices

An index reaches the code of a program only through its name and its extent. When indices are exchanged for others of
the same extents, and names go along, each piece of code is generated as before and the same new names are given out,
so that assignments have the same code, or are refused for the same reason. Where the names given beforehand are apart,
they stay so, and no loop counts a variable that a loop around it counts.
-/

namespace FormCompiler

open FormCompiler.Expr List Build

variable {K : Type} [Scalar K]

/-- An expression with its indices exchanged. -/
abbrev Expr.permute (p : Equiv.Perm Index) : Expr K → Expr K := relabel (.ofPerm p)

@[simp] theorem Tensor.relabel_ofPerm (p : Equiv.Perm Index) (t : Tensor K) : t.relabel (.ofPerm p) = t := by
  cases t
  simp [Tensor.relabel, Relabelling.ofPerm]

namespace Build

/-- Computations in two sessions that end alike and leave the sessions as they are. -/
inductive Agree (s s' : Session) {α β : Type} (R : α → β → Prop) (x : Build α) (y : Build β) : Prop where
  | returns {a : α} {b : β} (first : x.run.run s = (.ok a, s)) (second : y.run.run s' = (.ok b, s')) (related : R a b)
  | fails {e : Error} (first : x.run.run s = (.error e, s)) (second : y.run.run s' = (.error e, s'))

variable {s s' : Session} {α β α' β' : Type} {R : α → β → Prop} {S : α' → β' → Prop}

variable {x : Build α} {f : α → Build α'} {e : Error} {y : Build β}

theorem run_bind_error (h : x.run.run s = (.error e, s)) : (x >>= f).run.run s = (.error e, s) := by
  rw [ExceptT.run_bind, StateT.run_bind, h]
  rfl

theorem agree_pure {a : α} {b : β} (h : R a b) : Agree s s' R (pure a) (pure b) := .returns rfl rfl h

theorem agree_throw : Agree s s' R (throw e) (throw e) := .fails rfl rfl

theorem Agree.mono {T : α → β → Prop} (h : Agree s s' R x y) (imp : ∀ a b, R a b → T a b) : Agree s s' T x y := by
  cases h with
  | returns hx hy related => exact .returns hx hy (imp _ _ related)
  | fails hx hy => exact .fails hx hy

theorem Agree.bind {g : β → Build β'} (h : Agree s s' R x y)
    (next : ∀ a b, R a b → Agree s s' S (f a) (g b)) : Agree s s' S (x >>= f) (y >>= g) := by
  cases h with
  | returns hx hy related =>
    cases next _ _ related with
    | returns hf hg related => exact .returns ((run_bind_ok hx).trans hf) ((run_bind_ok hy).trans hg) related
    | fails hf hg => exact .fails ((run_bind_ok hx).trans hf) ((run_bind_ok hy).trans hg)
  | fails hx hy => exact .fails (run_bind_error hx) (run_bind_error hy)

/-- What does not look at the session ends alike in any two. -/
theorem Alike.agree (h : Alike R x y) : Agree s s' R x y := by
  cases h with
  | returns hx hy related => rw [hx, hy]; exact agree_pure related
  | fails hx hy => rw [hx, hy]; exact agree_throw

end Build

namespace Code

/-- The names of exchanged indices. -/
def Naming.permute (p : Equiv.Perm Index) (n : Naming) : Naming := { n with names := n.names.map (Prod.map p id) }

/-- Different indices have different names, among them known ones, and the next number is new. -/
structure Naming.Tells (known : List (Index × String)) (n : Naming) : Prop where
  apart : (n.names.map Prod.snd).Nodup
  numbered {q : Index × String} {k : Nat} : q ∈ n.names → q.2 = s!"i_{k}" → k < n.counter
  has {q : Index × String} : q ∈ known → n.names.find? (fun r => r.1 == q.1) = some q

/-- Two sessions with frames, of which the second have their indices exchanged; are names taken to be apart? -/
structure Pairing (K : Type) [Scalar K] where
  p : Equiv.Perm Index
  s : Session
  s' : Session
  frame : Frame K
  frame' : Frame K
  apart : Prop
  extents (i : Index) : s'.extents (p i) = s.extents i
  format : frame'.format = frame.format
  temporaries : Corresponds (permute p) id frame.temporaries frame'.temporaries
  kept : Corresponds (permute p) (map p) frame.kept frame'.kept
  roots : frame'.roots = frame.roots.map (permute p)
  arguments : frame'.arguments = frame.arguments.map p

/-- Generation in two sessions that ends alike and keeps names apart, with a property of the code. -/
def Agrees (c : Pairing K) (known : List (Index × String)) {α : Type} (Q : α → Prop) (x y : Generating α) : Prop :=
  ∀ n, (c.apart → n.Tells known) → Agree c.s c.s'
    (fun a b => a.1 = b.1 ∧ b.2 = a.2.permute c.p ∧ (c.apart → a.2.Tells known) ∧ Q a.1) (x.run n) (y.run (n.permute c.p))

variable {c : Pairing K} {known : List (Index × String)}

section Rules

variable {α β : Type} {Q : α → Prop} {R : β → Prop} {x y : Generating α}

theorem agrees_pure {a : α} (h : Q a) : Agrees c known Q (pure a) (pure a) := fun _ tells => agree_pure ⟨rfl, rfl, tells, h⟩

theorem agrees_throw {e : Error} : Agrees c known Q (throw e) (throw e) := fun _ _ => agree_throw

theorem Agrees.bind {f g : α → Generating β} (h : Agrees c known Q x y)
    (next : ∀ a, Q a → Agrees c known R (f a) (g a)) : Agrees c known R (x >>= f) (y >>= g) := by
  intro n tells
  rw [StateT.run_bind, StateT.run_bind]
  refine (h n tells).bind ?_
  rintro ⟨a, m⟩ ⟨_, _⟩ ⟨rfl, rfl, tells, ha⟩
  exact next a ha m tells

theorem Agrees.mono {R : α → Prop} (h : Agrees c known Q x y) (imp : ∀ a, Q a → R a) : Agrees c known R x y :=
  fun n tells => (h n tells).mono fun _ _ ⟨same, named, tells, ha⟩ => ⟨same, named, tells, imp _ ha⟩

theorem Agrees.map (h : Agrees c known Q x y) {f : α → β} (imp : ∀ a, Q a → R (f a) := by exact fun _ _ => trivial) :
    Agrees c known R (x >>= fun a => pure (f a)) (y >>= fun a => pure (f a)) := h.bind fun a ha => agrees_pure (imp a ha)

theorem agrees_lift {x y : Build α} (h : Agree c.s c.s' Eq x y) : Agrees c known ⊤ (liftM x) (liftM y) := by
  intro n tells
  have lift : ∀ (z : Build α) (m : Naming), (liftM z : Generating α).run m = z >>= fun c => pure (c, m) :=
    fun _ _ => rfl
  rw [lift, lift]
  exact h.bind fun a b same => agree_pure ⟨same, rfl, tells, trivial⟩

theorem agrees_require (b : Bool) : Agrees c known ⊤ (liftM (require b)) (liftM (require b)) :=
  agrees_lift ((alike_require b).agree.mono fun _ _ _ => rfl)

variable {ι : Type} {f : ι → Generating α} {is : List ι}

theorem agrees_mapM {κ : Type} {h : ι → κ} {g : κ → Generating α} (each : ∀ i ∈ is, Agrees c known Q (f i) (g (h i))) :
    Agrees c known (fun as => ∀ a ∈ as, Q a) (is.mapM f) ((is.map h).mapM g) := by
  induction is with
  | nil => exact agrees_pure nofun
  | cons i is ih =>
    rw [map_cons, mapM_cons, mapM_cons]
    refine (each i mem_cons_self).bind fun a ha => ?_
    exact (ih fun j hj => each j (mem_cons_of_mem _ hj)).map fun as has => forall_mem_cons.2 ⟨ha, has⟩

theorem agrees_mapM_self {g : ι → Generating α} (each : ∀ i ∈ is, Agrees c known Q (f i) (g i)) :
    Agrees c known (fun as => ∀ a ∈ as, Q a) (is.mapM f) (is.mapM g) := by
  have := agrees_mapM (h := id) each
  rwa [map_id] at this

end Rules

/-! ## Symbols -/

section Symbols

variable {i : Index} {n : Naming}

theorem run_indexName_some {q : Index × String} (h : n.names.find? (fun q => q.1 == i) = some q) :
    (indexName i).run n = pure (q.2, n) := by
  unfold indexName
  rw [StateT.run_bind, StateT.run_get, pure_bind, h]
  rfl

theorem run_indexName_none (h : n.names.find? (fun q => q.1 == i) = none) : (indexName i).run n = if n.open_ then
      pure (s!"i_{n.counter}", { n with names := n.names ++ [(i, s!"i_{n.counter}")], counter := n.counter + 1 })
      else throw .missing := by
  unfold indexName
  rw [StateT.run_bind, StateT.run_get, pure_bind, h]
  cases n.open_ <;> simp

theorem numbered_inj {m k : Nat} (h : s!"i_{m}" = s!"i_{k}") : m = k := by
  have same := congrArg String.toList h
  rw [String.toList_append, String.toList_append] at same
  have read := congrArg (fun ds => Nat.ofDigitChars 10 ds 0) (append_cancel_left same)
  simpa using read

/-- An index without a name is given one that is new. -/
theorem Naming.Tells.add (h : n.Tells known) (none : n.names.find? (fun r => r.1 == i) = none) :
    Naming.Tells (known ++ [(i, s!"i_{n.counter}")])
      { n with names := n.names ++ [(i, s!"i_{n.counter}")], counter := n.counter + 1 } := by
  refine ⟨?_, fun {q k} hq same => ?_, fun {q} hq => ?_⟩
  · rw [map_append, nodup_append]
    refine ⟨h.apart, nodup_singleton _, fun name hname _ new same => ?_⟩
    obtain ⟨q, hq, rfl⟩ := mem_map.1 hname
    exact absurd (h.numbered hq (same.trans (mem_singleton.1 new))) (lt_irrefl _)
  · rcases mem_append.1 hq with hq | hq
    · exact Nat.lt_succ_of_lt (h.numbered hq same)
    · rw [mem_singleton.1 hq] at same
      exact numbered_inj same ▸ Nat.lt_succ_self _
  · rw [find?_append]
    rcases mem_append.1 hq with hq | hq
    · rw [h.has hq]
      rfl
    · simp [mem_singleton.1 hq, none]

/-- Known indices that are different have different names. -/
theorem Naming.Tells.nodup (h : n.Tells known) (once : (known.map Prod.fst).Nodup) : (known.map Prod.snd).Nodup := by
  refine once.of_map.map_on fun q hq r hr same => ?_
  exact inj_on_of_nodup_map h.apart (mem_of_find?_eq_some (h.has hq)) (mem_of_find?_eq_some (h.has hr)) same

/-- An index is found under its name, or given the next one, and then is known by it. -/
theorem agrees_named {α : Type} {Q : α → Prop} {f g : String → Generating α}
    (next : ∀ name, Agrees c (known ++ [(i, name)]) Q (f name) (g name)) :
    Agrees c known Q (indexName i >>= f) (indexName (c.p i) >>= g) := by
  intro n tells
  have found : (n.permute c.p).names.find? (fun q => q.1 == c.p i) =
      (n.names.find? fun q => q.1 == i).map (Prod.map c.p id) := by
    rw [Naming.permute, find?_map]
    congr 2
    funext q
    rw [Bool.eq_iff_iff]
    simp
  have go {name : String} {m : Naming} (tells : c.apart → m.Tells (known ++ [(i, name)])) :=
    (next name m tells).mono (T := fun a b => a.1 = b.1 ∧ b.2 = a.2.permute c.p ∧ (c.apart → a.2.Tells known) ∧ Q a.1)
      fun a b ⟨same, named, tells, ha⟩ => ⟨same, named, fun apart =>
        ⟨(tells apart).apart, (tells apart).numbered, fun hq => (tells apart).has (mem_append_left _ hq)⟩, ha⟩
  rw [StateT.run_bind, StateT.run_bind]
  cases named : n.names.find? fun q => q.1 == i with
  | some q =>
    rw [named] at found
    rw [run_indexName_some named, run_indexName_some found, pure_bind, pure_bind]
    refine go fun apart => ⟨(tells apart).apart, (tells apart).numbered, fun {r} hr => ?_⟩
    rcases mem_append.1 hr with hr | hr
    · exact (tells apart).has hr
    · have same : q.1 = i := by simpa using find?_some named
      rw [mem_singleton.1 hr, named, ← same]
  | none =>
    rw [named] at found
    rw [run_indexName_none named, run_indexName_none found]
    change Agree c.s c.s' _ _ ((if n.open_ then _ else _) >>= _)
    split
    · have added := go (m := { n with names := n.names ++ [(i, s!"i_{n.counter}")], counter := n.counter + 1 })
        fun apart => (tells apart).add named
      simpa [Naming.permute] using added
    · exact agree_throw

theorem agrees_indexName (i : Index) : Agrees c known ⊤ (indexName i) (indexName (c.p i)) := by
  have : Agrees c known ⊤ _ _ := agrees_named (i := i) fun name => agrees_pure (a := name) trivial
  rwa [bind_pure, bind_pure] at this

/-- A position of an access is written alike. -/
theorem agrees_accessRank (d : DimAccess) :
    Agrees c known ⊤ (accessRank d : Generating (Rank (Value K) × (Int × Int)))
      (accessRank ((Relabelling.ofPerm (K := K) c.p).access d)) := by
  obtain ⟨offset, terms⟩ := d
  match terms with
  | [] => exact agrees_pure trivial
  | [(i, w)] =>
    exact (agrees_indexName i).map
  | a :: b :: ts =>
    have access : (Relabelling.ofPerm (K := K) c.p).access ⟨offset, a :: b :: ts⟩ =
        ⟨offset, (c.p a.1, a.2) :: (c.p b.1, b.2) :: ts.map fun t => (c.p t.1, t.2)⟩ := rfl
    rw [access]
    refine Agrees.bind (agrees_mapM (Q := ⊤) (h := fun t : Index × Stride => (c.p t.1, t.2)) fun t _ => ?_) fun parts _ => ?_
    · refine (agrees_indexName t.1).bind fun name _ => (agrees_require _).bind fun _ _ => ?_
      split
      · exact agrees_pure trivial
      · exact agrees_pure trivial
    · by_cases zero : offset = 0
      · rw [if_pos zero]
        cases parts with
        | nil => exact agrees_throw
        | cons first rest => exact agrees_pure trivial
      · rw [if_neg zero]
        exact agrees_pure trivial

end Symbols

/-! ## Temporaries -/

section Temporaries

variable [EquivBEq (Expr K)]

theorem agrees_keptIndices {α : Type} {Q : α → Prop} {f g : List Index → Generating α} (e : Expr K)
    (next : ∀ is, Agrees c known Q (f is) (g (is.map c.p))) :
    Agrees c known Q (keptIndices c.frame e >>= f) (keptIndices c.frame' (e.permute c.p) >>= g) := by
  unfold keptIndices
  rw [c.kept.getElem?_eq (relabel_beq _) e]
  cases c.frame.kept[e]? with
  | some is => exact next is
  | none => exact agrees_throw

theorem agrees_temporaryName (e : Expr K) :
    Agrees c known ⊤ (temporaryName c.frame e) (temporaryName c.frame' (e.permute c.p)) := by
  unfold temporaryName
  rw [c.temporaries.getElem?_eq (relabel_beq _) e]
  cases c.frame.temporaries[e]? with
  | some name => exact agrees_pure trivial
  | none => exact agrees_throw

theorem agrees_reference (e : Expr K) : Agrees c known ⊤ (reference c.frame e) (reference c.frame' (e.permute c.p)) := by
  refine agrees_keptIndices e fun is => Agrees.bind (agrees_mapM (Q := ⊤) fun i _ => ?_) fun rank _ => ?_
  · exact (agrees_indexName i).map
  · exact (agrees_temporaryName e).map

theorem agrees_declareTemporary (e : Expr K) :
    Agrees c known ⊤ (declareTemporary c.frame e) (declareTemporary c.frame' (e.permute c.p)) := by
  unfold declareTemporary declaredRank
  refine Agrees.bind (Q := fun rank => ∀ a ∈ rank, True) (agrees_keptIndices e fun is => ?_) fun rank _ =>
    (agrees_temporaryName e).map
  refine Agrees.bind (agrees_mapM fun i _ => agrees_lift (.returns rfl rfl (c.extents i).symm)) fun ns _ => ?_
  rw [shape_relabel]
  refine agrees_mapM_self fun n _ => ?_
  cases n with
  | some n => exact agrees_pure trivial
  | none => exact agrees_throw

omit [EquivBEq (Expr K)] in
theorem rootMark_permute (e : Expr K) : rootMark c.frame' (e.permute c.p) = rootMark c.frame e := by
  have known : (c.frame.roots.map (permute c.p)).contains (e.permute c.p) = c.frame.roots.contains e := by
    induction c.frame.roots with
    | nil => rfl
    | cons a as ih => rw [map_cons, contains_cons, contains_cons, relabel_beq, ih]
  rw [rootMark, rootMark, c.roots, known]

end Temporaries

/-! ## Expressions -/

section Expressions

variable {p : Equiv.Perm Index}

theorem alike_functionCall (name : String) (args : List (Expr K)) (codes : List (Value K)) :
    Build.Alike Eq (functionCall name args codes) (functionCall name (args.map (permute p)) codes) := by
  have zero (e : Expr K) : (e.permute p == Build.zero) = (e == Build.zero) := relabel_beq (.ofPerm p) e Build.zero
  have one (e : Expr K) : (e.permute p == Build.one) = (e == Build.one) := by
    have := relabel_beq (.ofPerm p) e Build.one
    rwa [Build.one, relabel, Tensor.relabel_ofPerm] at this
  unfold functionCall
  dsimp only
  split
  · -- only calls with two arguments are written
    rcases args with _ | ⟨a, _ | ⟨b, _ | ⟨c, args⟩⟩⟩
    · exact alike_throw
    · exact alike_throw
    · rcases codes with _ | ⟨x, _ | ⟨y, _ | ⟨z, codes⟩⟩⟩
      · exact alike_throw
      · exact alike_throw
      · simp only [map_cons, map_nil, zero, one]
        split
        · exact alike_pure rfl
        · split
          · exact alike_pure rfl
          · exact alike_pure rfl
      · exact alike_throw
    · exact alike_throw
  · exact alike_pure rfl

omit [Scalar K] in
theorem alike_extendRank (v : Value K) (rank : List (Rank (Value K))) :
    Alike Eq (extendRank v rank) (extendRank v rank) := by
  cases v with
  | symbol | number => exact alike_pure rfl
  | apply | call => exact alike_throw

/-- The place of a slot in a rank, given the code of expressions. -/
def slotRank (f : Expr K → Generating (Value K)) : Slot (Expr K) → Generating (Rank (Value K))
  | .fixed n => return .fixed n
  | .free i => do return .named (← indexName i)
  | .runtime e => do return .printed (← f e)

theorem nodeCode_call (frame : Frame K) (f : Expr K → Generating (Value K)) (name : String) (args : List (Expr K)) :
    nodeCode frame (.call name args) (fun c _ => f c) =
      args.mapM f >>= fun codes => liftM (functionCall name args codes) := by
  have each : (args.attach.mapM fun a => f a.1) = args.mapM f := by
    conv_rhs => rw [← attach_map_subtype_val args, mapM_map]
    rfl
  rw [← each]
  rfl

theorem nodeCode_indexed (frame : Frame K) (f : Expr K → Generating (Value K)) (t : Expr K) (slots : List (Slot (Expr K))) :
    nodeCode frame (.indexed t slots) (fun c _ => f c) =
      slots.mapM (slotRank f) >>= fun rank => f t >>= fun tensor => liftM (extendRank tensor rank) := by
  have each : (slots.attach.mapM fun q => slotRank f q.1) = slots.mapM (slotRank f) := by
    conv_rhs => rw [← attach_map_subtype_val slots, mapM_map]
    rfl
  rw [← each, nodeCode]
  congr 2
  funext q
  obtain ⟨q, hq⟩ := q
  cases q <;> rfl

variable {f g : Expr K → Generating (Value K)}

theorem agrees_slotRank {q : Slot (Expr K)} (each : ∀ e, q = .runtime e → Agrees c known ⊤ (f e) (g (e.permute c.p))) :
    Agrees c known ⊤ (slotRank f q) (slotRank g (relabelSlot (.ofPerm c.p) q)) := by
  cases q with
  | fixed n => exact agrees_pure trivial
  | free i => exact (agrees_indexName i).map
  | runtime e => exact (each e rfl).map

/-- The code of a node is generated alike if that of its parts is. -/
theorem agrees_nodeCode (e : Expr K)
    (parts : ∀ a, sizeOf a < sizeOf e → Agrees c known ⊤ (f a) (g (a.permute c.p))) :
    Agrees c known ⊤ (nodeCode c.frame e fun a _ => f a) (nodeCode c.frame' (e.permute c.p) fun a _ => g a) := by
  cases e with
  | zero shape =>
    refine (agrees_require _).bind fun _ _ => ?_
    rw [c.format]
    exact agrees_pure trivial
  | literal t stamp =>
    rw [permute, relabel, Tensor.relabel_ofPerm]
    refine (agrees_require _).bind fun _ _ => ?_
    rw [c.format]
    exact agrees_pure trivial
  | var name shape => exact agrees_pure trivial
  | binary op a b =>
    refine (parts a (sizeOf_left op a b)).bind fun x _ => (parts b (sizeOf_right op a b)).bind fun y _ => ?_
    cases operatorOf? op with
    | some o => exact agrees_pure trivial
    | none => exact agrees_pure trivial
  | negation a => exact (parts a (sizeOf_negated a)).map
  | call name args =>
    rw [permute, relabel, relabelAll_eq_map, nodeCode_call, nodeCode_call]
    refine (agrees_mapM fun a ha => parts a (sizeOf_argument ha)).bind fun codes _ => ?_
    exact agrees_lift (alike_functionCall name args codes).agree
  | conditional e y n =>
    exact (parts e (sizeOf_condition e y n)).bind fun _ _ => (parts y (sizeOf_yes e y n)).bind fun _ _ =>
      (parts n (sizeOf_no e y n)).map
  | indexed t slots =>
    rw [permute, relabel, relabelSlots_eq_map, nodeCode_indexed, nodeCode_indexed]
    refine (agrees_mapM fun q hq => agrees_slotRank fun e same => parts e ?_).bind fun rank _ => ?_
    · subst same
      exact sizeOf_slot hq
    · refine (parts t (sizeOf_tensor t slots)).bind fun tensor _ => ?_
      exact agrees_lift (alike_extendRank tensor rank).agree
  | access name shape dims => exact (agrees_mapM fun d _ => agrees_accessRank d).map
  | _ => exact agrees_throw

variable [EquivBEq (Expr K)]

/-- Expressions are written alike, down to the temporaries. -/
theorem agrees_valueOf (e : Expr K) : Agrees c known ⊤ (valueOf c.frame e) (valueOf c.frame' (e.permute c.p)) := by
  rw [valueOf, valueOf, recurse, recurse, valueStep, valueStep, c.temporaries.contains_eq (relabel_beq _)]
  split
  · exact agrees_reference e
  · exact agrees_nodeCode e fun a smaller => agrees_valueOf a
termination_by sizeOf e

end Expressions

/-! ## Statements -/

/-- The declaration of a constant table. -/
def constantCode (frame : Frame K) (e : Expr K) (declare : Bool) : Generating (Statement K) := do
  liftM (require declare)
  let d ← declareTemporary frame e
  let table ← liftM (table e)
  return .declare { d with
    initial := some (.table table frame.format.precision)
    qualifiers := some ["static", "const"] }

/-- The code that computes a node into its temporary. -/
def computedCode (frame : Frame K) (e : Expr K) (declare : Bool) : Generating (Statement K) := do
  let code ← computation frame e
  if declare then
    let d ← declareTemporary frame e
    return .declare { d with initial := some (.value code) }
  else return .assign (← reference frame e) code

mutual

/-- The variables that are counted around each place of the code, from the outside in. -/
def Statement.counters : Statement K → List (List String)
  | .loop counter _ body _ => body.counters.map (counter :: ·)
  | .block statements _ => countersOf statements
  | _ => [[]]

def Statement.countersOf : List (Statement K) → List (List String)
  | [] => [[]]
  | s :: ss => s.counters ++ countersOf ss

end

omit [Scalar K] in
theorem Statement.mem_countersOf {chain : List String} {ss : List (Statement K)} :
    chain ∈ countersOf ss ↔ chain = [] ∨ ∃ s ∈ ss, chain ∈ s.counters := by
  induction ss with
  | nil => simp [countersOf]
  | cons s ss ih => simp [countersOf, ih, or_left_comm]

/-- Code without loops. -/
def Statement.Plain (s : Statement K) : Prop := ∀ chain ∈ s.counters, chain = []

/-- No variable is counted twice around a place of the code, if names are apart. -/
def Statement.Apart (c : Pairing K) (outer : List String) (s : Statement K) : Prop :=
  c.apart → ∀ chain ∈ s.counters, (outer ++ chain).Nodup

section Statements

variable [EquivBEq (Expr K)]

theorem agrees_constantCode (e : Expr K) (declare : Bool) (same : Alike Eq (table e) (table (e.permute c.p))) :
    Agrees c known Statement.Plain (constantCode c.frame e declare) (constantCode c.frame' (e.permute c.p) declare) := by
  refine (agrees_require _).bind fun _ _ => (agrees_declareTemporary e).bind fun d _ => ?_
  refine (agrees_lift same.agree).bind fun t _ => ?_
  rw [c.format]
  exact agrees_pure fun _ => mem_singleton.1

theorem agrees_computedCode (e : Expr K) (declare : Bool) :
    Agrees c known Statement.Plain (computedCode c.frame e declare) (computedCode c.frame' (e.permute c.p) declare) := by
  refine (agrees_nodeCode e fun a _ => agrees_valueOf a).bind fun code _ => ?_
  cases declare with
  | true => exact (agrees_declareTemporary e).map fun _ _ _ => mem_singleton.1
  | false => exact (agrees_reference e).map fun _ _ _ => mem_singleton.1

theorem agrees_entriesCode (shape : List Nat) (entries : List (Expr K)) (declare : Bool) :
    Agrees c known Statement.Plain (evaluateCode c.frame (.listTensor shape entries) declare)
      (evaluateCode c.frame' (.listTensor shape (entries.map (permute c.p))) declare) := by
  have whole : .listTensor shape (entries.map (permute c.p)) = (Expr.listTensor shape entries).permute c.p := by
    rw [permute, relabel, relabelAll_eq_map]
  unfold evaluateCode
  simp only [whole]
  cases declare with
  | true =>
    refine (agrees_declareTemporary (.listTensor shape entries)).bind fun d _ => ?_
    refine (agrees_mapM fun e _ => agrees_valueOf e).bind fun values _ => ?_
    rw [c.format]
    exact agrees_pure fun _ => mem_singleton.1
  | false =>
    have pairs : (tuples shape).zip (entries.map (permute c.p)) =
        ((tuples shape).zip entries).map (Prod.map id (permute c.p)) := zip_map_right
    rw [pairs]
    refine (agrees_mapM (Q := Statement.Plain) fun q _ => ?_).map fun ops plain chain hc => ?_
    · refine (agrees_reference (.listTensor shape entries)).bind fun v _ => (agrees_lift (alike_extendRank v _).agree).bind fun v' _ => ?_
      exact (agrees_valueOf q.2).map fun _ _ _ => mem_singleton.1
    · obtain here | ⟨s, hs, inside⟩ := Statement.mem_countersOf.1 hc
      · exact here
      · exact plain s hs chain inside

theorem agrees_evaluateCode (e : Expr K) (declare : Bool) :
    Agrees c known Statement.Plain (evaluateCode c.frame e declare) (evaluateCode c.frame' (e.permute c.p) declare) := by
  cases e with
  | zero shape => exact agrees_constantCode (.zero shape) declare alike_throw
  | identity n => exact agrees_constantCode (.identity n) declare (alike_pure rfl)
  | literal t stamp =>
    refine agrees_constantCode (.literal t stamp) declare (alike_pure ?_)
    rw [Tensor.relabel_ofPerm]
  | listTensor shape entries =>
    rw [permute, relabel, relabelAll_eq_map]
    exact agrees_entriesCode shape entries declare
  | _ => exact agrees_computedCode _ declare

theorem agrees_operationCode (op : Operation K) (declare : Bool) :
    Agrees c known Statement.Plain (operationCode c.frame op declare)
      (operationCode c.frame' (op.relabel (.ofPerm c.p)) declare) := by
  cases op with
  | initialise e =>
    cases declare with
    | true => exact (agrees_declareTemporary e).map fun _ _ _ => mem_singleton.1
    | false => exact (agrees_reference e).map fun _ _ _ => mem_singleton.1
  | accumulate e =>
    refine (agrees_reference e).bind fun target _ => ?_
    rw [Operation.summand_relabel, rootMark_permute]
    exact (agrees_valueOf (Operation.summand e)).map fun _ _ _ => mem_singleton.1
  | give v e =>
    refine (agrees_valueOf v).bind fun target _ => ?_
    rw [rootMark_permute]
    exact (agrees_valueOf e).map fun _ _ _ => mem_singleton.1
  | giveSum v e =>
    refine (agrees_valueOf v).bind fun target _ => ?_
    rw [Operation.summand_relabel, rootMark_permute]
    exact (agrees_valueOf (Operation.summand e)).map fun _ _ _ => mem_singleton.1
  | evaluate e => exact agrees_evaluateCode e declare
  | hold e => exact agrees_throw

omit [EquivBEq (Expr K)] in
/-- While code is generated, known indices that are different have different names. -/
theorem Agrees.of_nodup {α : Type} {Q : α → Prop} {x y : Generating α} (once : c.apart → (known.map Prod.fst).Nodup)
    (h : (c.apart → (known.map Prod.snd).Nodup) → Agrees c known Q x y) : Agrees c known Q x y :=
  fun n tells => h (fun apart => (tells apart).nodup (once apart)) n tells

theorem agrees_blockCode (declared : List (Expr K)) {statements : List (Statement K)}
    (once : c.apart → (known.map Prod.fst).Nodup) (inner : ∀ s ∈ statements, s.Apart c (known.map Prod.snd)) :
    Agrees c known (Statement.Apart c (known.map Prod.snd)) (blockCode c.frame declared statements)
      (blockCode c.frame' (declared.map (permute c.p)) statements) := by
  refine .of_nodup once fun nodup => (agrees_mapM (Q := Statement.Plain) fun e _ => ?_).map fun ds plain apart chain hc => ?_
  · exact (agrees_declareTemporary e).map fun _ _ _ => mem_singleton.1
  · rcases Statement.mem_countersOf.1 hc with rfl | ⟨s, hs, hc⟩
    · simpa using nodup apart
    · rcases mem_append.1 hs with hs | hs
      · simpa [plain s hs chain hc] using nodup apart
      · exact inner s hs apart chain hc

end Statements

/-! ## Programs -/

section Programs

variable {L : Type}

theorem declaredAt_relabel [Scalar L] (r : Relabelling K L) (program : Program K) (path : List Nat) :
    (program.relabel r).declaredAt path = (program.declaredAt path).map (relabel r) := by
  rw [Program.declaredAt, Program.declaredAt, Program.relabel, find?_map]
  simp only [Function.comp_def, Prod.map_fst, id_eq]
  cases program.declared.find? fun d => d.1 == path <;> rfl

theorem keptIndices?_relabel [Scalar L] (r : Relabelling K L) (program : Program K) (e : Expr K) :
    (program.relabel r).keptIndices? (e.relabel r) = (program.keptIndices? e).map (map r.index) := by
  rw [Program.keptIndices?, Program.keptIndices?, Program.relabel, find?_map]
  simp only [Function.comp_def, Prod.map_fst, relabel_beq, Option.map_map]
  rfl

theorem declares_relabel [Scalar L] (r : Relabelling K L) (program : Program K) (op : Operation K) :
    (program.relabel r).declares (op.relabel r) = program.declares op := by
  have scalar (e : Expr K) : ((program.relabel r).keptIndices? (e.relabel r) == some []) = (program.keptIndices? e == some []) := by
    rw [keptIndices?_relabel]
    cases program.keptIndices? e with
    | none => rfl
    | some is => cases is <;> rfl
  cases op with
  | initialise e | evaluate e => exact scalar e
  | _ => rfl

mutual

theorem agrees_statementCode [EquivBEq (Expr K)] (program : Program K) (path : List Nat) (known : List (Index × String)) :
    (t : FormCompiler.Statement K) → (c.apart → t.Unrepeated (known.map Prod.fst)) →
    Agrees c known (Statement.Apart c (known.map Prod.snd)) (statementCode program c.frame path t)
      (statementCode (program.relabel (.ofPerm c.p)) c.frame' path (t.relabel (.ofPerm c.p)))
  | .run op, once => by
    rw [FormCompiler.Statement.relabel, statementCode, statementCode, declares_relabel]
    refine .of_nodup (fun apart => match once apart with | .run nodup => nodup) fun nodup => ?_
    refine (agrees_operationCode op _).mono fun s plain apart chain hc => ?_
    rw [plain chain hc, append_nil]
    exact nodup apart
  | .loop i body, once => by
    have linear : c.frame'.arguments.contains ((Relabelling.ofPerm (K := K) c.p).index i) = c.frame.arguments.contains i := by
      rw [c.arguments, Bool.eq_iff_iff]
      simp [Relabelling.ofPerm]
    rw [FormCompiler.Statement.relabel, statementCode, statementCode]
    refine Agrees.bind (agrees_lift (.returns rfl rfl (c.extents i).symm)) fun n _ => ?_
    cases n with
    | none => exact agrees_throw
    | some n =>
      by_cases zero : n = 0
      · simp only [zero, if_true]
        exact agrees_throw
      · simp only [zero, if_false, pure_bind]
        -- within the loop the index is known by its counter
        refine agrees_named fun counter => ?_
        refine (agrees_statementsCode program path 0 _ body fun apart => ?_).bind fun statements inner => ?_
        · obtain _ | ⟨-, inner⟩ := once apart
          simpa using inner
        rw [declaredAt_relabel, linear]
        refine (agrees_blockCode _ (fun apart => ?_) inner).map fun block around apart chain hc => ?_
        · obtain _ | ⟨nodup, -⟩ := once apart
          simpa using nodup
        · obtain ⟨chain, hc, rfl⟩ := mem_map.1 hc
          simpa using around apart chain ‹_›

theorem agrees_statementsCode [EquivBEq (Expr K)] (program : Program K) (path : List Nat) (n : Nat) (known : List (Index × String)) :
    (ts : List (FormCompiler.Statement K)) → (c.apart → ∀ t ∈ ts, t.Unrepeated (known.map Prod.fst)) →
    Agrees c known (fun ss => ∀ s ∈ ss, s.Apart c (known.map Prod.snd)) (statementsCode program c.frame path n ts)
      (statementsCode (program.relabel (.ofPerm c.p)) c.frame' path n (FormCompiler.Statement.relabelAll (.ofPerm c.p) ts))
  | [], _ => by
    rw [FormCompiler.Statement.relabelAll, statementsCode, statementsCode]
    exact agrees_pure nofun
  | t :: ts, once => by
    rw [FormCompiler.Statement.relabelAll, statementsCode, statementsCode]
    refine (agrees_statementCode program (path ++ [n]) known t fun apart => once apart t mem_cons_self).bind fun first here => ?_
    refine (agrees_statementsCode program path (n + 1) known ts fun apart t ht => once apart t (mem_cons_of_mem _ ht)).map ?_
    exact fun rest there => forall_mem_cons.2 ⟨here, there⟩

end

variable [EquivBEq (Expr K)]

/-- A program with its indices exchanged has the same code, and in it no loop counts a variable that is counted around it, if
names are apart and no loop of the program is over an index of a loop around it. -/
theorem agree_ofProgram {p : Equiv.Perm Index} {s s' : Session} (extents : ∀ i, s'.extents (p i) = s.extents i)
    (program : Program K) (format : NumberFormat K) (names : List (Index × String)) (roots : List (Expr K))
    (arguments : List Index) :
    Agree s s' (fun a b => a = b ∧ (Naming.Tells [] { names } ∧ (∀ t ∈ program.tree, t.Unrepeated []) →
        ∀ chain ∈ a.counters, chain.Nodup))
      (ofProgram program format names roots arguments)
      (ofProgram (program.relabel (.ofPerm p)) format (names.map (Prod.map p id)) (roots.map (permute p))
        (arguments.map p)) := by
  let c : Pairing K :=
    { p, s, s', extents, apart := Naming.Tells [] { names } ∧ ∀ t ∈ program.tree, t.Unrepeated []
      frame := { format, temporaries := temporaryNames program, kept := program.kept.foldl (fun m q => m.insert q.1 q.2) ∅,
                 roots, arguments }
      frame' := { format, temporaries := temporaryNames (program.relabel (.ofPerm p)), roots := roots.map (permute p),
                  kept := (program.relabel (.ofPerm p)).kept.foldl (fun m q => m.insert q.1 q.2) ∅,
                  arguments := arguments.map p }
      format := rfl, roots := rfl, arguments := rfl
      temporaries := by
        unfold temporaryNames
        rw [Program.relabel, zipIdx_map]
        exact Corresponds.foldl (fun q h => h.insert (relabel_beq _) q.1 _) .empty _
      kept := Corresponds.foldl (fun q h => h.insert (relabel_beq _) q.1 q.2) .empty program.kept }
  unfold ofProgram
  rw [StateT.run'_eq, StateT.run'_eq, map_eq_pure_bind, map_eq_pure_bind]
  refine Agree.bind (((agrees_statementsCode (c := c) program [] 0 [] program.tree And.right).bind (R := Statement.Apart c [])
    fun statements inner => ?_) { names } And.left) fun a b h => agree_pure ⟨h.1, h.2.2.2⟩
  rw [declaredAt_relabel]
  exact agrees_blockCode _ (fun _ => nodup_nil) inner

end Programs

/-- The code of assignments does not depend on which indices they are written with: when indices are exchanged for others
of the same extents, along with their names, the code is the same, or the refusal is. -/
theorem ofAssignments_permute [LawfulSame K] (p : Equiv.Perm Index) {s s' : Session}
    (extents : ∀ i, s'.extents (p i) = s.extents i) (assignments : List (Expr K × Expr K)) (outer : List Index)
    (removeZeros : Bool) (format : NumberFormat K) (names : List (Index × String)) (roots : List (Expr K))
    (arguments : List Index) :
    ((Program.compile (assignments.map fun a => (a.1.permute p, a.2.permute p)) (outer.map p) removeZeros >>= fun program =>
        ofProgram program format (names.map (Prod.map p id)) (roots.map (Expr.permute p)) (arguments.map p)).run.run s').1 =
      ((Program.compile assignments outer removeZeros >>= fun program =>
        ofProgram program format names roots arguments).run.run s).1 := by
  have compiled : Build.Agree s s' _ _ _ := (Program.alike_compile (.ofPerm p) assignments outer removeZeros).agree
  have code := fun program =>
    (agree_ofProgram extents program format names roots arguments).mono (T := Eq) fun _ _ => And.left
  cases compiled.bind fun program _ same => same ▸ code program with
  | returns first second same =>
    subst same
    exact (congrArg Prod.fst second).trans (congrArg Prod.fst first).symm
  | fails first second => exact (congrArg Prod.fst second).trans (congrArg Prod.fst first).symm

/-- The product of entries of two vectors. -/
def outerProduct : Expr ℚ :=
  .binary .product (.indexed (.var "u" [some 2]) [.free ⟨0⟩]) (.indexed (.var "v" [some 3]) [.free ⟨1⟩])

/-- The entry that the product is given to. -/
def outerEntry : Expr ℚ := .indexed (.var "A" [some 2, some 3]) [.free ⟨0⟩, .free ⟨1⟩]

/-- The two indices, each in place of the other. -/
def exchange : Equiv.Perm Index := Equiv.swap ⟨0⟩ ⟨1⟩

/-- The exchange changes the order in which the indices are listed as free, and not the code. -/
theorem ofAssignments_exchange :
    (outerProduct.permute exchange).freeIndices ≠ outerProduct.freeIndices.map exchange ∧
      ∀ format : NumberFormat ℚ,
        ((Program.compile [(outerEntry.permute exchange, outerProduct.permute exchange)] [] >>= fun program =>
            ofProgram program format [(⟨0⟩, "k")]).run.run { indices := #[⟨none, some 3⟩, ⟨none, some 2⟩] }).1 =
          ((Program.compile [(outerEntry, outerProduct)] [] >>= fun program =>
            ofProgram program format [(⟨1⟩, "k")]).run.run { indices := #[⟨none, some 2⟩, ⟨none, some 3⟩] }).1 := by
  have order : (outerProduct.permute exchange).freeIndices = [⟨0⟩, ⟨1⟩] ∧
      outerProduct.freeIndices.map exchange = [⟨1⟩, ⟨0⟩] := by
    simp [outerProduct, exchange, Expr.relabel, Expr.relabelSlot, Expr.freeIndices, Indices.union, Indices.insert,
      Slot.index?, Relabelling.ofPerm]
  refine ⟨by rw [order.1, order.2]; decide, fun format => ?_⟩
  refine ofAssignments_permute exchange (fun i => ?_) [(outerEntry, outerProduct)] [] false format [(⟨1⟩, "k")] [] []
  by_cases first : i = ⟨0⟩
  · subst first
    rfl
  · by_cases second : i = ⟨1⟩
    · subst second
      rfl
    · rw [exchange, Equiv.swap_apply_of_ne_of_ne first second]
      obtain ⟨n⟩ := i
      have : 2 ≤ n := by
        simp only [Index.mk.injEq] at first second
        omega
      simp [Session.extents, Array.getElem?_eq_none, this]

end Code

end FormCompiler
