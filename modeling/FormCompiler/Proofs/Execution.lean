import FormCompiler.Proofs.Valuation
import FormCompiler.Schedule.Program

/-!
# Running loop programs

A run keeps the contents of variables and the temporaries, each by the positions of its free indices. An expression is
read like its value, except that a node with a temporary is looked up; a run stops where a temporary is read that has
not been stored. Loops run their index from zero up to its extent.
-/

namespace FormCompiler

/-- What a run keeps: the contents of variables, and the temporaries stored so far. -/
structure RunState (K : Type) where
  contents : String → Shape → List Int → K
  stored : Expr K → List Int → Option (List Int → Option K)

/-- One entry of a variable. -/
structure VarEntry where
  name : String
  shape : Shape
  entry : List Int
  deriving DecidableEq

variable {K : Type} [Scalar K] [Field K]

/-- The entry that a variable of an assignment addresses. -/
def placeOf (env : Environment K) (ρ : Valuation) : Expr K → Option VarEntry
  | .var name shape => some ⟨name, shape, []⟩
  | .indexed (.var name shape) slots => some ⟨name, shape, slots.map (Expr.position env ρ)⟩
  | .access name shape dims => some ⟨name, shape, dims.map fun d => d.at ρ⟩
  | _ => none

namespace RunState

/-- The environment of a run: variables hold what the run has put there. -/
def environment (env : Environment K) (st : RunState K) : Environment K := { env with tensor := st.contents }

/-- Store a temporary at the positions of its free indices. -/
def store (st : RunState K) (e : Expr K) (ρ : Valuation) (f : List Int → Option K) : RunState K :=
  { st with stored := fun e' at_ => if e' == e && at_ == ρ.on e.freeIndices then some f else st.stored e' at_ }

/-- The temporary of an expression at the positions of its free indices. -/
def load (st : RunState K) (e : Expr K) (ρ : Valuation) : Option (List Int → Option K) :=
  st.stored e (ρ.on e.freeIndices)

/-- Add a number to an entry of a variable. -/
def addTo (st : RunState K) (p : VarEntry) (x : K) : RunState K :=
  { st with contents := fun name shape idx =>
      st.contents name shape idx + if (⟨name, shape, idx⟩ : VarEntry) = p then x else 0 }

end RunState

/-- Read an expression: a node with a temporary is looked up, any other is computed from its parts. -/
def Expr.read (temporaries : List (Expr K)) (env : Environment K) (st : RunState K) (e : Expr K) : Reading K Option :=
  fun ρ idx =>
    if temporaries.contains e then (st.load e ρ).bind (· idx)
    else meaningStep (st.environment env) e (fun c h ρ idx =>
      have := sizeOf_lt_of_mem_parts h
      c.read temporaries env st ρ idx) ρ idx
termination_by sizeOf e

/-- Compute a node from its parts, whether or not it has a temporary itself. -/
def Expr.readNode (temporaries : List (Expr K)) (env : Environment K) (st : RunState K) (e : Expr K) :
    Reading K Option :=
  meaningStep (st.environment env) e fun c _ => c.read temporaries env st

/-- Are there as many positions as dimensions, none below zero or beyond a known extent? -/
def within : Shape → List Int → Bool
  | [], [] => true
  | n :: s, i :: is => decide (0 ≤ i) && n.all (fun n => decide (i < n)) && within s is
  | _, _ => false

theorem within_cons {n : Extent} {s : Shape} {i : Int} {is : List Int} :
    within (n :: s) (i :: is) = true ↔ (0 ≤ i ∧ ∀ m, n = some m → i < m) ∧ within s is = true := by
  cases n <;> simp [within]

theorem within_iff_forall₂ {shape : Shape} {idx : List Int} :
    within shape idx = true ↔ List.Forall₂ (fun (n : Extent) i => 0 ≤ i ∧ ∀ m, n = some m → i < m) shape idx := by
  induction shape generalizing idx with
  | nil => cases idx <;> simp [within]
  | cons n s ih => cases idx with
    | nil => simp [within]
    | cons i is => rw [within_cons, List.forall₂_cons, ih]

/-- The entries of a table that lie in its shape. -/
def cropped (shape : Shape) (f : List Int → Option K) : List Int → Option K := fun idx =>
  if within shape idx then f idx else none

/-- Has a table of known extents all its entries? -/
def completeTable (shape : Shape) (f : List Int → Option K) : Bool :=
  match Shape.toNats? shape with
  | some extents => (tuples extents).all fun idx => (f (idx.map Int.ofNat)).isSome
  | none => true

/-- Run one operation at the positions of the loops around it. -/
def Operation.run (temporaries : List (Expr K)) (env : Environment K) (ρ : Valuation) (st : RunState K) :
    Operation K → Option (RunState K)
  | .evaluate e =>
    let f := e.readNode temporaries env st ρ
    if completeTable e.shape f then some (st.store e ρ (cropped e.shape f)) else none
  | .initialise s => some (st.store s ρ fun _ => some 0)
  | .accumulate s => do
    let x ← (st.load s ρ).bind (· [])
    let y ← (Operation.summand s).read temporaries env st ρ []
    return st.store s ρ fun _ => some (x + y)
  | .hold _ => some st
  | .give v e => do
    let p ← placeOf (st.environment env) ρ v
    return st.addTo p (← e.read temporaries env st ρ [])
  | .giveSum v s => do
    let p ← placeOf (st.environment env) ρ v
    return st.addTo p (← (Operation.summand s).read temporaries env st ρ [])

namespace Statement

mutual

/-- Run a statement. A loop runs its body with its index at each position in turn. -/
def exec (temporaries : List (Expr K)) (env : Environment K) (size : Index → Nat) :
    Statement K → Valuation → RunState K → Option (RunState K)
  | .run op, ρ, st => op.run temporaries env ρ st
  | .loop i body, ρ, st =>
    (List.range (size i)).foldlM (fun st (n : Nat) => execAll temporaries env size body (ρ.set i n) st) st

/-- Run the statements of a block one after the other. -/
def execAll (temporaries : List (Expr K)) (env : Environment K) (size : Index → Nat) :
    List (Statement K) → Valuation → RunState K → Option (RunState K)
  | [], _, st => some st
  | s :: ss, ρ, st => do execAll temporaries env size ss ρ (← exec temporaries env size s ρ st)

end

end Statement

/-- Run a program from given contents of variables, without temporaries. -/
def Program.exec (env : Environment K) (size : Index → Nat) (p : Program K) (ρ : Valuation) : Option (RunState K) :=
  Statement.execAll p.temporaries env size p.tree ρ ⟨env.tensor, fun _ _ => none⟩

end FormCompiler
