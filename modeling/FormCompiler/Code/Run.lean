import FormCompiler.Code.Basic
import Std.Data.HashMap

/-!
# Running code

What the code of a kernel computes. Memory holds arrays by name; a symbol with positions is one entry of an array. Truth values
are one and zero. Functions and the reading of a number as a position are left to a machine.
-/

namespace FormCompiler

namespace Code

variable {K : Type} [Scalar K]

/-- What numbers can do besides arithmetic. -/
structure Machine (K : Type) where
  call : String → List K → Option K
  position : K → Option Nat

structure Cells (K : Type) where
  extents : List Nat
  entries : Array K
  deriving Inhabited

/-- Arrays and counters by name. -/
structure Memory (K : Type) where
  arrays : Std.HashMap String (Cells K) := ∅
  counters : Std.HashMap String Nat := ∅
  deriving Inhabited

/-- Why code cannot go on. -/
inductive Fault where
  | unknown (name : String)
  | outside (name : String)
  | malformed
  deriving Repr

/-- The place of an entry in an array, row by row. -/
def Cells.offset (extents : List Nat) (positions : List Nat) : Nat :=
  (extents.zip positions).foldl (fun acc (n, p) => acc * n + p) 0

def operate (op : Operator) (args : List K) : Except Fault K :=
  match op, args with
  | .sum, [a, b] => .ok (Scalar.add a b)
  | .product, [a, b] => .ok (Scalar.mul a b)
  | .quotient, [a, b] => .ok (Scalar.div a b)
  | .compare c, [a, b] => .ok (Scalar.ofBool (Scalar.compare c a b))
  | .negation, [a] => .ok (Scalar.ofBool (Scalar.isZero a))
  | .conjunction, [a, b] => .ok (Scalar.ofBool (!Scalar.isZero a && !Scalar.isZero b))
  | .disjunction, [a, b] => .ok (Scalar.ofBool (!Scalar.isZero a || !Scalar.isZero b))
  | .ternary, [c, a, b] => .ok (if Scalar.isZero c then b else a)
  | _, _ => .error .malformed

/-- The value of a symbol without positions: a counter, a number written out, or an array of one entry. -/
def plainValue (m : Memory K) (name : String) : Except Fault K :=
  match m.counters[name]? with
  | some n => .ok (Scalar.ofInt n)
  | none => match m.arrays[name]? with
    | some cells => match cells.entries[0]? with
      | some x => .ok x
      | none => .error (.outside name)
    | none => match name.toInt? with
      | some n => .ok (Scalar.ofInt n)
      | none => .error (.unknown name)

def entryValue (m : Memory K) (name : String) (positions : List Nat) : Except Fault K :=
  match m.arrays[name]? with
  | none => .error (.unknown name)
  | some cells => match cells.entries[Cells.offset cells.extents positions]? with
    | some x => .ok x
    | none => .error (.outside name)

def shifted (offset : Option (List (Int × Int))) (positions : List Nat) : List Nat :=
  match offset with
  | none => positions
  | some os => (positions.zip os).map fun (p, factor, shift) => (Int.ofNat p * factor + shift).toNat

mutual

def evaluate (machine : Machine K) (m : Memory K) : Value K → Except Fault K
  | .symbol name [] _ => plainValue m name
  | .symbol name (r :: rs) offset => do
    let first ← position machine m r
    let rest ← positions machine m rs
    entryValue m name (shifted offset (first :: rest))
  | .number x _ => .ok x
  | .apply op args => do operate op (← evaluateAll machine m args)
  | .call function args => do
    match machine.call function (← evaluateAll machine m args) with
    | some x => .ok x
    | none => .error (.unknown function)

/-- The values of several pieces of code. -/
def evaluateAll (machine : Machine K) (m : Memory K) : List (Value K) → Except Fault (List K)
  | [] => .ok []
  | v :: vs => do
    let x ← evaluate machine m v
    .ok (x :: (← evaluateAll machine m vs))

def position (machine : Machine K) (m : Memory K) : Rank (Value K) → Except Fault Nat
  | .fixed n => .ok n.toNat
  | .named name => match m.counters[name]? with
    | some n => .ok n
    | none => .error (.unknown name)
  | .printed e => do
    match machine.position (← evaluate machine m e) with
    | some n => .ok n
    | none => .error .malformed
  | .nested e => do
    match machine.position (← evaluate machine m e) with
    | some n => .ok n
    | none => .error .malformed

def positions (machine : Machine K) (m : Memory K) : List (Rank (Value K)) → Except Fault (List Nat)
  | [] => .ok []
  | r :: rs => do
    let n ← position machine m r
    .ok (n :: (← positions machine m rs))

end

/-- The array and the place that a symbol stands for. -/
def target (machine : Machine K) (m : Memory K) : Value K → Except Fault (String × Nat)
  | .symbol name rank offset => do
    let ps ← positions machine m rank
    match m.arrays[name]? with
    | some cells => .ok (name, Cells.offset cells.extents (shifted offset ps))
    | none => .error (.unknown name)
  | _ => .error .malformed

/-- Change the entry that a symbol stands for. -/
def store (machine : Machine K) (m : Memory K) (v : Value K) (f : K → K) : Except Fault (Memory K) := do
  let (name, place) ← target machine m v
  .ok { m with arrays := m.arrays.modify name fun cells => { cells with entries := cells.entries.modify place f } }

def declaredExtents (rank : List (Rank (Value K))) : List Nat :=
  rank.map fun r => match r with
    | .fixed n => n.toNat
    | _ => 1

/-- Make room for a declared symbol, with what it starts with. -/
def declare (machine : Machine K) (m : Memory K) (d : Declaration K) : Except Fault (Memory K) := do
  let extents := declaredExtents d.rank
  let cells : Cells K ← match d.initial with
    | none | some .zero => pure ⟨extents, Array.replicate (extents.foldl (· * ·) 1) Scalar.zero⟩
    | some (.value v) => pure ⟨[], #[← evaluate machine m v]⟩
    | some (.entries shape vs _) => pure ⟨shape, (← evaluateAll machine m vs).toArray⟩
    | some (.table t _) => pure ⟨t.shape, t.entries⟩
  .ok { m with arrays := m.arrays.insert d.name cells }

mutual

def run (machine : Machine K) (m : Memory K) : Statement K → Except Fault (Memory K)
  | .declare d => declare machine m d
  | .clear v => store machine m v fun _ => Scalar.zero
  | .assign v e => do
    let x ← evaluate machine m e
    store machine m v fun _ => x
  | .increment v e _ => do
    let x ← evaluate machine m e
    store machine m v fun y => Scalar.add y x
  | .loop counter extent body _ =>
    (List.range extent.toNat).foldlM (fun m k =>
      run machine { m with counters := m.counters.insert counter k } body) m
  | .block statements _ => runAll machine m statements

def runAll (machine : Machine K) (m : Memory K) : List (Statement K) → Except Fault (Memory K)
  | [] => .ok m
  | s :: ss => do runAll machine (← run machine m s) ss

end

end Code

end FormCompiler
