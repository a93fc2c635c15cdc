import FormCompiler.Error

/-!
# A queue that follows loops

Elements wait under the loops they belong to. The next one comes from the current loops as long as these have any;
then loops are left from the inside out until some element waits under what is left, and the first such loops are
entered. Elements under the same loops come out last in, first out.
-/

namespace FormCompiler

/-- Elements waiting under lists of loops. Loops stand in the order in which they were entered into the queue. -/
structure Queue (κ α : Type) where
  waiting : List (List κ × List α) := []
  /-- The loops that are being emptied, if any. -/
  current : Option (List κ) := none

namespace Queue

variable {κ α : Type} [BEq κ]

/-- Put an element last under its loops. -/
def insertInto (loops : List κ) (a : α) : List (List κ × List α) → List (List κ × List α)
  | [] => [(loops, [a])]
  | (key, as) :: rest => if key == loops then (key, as ++ [a]) :: rest else (key, as) :: insertInto loops a rest

/-- Put an element last under its loops. -/
def insert (q : Queue κ α) (loops : List κ) (a : α) : Queue κ α :=
  { q with waiting := insertInto loops a q.waiting }

/-- The first waiting loops that continue the given ones, which are left from the inside out until some do. -/
def nextLoops (waiting : List (List κ × List α)) : Nat → List κ → Option (List κ)
  | 0, _ => (waiting.head?).map Prod.fst
  | n + 1, loops =>
    match waiting.find? fun p => p.1.take loops.length == loops with
    | some p => some p.1
    | none => nextLoops waiting n loops.dropLast

/-- One step: the element to be treated next, or none if loops were left or entered; `none` at the end. -/
def step (q : Queue κ α) : Option (Option α × Queue κ α) :=
  let enter := fun (waiting : List (List κ × List α)) (loops : List κ) =>
    if waiting.isEmpty then none
    else some (none, { waiting, current := nextLoops waiting loops.length loops })
  match q.current with
  | none => enter q.waiting []
  | some loops =>
    match q.waiting.find? fun p => p.1 == loops with
    | some (_, as) =>
      match as.getLast? with
      | some a =>
        let waiting := q.waiting.map fun p => if p.1 == loops then (p.1, p.2.dropLast) else p
        some (some a, { q with waiting })
      | none => enter (q.waiting.filter fun p => !(p.1 == loops)) loops
    | none => enter q.waiting loops

/-- Treat waiting elements, which may put further ones into the queue, in at most `fuel` steps. -/
def process {m : Type → Type} [Monad m] (treat : α → StateT (Queue κ α) m Unit) : Nat → StateT (Queue κ α) m Unit
  | 0 => return
  | fuel + 1 => do
    match (← get).step with
    | none => return
    | some (a?, q) =>
      set q
      if let some a := a? then treat a
      process treat fuel

end Queue

/-! ## Reference counts -/

/-- How many references to each object are still to come. -/
structure Stager (α : Type) where
  waiting : List (α × Nat)

namespace Stager

variable {α : Type} [BEq α]

/-- Take away one reference; tells whether it was the last. -/
def release (s : Stager α) (a : α) : Except Error (Stager α × Bool) :=
  match s.waiting.find? fun p => p.1 == a with
  | none => .error .missing
  | some (_, 0) => .error (.requirement "")
  | some (_, n + 1) => .ok (⟨s.waiting.map fun p => if p.1 == a then (p.1, n) else p⟩, n == 0)

def isEmpty (s : Stager α) : Bool := s.waiting.all fun p => p.2 == 0

end Stager

end FormCompiler
