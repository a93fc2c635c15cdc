import FormCompiler.Evaluation
import FormCompiler.Expr.Traversal
import FormCompiler.Expr.View
import FormCompiler.Rewrite.Substitution

/-!
# Concatenations taken apart

An assignment to a variable along the index of a concatenation becomes one assignment for each part, to a part of the
variable. The index is split into the indices of the parts, which are kept, so that the same index is split the same
way each time. Where this is not wanted, a constant concatenation can be made into a table.
-/

namespace FormCompiler

namespace Concatenation

variable {K : Type} [Scalar K]

/-! ## Finding concatenations -/

/-- The entries of concatenations along one index that have been found. -/
structure Group (K : Type) where
  slot : Option (Slot (Expr K)) := none
  entries : List (Expr K) := []

/-- Visit nodes that depend on the free indices, and gather the entries of concatenations along the first index. -/
def gatherGroup (free : List Index) (seen : Std.HashSet (Expr K)) (group : Group K) :
    List (Expr K) → Build (Group K)
  | [] => return group
  | e :: stack => do
    if !Indices.meet free e.freeIndices then gatherGroup free seen group stack
    else
      let found ← match e with
        | .indexed (.concatenate _) [slot] => do
          Build.require (slot.index?.any free.contains)
          match group.slot with
          | none => pure (some (⟨some slot, [e]⟩ : Group K))
          | some s => pure (if s == slot then some { group with entries := group.entries ++ [e] } else none)
        | .indexed (.concatenate _) _ => throw .malformed
        | _ => pure none
      match found with
      | some group => gatherGroup free seen group stack
      | none =>
        let next := Expr.pushUnseen seen stack e.children.reverse
        gatherGroup free next.1 group next.2
termination_by stack => Expr.stackSize stack
decreasing_by
  · simp only [Expr.stackSize]
    have : 0 < sizeOf e := by cases e <;> simp +arith
    omega
  · simp only [Expr.stackSize]
    have : 0 < sizeOf e := by cases e <;> simp +arith
    omega
  · have h1 := Expr.stackSize_pushUnseen seen stack e.children.reverse
    have h2 := Expr.stackSize_children_lt e
    rw [Expr.stackSize_reverse] at h1
    simp only [Expr.stackSize]
    omega

/-- The entries of concatenations along one index, none if there is no concatenation. -/
def findGroup (roots : List (Expr K)) : Build (Option (List (Expr K))) := do
  let free := Indices.ofList (roots.flatMap fun e => e.freeIndices)
  let start := Expr.pushUnseen ∅ [] roots
  let group ← gatherGroup free start.1 {} start.2
  return group.slot.map fun _ => group.entries

/-! ## Splitting -/

/-- The parts of a variable along an index, one for each multi-index, from an offset on. -/
def splitVariable (variable_ : Expr K) (index : Index) (parts : List (List Index)) : Build (List (Expr K)) := do
  let .access _ _ _ := variable_ | throw (.requirement "")
  let order := (variable_.indexOrder?).getD []
  if !order.contains index then throw .malformed
  let others := order.erase index
  let data ← Build.tensorOver variable_ (index :: others)
  let otherShapes ← others.mapM fun i => do return [← Build.knownExtent i]
  let (refs, _) ← parts.foldlM (fun (acc, offset) part => do
    let shape ← part.mapM Build.knownExtent
    let size := shape.foldl (· * ·) 1
    let piece ← Build.view data (Slice.range offset (offset + size) :: others.map fun _ => Slice.all)
    let piece ← Build.reshape piece (shape :: otherShapes)
    let entry ← Build.indexedAt piece (part ++ others)
    return (acc ++ [← Rewrite.inlineComponent entry], offset + size)) (([] : List (Expr K)), (0 : Int))
  return refs

abbrev Splits := List (Index × List (List Index))

/-- How an index is split, given the parts of the concatenation; a known split is kept. -/
def splitOf (splits : Splits) (index : Index) (parts : List (Expr K)) : Build (Splits × List (List Index)) := do
  match splits.find? fun p => p.1 == index with
  | some (_, known) => return (splits, known)
  | none =>
    let fresh ← parts.mapM fun p => Build.freshIndices p.shape
    return (splits ++ [(index, fresh)], fresh)

def partsOf : Expr K → List (Expr K)
  | .indexed (.concatenate parts) _ => parts
  | _ => []

abbrev Assignment (K : Type) := Expr K × Expr K

def replacements (group : List (Expr K)) (parts : List (List Index)) :
    Build (List (Std.HashMap (Expr K) (Expr K))) :=
  group.foldlM (fun tables e => do
    let entries ← parts.zipIdx.mapM fun (part, n) => do
      match (partsOf e)[n]? with
      | none => throw .outOfRange
      | some p => Rewrite.inlineComponent (← Build.indexedAt p part)
    return (tables.zip entries).map fun (t, r) => t.insert e r) (parts.map fun _ => ∅)

def splitAlong (index : Index) (group : List (Expr K)) (parts : List (List Index))
    (assignments : List (Assignment K)) : Build (List (Assignment K)) := do
  let tables ← replacements group parts
  let independent := fun (e : Expr K) => !e.freeIndices.contains index
  let split ← assignments.mapM fun (v, e) => do
    if !v.freeIndices.contains index then return [(v, e)]
    let vs ← splitVariable v index parts
    (vs.zip tables).mapM fun (v, table) => do return (v, ← Rewrite.replaceNodes e table independent)
  return split.flatten

/-- The outcome of a computation, kept as a value. -/
def attempt {α : Type} (x : Build α) : Build (Except Error α) :=
  tryCatch (do return .ok (← x)) fun e => return .error e

/-- Split the assignments group by group, in at most `n` rounds. The splits of indices outlive a refusal. -/
def splitRounds : Nat → Splits → List (Assignment K) → Build (Splits × Except Error (List (Assignment K)))
  | 0, splits, _ => return (splits, .error .endless)
  | n + 1, splits, assignments => do
    match ← attempt (findGroup (assignments.map Prod.snd)) with
    | .error e => return (splits, .error e)
    | .ok none => return (splits, .ok assignments)
    | .ok (some group) =>
      match group with
      | .indexed (.concatenate concatenated) [.free index] :: _ =>
        let (splits, parts) ← splitOf splits index concatenated
        match ← attempt (splitAlong index group parts assignments) with
        | .error e => return (splits, .error e)
        | .ok assignments => splitRounds n splits assignments
      | _ => return (splits, .error .malformed)

/-- How many groups may follow one another. -/
def maxRounds : Nat := 900

/-- Split assignments along concatenations, with known splits of indices; gives the splits afterwards too. -/
def splitWith (splits : Splits) (assignments : List (Assignment K)) :
    Build (Splits × Except Error (List (Assignment K))) := do
  match ← attempt (Rewrite.inlineComponents (assignments.map Prod.snd)) with
  | .error e => return (splits, .error e)
  | .ok es => splitRounds maxRounds splits ((assignments.map Prod.fst).zip es)

def split (assignments : List (Assignment K)) : Build (List (Assignment K)) := do
  match (← splitWith [] assignments).2 with
  | .ok r => return r
  | .error e => throw e

/-! ## Tables -/

def flattenStep : Expr.Step K (Rewrite.Pass K) (Expr K) := fun e self =>
  match e with
  | .concatenate parts => liftM (m := Build) do
    match ← Evaluation.evaluate [Expr.concatenate parts] with
    | [⟨indices, .numbers t⟩] => Build.partialIndexed (← Build.literal t) (indices.map .free)
    | _ => throw .malformed
  | e => Expr.reuse e self

def flatten (es : List (Expr K)) : Build (List (Expr K)) := Expr.mapMemo flattenStep es

end Concatenation

end FormCompiler
