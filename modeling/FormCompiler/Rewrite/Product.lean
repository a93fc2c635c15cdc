import FormCompiler.Rewrite.Substitution

/-!
# Products and sums taken apart

A tree of products, with sums over indices inside, is taken apart into the indices to be summed over and the
factors; indices that clash are renamed. A tree of sums is taken apart into its summands.
-/

namespace FormCompiler

namespace Rewrite

variable {K : Type} [Scalar K]

/-! ## Renaming -/

/-- Which index is renamed to which, kept so that the same index is renamed the same way each time. -/
abbrev RenameMap := List (Index × Index)

/-- The indices that are in use, and the names given so far. -/
structure Renamer where
  names : RenameMap
  inUse : List Index := []

abbrev Renaming := StateT Renamer Build

def nextName (i : Index) : Renaming Index := do
  let r ← get
  match r.names.find? fun p => p.1 == i with
  | some (_, j) => return j
  | none =>
    let j ← liftM (Build.freshIndex none)
    set { r with names := r.names ++ [(i, j)] }
    return j

/-- The first name from an index on that is not in use, `n` steps away at most. -/
def unusedName : Nat → Index → Renaming Index
  | 0, i => return i
  | n + 1, i => do
    if (← get).inUse.contains i then unusedName n (← nextName i) else return i

/-- Take an index into use, under another name if it is in use already. -/
def takeName (i : Index) : Renaming Index := do
  let j ← unusedName ((← get).inUse.length + 1) i
  modify fun r => { r with inUse := r.inUse ++ [j] }
  return j

/-- Take indices into use: their names, and which of them are new. -/
def takeNames (is : List Index) : Renaming (List Index × List (Index × Index)) := do
  let js ← is.mapM takeName
  return (js, (is.zip js).filter fun (i, j) => i != j)

def applyNames (names : List (Index × Index)) (e : Expr K) : Build (Expr K) := do
  let relevant := names.filter fun p => e.freeIndices.contains p.1
  if relevant.isEmpty then return e
  Build.indexedAt (← Build.tensorOver e (relevant.map Prod.fst)) (relevant.map Prod.snd)

/-! ## Products -/

/-- The factors of a tree of products, and the indices that are summed over. -/
structure Factors (K : Type) where
  sumIndices : List Index := []
  terms : List (Expr K) := []

/-- Take apart a tree of products of at most the given height, from left to right. -/
def collectFactors (stopAt : Expr K → Bool) : Nat → Expr K → Factors K → Renaming (Factors K)
  | 0, e, acc => return { acc with terms := acc.terms ++ [e] }
  | height + 1, e, acc => do
    if stopAt e then return { acc with terms := acc.terms ++ [e] }
    match e with
    | .indexSum body binders =>
      let (indices, names) ← takeNames (binders.map Prod.fst)
      let body ← liftM (m := Build) do inlineComponent (← applyNames names body)
      collectFactors stopAt height body { acc with sumIndices := acc.sumIndices ++ indices }
    | .binary .product a b =>
      collectFactors stopAt height b (← collectFactors stopAt height a acc)
    | .binary .quotient a b =>
      if a == Build.one then return { acc with terms := acc.terms ++ [e] }
      let reciprocal ← liftM (Build.quotient Build.one b)
      let acc ← collectFactors stopAt height a acc
      return { acc with terms := acc.terms ++ [reciprocal] }
    | _ => return { acc with terms := acc.terms ++ [e] }

/-- The indices to be summed over and the factors. Where `stopAt` holds, a product is left whole. -/
def factors (e : Expr K) (stopAt : Expr K → Bool := fun _ => false) : Build (Factors K) :=
  (collectFactors stopAt (e.height + 1) e {}).run' { names := [] }

/-! ## Sums -/

/-- The summands of a tree of sums, from left to right. Where `stopAt` holds, a sum is left whole. -/
def summands (stopAt : Expr K → Bool) : Expr K → List (Expr K)
  | .binary op a b =>
    if stopAt (.binary op a b) then [.binary op a b]
    else match op with
      | .sum => summands stopAt a ++ summands stopAt b
      | _ => [.binary op a b]
  | e => [e]

end Rewrite

end FormCompiler
