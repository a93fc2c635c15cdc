import FormCompiler.Expr.Recursion

/-!
# Rewriting node by node

Passes that replace nodes of one kind wherever they stand: literals are rounded, divisions become products with a
reciprocal, deltas become entries of a unit matrix, sums over chosen indices are written out, and choices become
sums of masked branches.
-/

namespace FormCompiler

namespace Rewrite

variable {K : Type} [Scalar K]

/-- Results kept by a pass. -/
abbrev Pass (K : Type) [Scalar K] := Expr.MemoBuild K (Expr K)

/-! ## Rounding of literals -/

/-- A value close to a multiple of a tenth is taken to be it; no zero is negative. -/
def roundNear (epsilon x : K) : K :=
  let tenth := Scalar.roundTenth x
  let tenth := if Scalar.isZero tenth then Scalar.zero else tenth
  if Scalar.less (Scalar.abs (Scalar.sub x tenth)) epsilon then tenth else x

def roundStep (epsilon : K) : Expr.Step K (Pass K) (Expr K) := fun e self =>
  match e with
  | .literal t _ => liftM (Build.literal (t.map (roundNear epsilon)))
  | e => Expr.reuse e self

def roundLiterals (e : Expr K) (epsilon : K) : Build (Expr K) :=
  (Expr.memoise (roundStep epsilon) e).run' ∅

/-! ## Division -/

/-- A quotient becomes a product with a reciprocal. -/
def reciprocalStep : Expr.Step K (Pass K) (Expr K) := fun e self =>
  match e with
  | .binary .quotient a b => do
    let a' ← self a (Expr.sizeOf_left .quotient a b)
    let b' ← self b (Expr.sizeOf_right .quotient a b)
    let r ← liftM (Build.quotient Build.one b')
    liftM (Build.product a' r)
  | e => Expr.reuse e self

/-- Write quotients as products with reciprocals. -/
def reciprocals (es : List (Expr K)) : Build (List (Expr K)) := Expr.mapMemo reciprocalStep es

/-! ## Deltas -/

def slotValue : Slot (Expr K) → Build (Expr K)
  | .fixed n => Build.number (Scalar.ofInt n)
  | .runtime e => pure e
  | .free _ => throw (.invalid "Cannot convert running index to expression.")

/-- The extent of a running index, which must be known. -/
def deltaExtent (i : Index) : Build Int := do
  match ← Build.extent i with
  | some n => return n
  | none => throw (.requirement "")

/-- A delta as an entry of a unit matrix, or as a choice if neither index is running. -/
def lowerDelta (i j : Slot (Expr K)) : Build (Expr K) := do
  match i, j with
  | .free a, .free b =>
    Build.require ((← Build.extent a) == (← Build.extent b))
    let n ← deltaExtent a
    Build.indexed (.identity n.toNat) [i, j]
  | .free a, _ => Build.indexed (.identity (← deltaExtent a).toNat) [i, j]
  | _, .free b => Build.indexed (.identity (← deltaExtent b).toNat) [i, j]
  | _, _ =>
    let a ← slotValue i
    let b ← slotValue j
    Build.conditional (← Build.plainBinary (.compare .equal) a b) Build.one Build.zero

def deltaStep : Expr.Step K (Pass K) (Expr K) := fun e self =>
  match e with
  | .delta i j => liftM (lowerDelta i j)
  | e => Expr.reuse e self

/-- Write deltas as entries of unit matrices. -/
def lowerDeltas (es : List (Expr K)) : Build (List (Expr K)) := Expr.mapMemo deltaStep es

/-! ## Unrolling -/

/-- The sum of the summand over all positions of the unrolled indices. -/
def unrolledSum (summand : Expr K) (unroll : List Binder) : Build (Expr K) :=
  (tuples (unroll.map fun b => b.2.toNat)).foldlM (fun acc positions => do
    let tensor ← Build.tensorOver summand (unroll.map Prod.fst)
    Build.sum acc (← Build.entryAt tensor positions)) Build.zero

/-- Write out sums over the indices that the predicate selects. -/
def unrollStep (predicate : Binder → Bool) : Expr.Step K (Pass K) (Expr K) := fun e self =>
  match e with
  | .indexSum body binders =>
    let unroll := binders.filter predicate
    if unroll.isEmpty then Expr.reuse (.indexSum body binders) self
    else do
      let summand ← self body (Expr.sizeOf_summand body binders)
      let total ← liftM (unrolledSum summand unroll)
      let chosen := unroll.map Prod.fst
      liftM (Build.sumOver total ((binders.map Prod.fst).filter fun i => !chosen.contains i))
  | e => Expr.reuse e self

/-- Write out the sums over selected indices. -/
def unrollSums (es : List (Expr K)) (predicate : Binder → Bool) : Build (List (Expr K)) :=
  Expr.mapMemo (unrollStep predicate) es

/-! ## Choices -/

/-- A selected choice becomes the sum of its branches, each with a factor that is one where the branch is taken. -/
def expandStep (predicate : Expr K → Bool) : Expr.Step K (Pass K) (Expr K) := fun e self =>
  match e with
  | .conditional c y n =>
    if predicate (.conditional c y n) then do
      let c' ← self c (Expr.sizeOf_condition c y n)
      let y' ← self y (Expr.sizeOf_yes c y n)
      let n' ← self n (Expr.sizeOf_no c y n)
      liftM (m := Build) do
        let first ← Build.product (← Build.conditional c' Build.one Build.zero) y'
        let second ← Build.product (← Build.conditional c' Build.zero Build.one) n'
        Build.sum first second
    else Expr.reuse (.conditional c y n) self
  | e => Expr.reuse e self

/-- Write selected choices as sums. -/
def expandConditionals (es : List (Expr K)) (predicate : Expr K → Bool) : Build (List (Expr K)) :=
  Expr.mapMemo (expandStep predicate) es

/-! ## Replacement of given nodes -/

/-- Replace the nodes of a table; below a cut nothing is replaced. -/
def replaceStep (table : Std.HashMap (Expr K) (Expr K)) (cut : Expr K → Bool) :
    Expr.Step K (Pass K) (Expr K) := fun e self =>
  if cut e then return e
  else match table[e]? with
    | some r => return r
    | none => Expr.reuse e self

def replaceNodes (e : Expr K) (table : Std.HashMap (Expr K) (Expr K)) (cut : Expr K → Bool) : Build (Expr K) :=
  (Expr.memoise (replaceStep table cut) e).run' ∅

end Rewrite

end FormCompiler
