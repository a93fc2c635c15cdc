import FormCompiler.Expr.Text
import FormCompiler.Grouping
import FormCompiler.Rewrite.Local

/-!
# Evaluation

The value of an expression under given variables, for all positions of its free indices at once: an array whose first
axes are the free indices, in the order in which they are met, and whose other axes are the shape. Comparisons give
arrays of truth values, all else arrays of numbers.
-/

namespace FormCompiler

namespace Evaluation

variable {K : Type} [Scalar K]

/-- An array of numbers or of truth values. -/
inductive Values (K : Type) where
  | numbers (t : Tensor K)
  | truths (t : Tensor Bool)

namespace Values

def shape : Values K → List Nat
  | .numbers t => t.shape
  | .truths t => t.shape

def isTruth : Values K → Bool
  | .numbers _ => false
  | .truths _ => true

def number (v : Values K) (idx : List Nat) : K :=
  match v with
  | .numbers t => t.get idx
  | .truths t => Scalar.ofBool (t.entries.getD (position t.shape idx) false)

def truth (v : Values K) (idx : List Nat) : Bool :=
  match v with
  | .numbers t => !Scalar.isZero (t.get idx)
  | .truths t => t.entries.getD (position t.shape idx) false

/-- The array of other extents whose entries are found at positions of this one. -/
def gather (v : Values K) (shape : List Nat) (source : List Nat → List Nat) : Values K :=
  match v with
  | .numbers t => .numbers (Tensor.ofFn shape fun idx => t.get (source idx))
  | .truths t =>
    .truths ⟨shape, ((tuples shape).map fun idx => t.entries.getD (position t.shape (source idx)) false).toArray⟩

end Values

/-- An array with the free indices of its first axes. -/
structure Result (K : Type) where
  indices : List Index := []
  values : Values K

namespace Result

def freeShape (r : Result K) : List Nat := r.values.shape.take r.indices.length

def shape (r : Result K) : List Nat := r.values.shape.drop r.indices.length

/-- The position in this array of a position over other indices followed by the shape. -/
def locate (r : Result K) (indices : List Index) (idx : List Nat) : List Nat :=
  r.indices.map (fun i => idx.getD (indices.findIdx (· == i)) 0) ++ idx.drop indices.length

/-- The entry at a position over other indices, as a number. -/
def numberAt (r : Result K) (indices : List Index) (idx : List Nat) : K := r.values.number (r.locate indices idx)

/-- The entry at a position over other indices, as a truth value. -/
def truthAt (r : Result K) (indices : List Index) (idx : List Nat) : Bool := r.values.truth (r.locate indices idx)

def axis (r : Result K) (i : Index) : Build Nat :=
  match r.indices.findIdx? (· == i) with
  | some n => return n
  | none => throw .malformed

end Result

/-- The free indices of several results, in the order in which they are met, and the common extents. -/
def commonFrame : List (Result K) → Build (List Index × List Nat)
  | [] => throw .outOfRange
  | r :: rs => do
    Build.require ((r :: rs).all fun s => s.shape == r.shape)
    let indices := distinct ((r :: rs).flatMap Result.indices)
    let extents ← indices.mapM Build.knownExtent
    return (indices, extents.map Int.toNat ++ r.shape)

def requireSingleAxes (indices : List Index) (r : Result K) : Build Unit :=
  Build.require ((indices.filter r.indices.contains).length == r.indices.length)

/-- A number for each position of the common frame. -/
def numbersOver (rs : List (Result K)) (f : List Index → List Nat → Build K) : Build (Result K) := do
  let (indices, shape) ← commonFrame rs
  let entries ← (tuples shape).mapM (f indices)
  return ⟨indices, .numbers ⟨shape, entries.toArray⟩⟩

/-- A truth value for each position of the common frame. -/
def truthsOver (rs : List (Result K)) (f : List Index → List Nat → Bool) : Build (Result K) := do
  let (indices, shape) ← commonFrame rs
  return ⟨indices, .truths ⟨shape, ((tuples shape).map (f indices)).toArray⟩⟩

/-- An arithmetic operator on two results. Sums and products of truth values are truth values. -/
def arithmetic (op : BinaryOp) (a b : Result K) : Build (Result K) := do
  let (indices, _) ← commonFrame [a, b]
  requireSingleAxes indices a
  requireSingleAxes indices b
  let numeric := fun (f : K → K → K) =>
    numbersOver [a, b] fun is idx => return f (a.numberAt is idx) (b.numberAt is idx)
  let both := a.values.isTruth && b.values.isTruth
  match op with
  | .sum => if both then truthsOver [a, b] fun is idx => a.truthAt is idx || b.truthAt is idx else numeric Scalar.add
  | .product =>
    if both then truthsOver [a, b] fun is idx => a.truthAt is idx && b.truthAt is idx else numeric Scalar.mul
  | .quotient => numeric Scalar.div
  | _ => numeric Scalar.power

/-- The natural logarithm of a number in its domain. -/
def logarithm (x : K) : Build K :=
  match Scalar.log? x with
  | some y => return y
  | none => throw .malformed

def callNumbers (name : String) (args : List K) : Build K :=
  match name, args with
  | "abs", [x] => return Scalar.abs x
  | "log", [x] => logarithm x
  | "log", [x, base] => do
    let a ← logarithm x
    let b ← logarithm base
    if Scalar.isZero b then throw .zeroDivision
    return Scalar.div a b
  | _, _ => throw .unsupported

def callResults (name : String) (args : List (Result K)) : Build (Result K) := do
  let _ ← commonFrame args
  if name != "abs" && name != "log" then throw .missing
  numbersOver args fun is idx => callNumbers name (args.map fun r => r.numberAt is idx)

def binaryResult (op : BinaryOp) (a b : Result K) : Build (Result K) := do
  match op with
  | .minimum => numbersOver [a, b] fun is idx => return Scalar.minimum (a.numberAt is idx) (b.numberAt is idx)
  | .maximum => numbersOver [a, b] fun is idx => return Scalar.maximum (a.numberAt is idx) (b.numberAt is idx)
  | .compare c => truthsOver [a, b] fun is idx => Scalar.compare c (a.numberAt is idx) (b.numberAt is idx)
  | .conjunction =>
    Build.require a.values.isTruth
    Build.require b.values.isTruth
    throw .absent
  | .disjunction =>
    Build.require a.values.isTruth
    Build.require b.values.isTruth
    truthsOver [a, b] fun is idx => a.truthAt is idx || b.truthAt is idx
  | op => arithmetic op a b

def conditionalResult (c y n : Result K) : Build (Result K) := do
  Build.require c.values.isTruth
  numbersOver [c, y, n] fun is idx =>
    return if c.truthAt is idx then y.numberAt is idx else n.numberAt is idx

/-- Keep the axes that run and take the fixed positions of the others. -/
def fillFixed : List (Option Nat) → List Nat → List Nat
  | [], _ => []
  | some n :: rest, idx => n :: fillFixed rest idx
  | none :: rest, i :: idx => i :: fillFixed rest idx
  | none :: rest, [] => 0 :: fillFixed rest []

/-- The entry of a result: axes of the shape become free indices. -/
def indexResult (r : Result K) (slots : List (Slot (Expr K))) : Build (Result K) := do
  let total := r.values.shape
  Build.require (r.indices.length + slots.length == total.length)
  let selectors ← (slots.zip r.shape).mapM fun (s, n) =>
    match s with
    | .fixed k =>
      match Tensor.resolve n k with
      | some p => return some p
      | none => throw .outOfRange
    | _ => return none
  let selectors := r.indices.map (fun _ => none) ++ selectors
  let shape := (selectors.zip total).filterMap fun (s, n) => if s.isNone then some n else none
  return ⟨r.indices ++ slots.filterMap Slot.index?, r.values.gather shape (fillFixed selectors)⟩

/-- Free indices become the first axes of the shape. -/
def tensorResult (r : Result K) (bound : List Index) : Build (Result K) := do
  let kept := (r.indices.zipIdx).filter fun (i, _) => !bound.contains i
  let axes := kept.map Prod.snd ++ (← bound.mapM r.axis) ++
    (List.range r.shape.length).map (· + r.indices.length)
  let total := r.values.shape
  if axes.length != total.length || (distinct axes).length != axes.length then throw .malformed
  let shape := axes.map fun a => total.getD a 0
  let source := fun (idx : List Nat) =>
    (List.range total.length).map fun a => idx.getD (axes.findIdx (· == a)) 0
  return ⟨kept.map Prod.fst, r.values.gather shape source⟩

/-- The sum along the axes of indices. -/
def sumResult (r : Result K) (bound : List Index) : Build (Result K) := do
  let axes ← bound.mapM r.axis
  if (distinct axes).length != axes.length then throw .malformed
  let total := r.values.shape
  let positions := (total.zipIdx).map fun (n, a) => (n, axes.contains a)
  let shape := positions.filterMap fun (n, summed) => if summed then none else some n
  let extents := positions.filterMap fun (n, summed) => if summed then some n else none
  let weave := fun (kept summed : List Nat) =>
    (positions.foldl (fun (acc, kept, summed) (_, s) =>
      if s then (summed.headD 0 :: acc, kept, summed.drop 1) else (kept.headD 0 :: acc, kept.drop 1, summed))
      (([] : List Nat), kept, summed)).1.reverse
  let entries := (tuples shape).map fun idx =>
    (tuples extents).foldl (fun acc p => Scalar.add acc (r.values.number (weave idx p))) Scalar.zero
  return ⟨r.indices.filter fun i => !bound.contains i, .numbers ⟨shape, entries.toArray⟩⟩

def listResult (shape : List Nat) (entries : List (Result K)) : Build (Result K) := do
  let (indices, frame) ← commonFrame entries
  let free := frame.take indices.length
  for r in entries do
    if free.isEmpty then throw .outOfRange
    requireSingleAxes indices r
  let table := entries.toArray
  let value := fun (idx : List Nat) =>
    let (at_, inner) := (idx.take free.length, idx.drop free.length)
    match table[position shape inner]? with
    | some r => r.numberAt indices at_
    | none => Scalar.zero
  return ⟨indices, .numbers (Tensor.ofFn (free ++ shape) value)⟩

def concatenateResult (parts : List (Result K)) : Build (Result K) := do
  let indices := distinct (parts.flatMap Result.indices)
  let free := (← indices.mapM Build.knownExtent).map Int.toNat
  for r in parts do
    requireSingleAxes indices r
    if free.isEmpty && r.shape.isEmpty then throw .outOfRange
  if parts.isEmpty then throw .malformed
  let entries := (tuples free).flatMap fun at_ =>
    parts.flatMap fun r => (tuples r.shape).map fun idx => r.numberAt indices (at_ ++ idx)
  let length := (parts.map fun r => count r.shape).foldl (· + ·) 0
  return ⟨indices, .numbers ⟨free ++ [length], entries.toArray⟩⟩

def arrayShape (shape : Shape) : Build (List Nat) :=
  shape.mapM fun
    | none => throw .unsupported
    | some n => if n < 0 then throw .malformed else return n.toNat

abbrev Bindings (K : Type) [Scalar K] := Std.HashMap (Expr K) (Tensor K)

def variableResult (bindings : Bindings K) (name : String) (shape : Shape) : Build (Result K) :=
  let text := Expr.varText name shape
  match bindings[(Expr.var name shape : Expr K)]? with
  | none => throw (.unbound text)
  | some t =>
    if Shape.ofNats t.shape == shape then return { values := .numbers t }
    else throw (.boundShape text (Shape.ofNats t.shape).text shape.text)

def constantResult (t : Tensor K) : Result K := { values := .numbers t }

/-- Results kept while expressions are evaluated. -/
abbrev Evaluating (K : Type) [Scalar K] := Expr.MemoBuild K (Result K)

def step (bindings : Bindings K) : Expr.Step K (Evaluating K) (Result K) := fun e self =>
  match e with
  | .zero shape => do return constantResult (Tensor.fill (← arrayShape shape) Scalar.zero)
  | .identity n => return constantResult (Tensor.eye n)
  | .literal t _ => return constantResult t
  | .var name shape => liftM (variableResult bindings name shape)
  | .failure shape _ _ _ => do
    return constantResult (Tensor.fill (← arrayShape shape) (Scalar.div Scalar.zero Scalar.zero))
  | .binary op a b => do
    let x ← self a (Expr.sizeOf_left op a b)
    let y ← self b (Expr.sizeOf_right op a b)
    liftM (binaryResult op x y)
  | .negation a => do
    let x ← self a (Expr.sizeOf_negated a)
    liftM (Build.require x.values.isTruth)
    throw .absent
  | .call name args => do
    let xs ← args.attach.mapM fun ⟨a, h⟩ =>
      self a (Expr.sizeOf_argument h)
    liftM (callResults name xs)
  | .conditional c y n => do
    let c' ← self c (Expr.sizeOf_condition c y n)
    let y' ← self y (Expr.sizeOf_yes c y n)
    let n' ← self n (Expr.sizeOf_no c y n)
    liftM (conditionalResult c' y' n')
  | .indexed t slots => do
    let r ← self t (Expr.sizeOf_tensor t slots)
    for h : s in slots do
      match s, h with
      | .runtime e, h =>
        let _ ← self e (Expr.sizeOf_slot h)
        throw .malformed
      | _, _ => pure ()
    liftM (indexResult r slots)
  | .access _ _ _ => throw .noValue
  | .componentTensor body binders => do
    let r ← self body (Expr.sizeOf_component body binders)
    liftM (tensorResult r (binders.map Prod.fst))
  | .indexSum body binders => do
    let r ← self body (Expr.sizeOf_summand body binders)
    liftM (sumResult r (binders.map Prod.fst))
  | .listTensor shape entries => do
    let xs ← entries.attach.mapM fun ⟨a, h⟩ =>
      self a (Expr.sizeOf_entry h)
    liftM (listResult shape xs)
  | .concatenate parts => do
    let xs ← parts.attach.mapM fun ⟨a, h⟩ =>
      self a (Expr.sizeOf_part h)
    liftM (concatenateResult xs)
  | .delta i j => do
    let lowered ← liftM (Rewrite.lowerDelta i j)
    match lowered with
    | .indexed (.identity n) slots => liftM (indexResult (constantResult (Tensor.eye n)) slots)
    | _ =>
      let value := fun (s : Slot (Expr K)) (h : sizeOf s ≤ sizeOf i + sizeOf j) => match s, h with
        | .runtime r, h => self r (Expr.sizeOf_deltaSlot h)
        | .fixed n, _ => return constantResult (Tensor.scalar (Scalar.ofInt n))
        | .free _, _ => throw .malformed
      let x ← value i (Expr.sizeOf_firstSlot i j)
      let y ← value j (Expr.sizeOf_secondSlot i j)
      liftM (m := Build) do
        let c ← binaryResult (.compare .equal) x y
        conditionalResult c (constantResult (Tensor.scalar Scalar.one)) (constantResult (Tensor.scalar Scalar.zero))

/-- The values of expressions under given variables. -/
def evaluate (es : List (Expr K)) (bindings : Bindings K := ∅) : Build (List (Result K)) :=
  Expr.mapMemo (step bindings) es

end Evaluation

end FormCompiler
