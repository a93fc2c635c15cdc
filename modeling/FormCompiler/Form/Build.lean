import FormCompiler.Form.Term
import FormCompiler.Sameness

/-!
# Making terms

Every operator has a function that makes its term and simplifies on the way: zeros are propagated, constants are folded, and
the gradient of a field that is constant in each cell is zero. Terms are made by these functions only, and `rebuild` makes
the term of an operator again for other operands. Operations on whole tensors need new indices and draw them from a supply.
-/

namespace FormCompiler

namespace Term

/-! ## Sameness -/

variable {K : Type}

def children : Term K → List (Term K)
  | .leaf _ _ => []
  | .node _ args => args

theorem sizeOf_lt_of_mem_children {c t : Term K} (h : c ∈ t.children) : sizeOf c < sizeOf t := by
  cases t with
  | leaf => simp [children] at h
  | node op args =>
    have := List.sizeOf_lt_of_mem h
    simp only [children] at this
    simp only [node.sizeOf_spec]
    omega

section

variable [Scalar K]

def sameHead : Term K → Term K → Bool
  | .leaf t _, .leaf u _ => t.same u
  | .node op _, .node op' _ => op == op'
  | _, _ => false

theorem sameHead_self (t : Term K) : t.sameHead t = true := by
  cases t <;> simp [sameHead, Terminal.same_self]

/-- Are two terms the same? Carries that a term is the same as itself. -/
def compareSame (a b : Term K) : { r : Bool // a = b → r = true } :=
  let inner := compareAll a.children b.children fun x hx y =>
    have := sizeOf_lt_of_mem_children hx
    ⟨withPtrEq x y (fun _ => (compareSame x y).1) (compareSame x y).2, (compareSame x y).2⟩
  ⟨a.key == b.key && (a.sameHead b && inner.1), by
    intro heq
    subst heq
    simp [sameHead_self, inner.2 rfl]⟩
termination_by sizeOf a

def same (a b : Term K) : Bool := withPtrEq a b (fun _ => (compareSame a b).1) (compareSame a b).2

instance : BEq (Term K) := ⟨same⟩

instance : Hashable (Term K) := ⟨fun t => t.key⟩

theorem same_self (t : Term K) : (t == t) = true := (compareSame t t).2 rfl

/-- Are the lists the same member by member, as far as the shorter goes? -/
def sameAll (as bs : List (Term K)) : Bool := (as.zip bs).all fun (a, b) => a == b

/-! ## Terminals -/

def ofTerminal (t : Terminal K) : Term K := .leaf t t.digest

def zero (shape : List Nat) (free : FreeIndices) : Term K := ofTerminal (.zero shape free)

/-- A number; zero is the zero tensor. -/
def number (x : K) : Term K := if Scalar.isZero x then zero [] [] else ofTerminal (.number x)

def int (n : Int) : Term K := number (Scalar.ofInt n)

def identity (n : Nat) : Term K := ofTerminal (.identity n)

def coefficient (f : Coefficient) : Term K := ofTerminal (.coefficient f)

def argument (v : Argument) : Term K := ofTerminal (.argument v)

def geometric (q : Quantity) (d : Domain) : Term K := ofTerminal (.geometric q d)

end

def isZero : Term K → Bool
  | .leaf (.zero _ _) _ => true
  | _ => false

/-- Is the term a zero, a number or a unit matrix? -/
def isConstantValue : Term K → Bool
  | .leaf t _ => t.isConstantValue
  | _ => false

def number? : Term K → Option K
  | .leaf (.number x) _ => some x
  | _ => none

def terminal? : Term K → Option (Terminal K)
  | .leaf t _ => some t
  | .node _ _ => none

def op? : Term K → Option Op
  | .leaf _ _ => none
  | .node op _ => some op

variable [Elementary K]

/-- The number, if the term is one or the scalar zero. -/
def real? : Term K → Option K
  | .leaf (.number x) _ => some x
  | .leaf (.zero [] _) _ => some Scalar.zero
  | _ => none

/-- A zero with the free indices of both terms. -/
def zeroOf (shape : List Nat) (a b : Term K) : Term K := zero shape (FreeIndices.union a.free b.free)

/-! ## Arithmetic of scalars -/

def sum (a b : Term K) : Term K :=
  if a.isZero then b
  else if b.isZero then a
  else match a.number?, b.number? with
    | some x, some y => number (Scalar.add x y)
    | none, some _ => .node .sum [b, a]
    | _, _ => .node .sum [a, b]

def product (a b : Term K) : Term K :=
  if a.isZero || b.isZero then zeroOf [] a b
  else match a.number?, b.number? with
    | some x, some y => number (Scalar.mul x y)
    | some x, none => if Scalar.equal x Scalar.one then b else .node .product [a, b]
    | none, some y => if Scalar.equal y Scalar.one then a else .node .product [b, a]
    | none, none => .node .product [a, b]

def division (a b : Term K) : Term K :=
  if a.isZero then a
  else match a.number?, b.number? with
    | some x, some y => number (Scalar.div x y)
    | _, some y => if Scalar.equal y Scalar.one then a else .node .division [a, b]
    | _, none => if a.free.isEmpty && a == b then int 1 else .node .division [a, b]

def power (a b : Term K) : Term K :=
  match a.number?, b.number? with
  | some x, some y => number (Scalar.power x y)
  | _, some y => if a.isZero then zero [] [] else if Scalar.equal y Scalar.one then a else .node .power [a, b]
  | _, none => if b.isZero then int 1 else .node .power [a, b]

/-- The absolute value, component by component. -/
def abs (a : Term K) : Term K :=
  match a with
  | .leaf (.number x) _ => number (Scalar.abs x)
  | .leaf (.zero _ _) _ => a
  | .node .abs _ => a
  | .node .conjugate [b] => .node .abs [b]
  | a => .node .abs [a]

def conjugate (a : Term K) : Term K :=
  match a with
  | .leaf (.number _) _ | .leaf (.zero _ _) _ | .node .abs _ => a
  | .node .conjugate [b] => b
  | a => .node .conjugate [a]

def function (f : MathFunction) (a : Term K) : Term K :=
  match a.real?.bind (Elementary.function? f) with
  | some y => number y
  | none => .node (.function f) [a]

/-- The angle of a point in the plane. -/
def arctangent (a b : Term K) : Term K :=
  match a.real?, b.real? with
  | some x, some y => number (Elementary.angle x y)
  | _, _ => .node .arctangent [a, b]

/-! ## Indices -/

def extentOf (t : Term K) (i : Nat) : Nat := ((t.free.find? fun (j, _) => j == i).map Prod.snd).getD 0

/-- Some entries of a tensor. -/
def indexed (t : Term K) (places : List Place) : Term K :=
  if places.isEmpty then t
  else if t.isZero then
    let new := (places.zip t.shape).filterMap fun (p, n) => match p with
      | .label i => some (i, n)
      | .fixed _ => none
    zero (t.shape.drop places.length) (FreeIndices.union new t.free)
  else .node (.indexed places) [t]

def indexSum (t : Term K) (i : Nat) : Term K :=
  if t.isZero then zero t.shape (t.free.without [i]) else .node (.indexSum i (t.extentOf i)) [t]

/-- The tensor whose dimensions are free indices. -/
def componentTensor (t : Term K) (labels : List Nat) : Term K :=
  let binders := labels.map fun i => (i, t.extentOf i)
  if t.isZero then zero (binders.map Prod.snd) (t.free.without labels) else .node (.componentTensor binders) [t]

/-- The tensor whose dimensions are free indices; the indices of a tensor in their order give the tensor. -/
def asTensor (t : Term K) (labels : List Nat) : Term K :=
  match labels, t with
  | [], t => t
  | labels, .node (.indexed places) [a] =>
    if places == labels.map .label then a else componentTensor t labels
  | labels, t => componentTensor t labels

def listTensor (ts : List (Term K)) : Term K :=
  if ts.all isZero then zero (ts.length :: (ts.map (fun t => t.shape)).headD []) [] else .node .listTensor ts

/-! ## Modifiers -/

def restricted (s : Side) (t : Term K) : Term K := .node (.restricted s) [t]

def cellAverage (t : Term K) : Term K := if t.isConstantValue then t else .node .cellAverage [t]

def facetAverage (t : Term K) : Term K := if t.isConstantValue then t else .node .facetAverage [t]

def referenceValue (t : Term K) : Term K := .node .referenceValue [t]

/-- The dimension of the space around the mesh. -/
def gdim (t : Term K) : Nat := (t.domain.map (·.gdim)).getD 0

def tdim (t : Term K) : Nat := (t.domain.map (·.tdim)).getD 0

def gradient (t : Term K) : Term K :=
  if t.isCellwiseConstant then zero (t.shape ++ [t.gdim]) t.free else .node .gradient [t]

def divergence (t : Term K) : Term K :=
  if t.isCellwiseConstant then zero t.shape.dropLast [] else .node .divergence [t]

def rotation (t : Term K) : Term K :=
  if t.isCellwiseConstant then zero (Op.curlShape t.shape) [] else .node .rotation [t]

def referenceGradient (t : Term K) : Term K :=
  if t.isCellwiseConstant then zero (t.shape ++ [t.tdim]) t.free else .node .referenceGradient [t]

def referenceDivergence (t : Term K) : Term K :=
  if t.isCellwiseConstant then zero t.shape.dropLast [] else .node .referenceDivergence [t]

def referenceRotation (t : Term K) : Term K :=
  if t.isCellwiseConstant then zero (Op.curlShape t.shape) [] else .node .referenceRotation [t]

/-! ## Tensor algebra -/

def transposed (t : Term K) : Term K := if t.isZero then zero t.shape.reverse t.free else .node .transposed [t]

def trace (t : Term K) : Term K := if t.isZero then zero [] t.free else .node .trace [t]

def determinant (t : Term K) : Term K :=
  if t.isZero then zero [] t.free else if t.shape.isEmpty then t else .node .determinant [t]

def inverse (t : Term K) : Term K := if t.shape.isEmpty then division (int 1) t else .node .inverse [t]

def symmetric (t : Term K) : Term K := if t.isZero then t else .node .symmetric [t]

/-- The inner product of two tensors of the same shape. -/
def inner (a b : Term K) : Term K :=
  if a.shape.isEmpty && b.shape.isEmpty then product a (conjugate b)
  else if a.isZero || b.isZero then zeroOf [] a b
  else .node .inner [a, b]

/-- The product summed over the last dimension of one tensor and the first of the other. -/
def dot (a b : Term K) : Term K :=
  if a.shape.isEmpty && b.shape.isEmpty then product a b
  else if a.isZero || b.isZero then zeroOf (a.shape.dropLast ++ b.shape.drop 1) a b
  else .node .dot [a, b]

def outer (a b : Term K) : Term K :=
  if a.shape.isEmpty && b.shape.isEmpty then product (conjugate a) b
  else if a.isZero || b.isZero then zeroOf (a.shape ++ b.shape) a b
  else .node .outer [a, b]

/-- The cross product of two vectors in space. -/
def cross (a b : Term K) : Term K := if a.isZero || b.isZero then zeroOf [3] a b else .node .cross [a, b]

/-! ## Rebuilding -/

def rebuild (op : Op) (args : List (Term K)) : Term K :=
  match op, args with
  | .sum, [a, b] => sum a b
  | .product, [a, b] => product a b
  | .division, [a, b] => division a b
  | .power, [a, b] => power a b
  | .abs, [a] => abs a
  | .conjugate, [a] => conjugate a
  | .function f, [a] => function f a
  | .arctangent, [a, b] => arctangent a b
  | .indexed places, [a] => indexed a places
  | .indexSum i _, [a] => indexSum a i
  | .componentTensor binders, [a] =>
    if a.isZero then zero (binders.map Prod.snd) (a.free.without (binders.map Prod.fst))
    else .node (.componentTensor binders) [a]
  | .listTensor, args => listTensor args
  | .restricted s, [a] => restricted s a
  | .cellAverage, [a] => cellAverage a
  | .facetAverage, [a] => facetAverage a
  | .gradient, [a] => gradient a
  | .divergence, [a] => divergence a
  | .rotation, [a] => rotation a
  | .referenceValue, [a] => referenceValue a
  | .referenceGradient, [a] => referenceGradient a
  | .referenceDivergence, [a] => referenceDivergence a
  | .referenceRotation, [a] => referenceRotation a
  | .transposed, [a] => transposed a
  | .trace, [a] => trace a
  | .determinant, [a] => determinant a
  | .inverse, [a] => inverse a
  | .symmetric, [a] => symmetric a
  | .inner, [a, b] => inner a b
  | .dot, [a, b] => dot a b
  | .outer, [a, b] => outer a b
  | .cross, [a, b] => cross a b
  | op, args => .node op args

/-- The term itself if its operands stay the same, else its operator with the new ones. -/
def withOperands (t : Term K) (args : List (Term K)) : Term K :=
  match t with
  | .leaf _ _ => t
  | .node op old => if sameAll args old then t else rebuild op args

end Term

/-! ## Operations on tensors

They draw new indices from a supply. -/

/-- A supply of indices that are not yet in use. -/
abbrev Labels := StateM Nat

namespace Labels

def fresh : Labels Nat := modifyGet fun n => (n, n + 1)

def several (n : Nat) : Labels (List Nat) := (List.replicate n ()).mapM fun _ => fresh

end Labels

namespace Term

variable {K : Type} [Elementary K]

def component (t : Term K) (idx : List Nat) : Term K := indexed t (idx.map .fixed)

def entry (t : Term K) (labels : List Nat) : Term K := indexed t (labels.map .label)

/-- Some entries, and all along the remaining dimensions. -/
def slice (t : Term K) (places : List Place) : Labels (Term K) := do
  let rest ← Labels.several (t.shape.length - places.length)
  if places.isEmpty then return t
  return asTensor (indexed t (places ++ rest.map .label)) rest

/-- A scalar times a tensor. -/
def scaled (s t : Term K) : Labels (Term K) := do
  if t.shape.isEmpty then return product s t
  if s.isZero || t.isZero then return zeroOf t.shape s t
  let ii ← Labels.several t.shape.length
  return asTensor (product s (t.entry ii)) ii

/-- The product of scalars, of a scalar and a tensor, or of matrices and vectors. -/
def times (a b : Term K) : Labels (Term K) := do
  match a.shape.length, b.shape.length with
  | 0, _ => scaled a b
  | _, 0 => scaled b a
  | m, n =>
    if a.isZero || b.isZero then return zeroOf (a.shape.dropLast ++ b.shape.drop 1) a b
    let ai ← Labels.several (m - 1)
    let bi ← Labels.several (n - 1)
    let k ← Labels.fresh
    return asTensor (indexSum (product (a.entry (ai ++ [k])) (b.entry (k :: bi))) k) (ai ++ bi)

def negated (t : Term K) : Labels (Term K) := scaled (int (-1)) t

def minus (a b : Term K) : Labels (Term K) := do
  return sum a (← negated b)

def dividedBy (a b : Term K) : Labels (Term K) := do
  if a.shape.isEmpty then return division a b
  let ii ← Labels.several a.shape.length
  return asTensor (division (a.entry ii) b) ii

/-- The difference across a facet. -/
def jump (t : Term K) : Labels (Term K) := minus (restricted .plus t) (restricted .minus t)

/-- The difference across a facet in the direction of a normal. -/
def jumpAlong (t n : Term K) : Term K :=
  let part := fun s => dot (restricted s t) (restricted s n)
  sum (part .plus) (part .minus)

/-- The scalar part of the difference across a facet in the direction of a normal. -/
def scalarJumpAlong (t n : Term K) : Labels (Term K) := do
  return sum (← scaled (restricted .plus t) (restricted .plus n)) (← scaled (restricted .minus t) (restricted .minus n))

/-- The mean of both sides. -/
def average (t : Term K) (half : K) : Labels (Term K) :=
  scaled (number half) (sum (restricted .plus t) (restricted .minus t))

end Term

end FormCompiler
