import FormCompiler.Form.Recursion

/-!
# Matrices of terms

Determinants and inverses of small matrices of terms, entry by entry. A matrix with more rows than columns has the square root
of the determinant of its Gram matrix for determinant, and the inverse on its columns for inverse.
-/

namespace FormCompiler

namespace Term

variable {K : Type} [Elementary K]

def half : Term K := division (int 1) (int 2)

/-- The determinant of two rows and two columns. -/
def minor (a : Term K) (i j k l : Nat) : Labels (Term K) :=
  minus (product (a.component [i, k]) (a.component [j, l])) (product (a.component [i, l]) (a.component [j, k]))

/-- The sum of the squares of the entries of a vector. -/
def squaredNorm (v : Term K) : Labels (Term K) := do
  let i ← Labels.fresh
  return indexSum (product (v.entry [i]) (v.entry [i])) i

def norm (v : Term K) : Labels (Term K) := do return function .sqrt (← squaredNorm v)

def crossProduct (a b : Term K) : Labels (Term K) := do
  let c := fun (i j : Nat) =>
    minus (product (a.component [i]) (b.component [j])) (product (a.component [j]) (b.component [i]))
  return listTensor [← c 1 2, ← c 2 0, ← c 0 1]

def column (a : Term K) (k : Nat) : Labels (Term K) := do
  let i ← Labels.fresh
  return asTensor (a.indexed [.label i, .fixed k]) [i]

/-- The product of a matrix's transpose with the matrix. -/
def gram (a : Term K) : Labels (Term K) := do
  let i ← Labels.fresh
  let j ← Labels.fresh
  let k ← Labels.fresh
  return asTensor (indexSum (product (a.entry [k, i]) (a.entry [k, j])) k) [i, j]

/-- The determinant of a square matrix with at most three rows. -/
def squareDeterminant (a : Term K) (n : Nat) : Labels (Term K) := do
  match n with
  | 1 => return a.component [0, 0]
  | 2 => minor a 0 1 0 1
  | _ =>
    let x := product (a.component [0, 0]) (← minor a 1 2 1 2)
    let y := product (a.component [0, 1]) (← minor a 1 2 2 0)
    let z := product (a.component [0, 2]) (← minor a 1 2 0 1)
    return sum (sum x y) z

def determinantOf (a : Term K) : Labels (Term K) := do
  match a.shape with
  | [m, n] =>
    if m == n then squareDeterminant a m
    else if n == 1 then norm (← column a 0)
    else if m == 3 && n == 2 then norm (← crossProduct (← column a 0) (← column a 1))
    else return function .sqrt (← squareDeterminant (← gram a) n)
  | _ => return a

def adjugate (a : Term K) (n : Nat) : Labels (Term K) := do
  if n == 2 then
    let row1 := listTensor [a.component [1, 1], ← negated (a.component [0, 1])]
    let row2 := listTensor [← negated (a.component [1, 0]), a.component [0, 0]]
    return listTensor [row1, row2]
  else
    let rows ← [0, 1, 2].mapM fun i => do
      let entries ← [0, 1, 2].mapM fun j =>
        minor a ((j + 1) % 3) ((j + 2) % 3) ((i + 1) % 3) ((i + 2) % 3)
      return listTensor entries
    return listTensor rows

/-- The inverse of a square matrix with at most three rows. -/
def squareInverse (a : Term K) (n : Nat) : Labels (Term K) := do
  if n == 1 then return listTensor [listTensor [division (int 1) (a.component [0, 0])]]
  else dividedBy (← adjugate a n) (← squareDeterminant a n)

def inverseOf (a : Term K) : Labels (Term K) := do
  match a.shape with
  | [m, n] =>
    if m == n then squareInverse a m
    else if n == 1 then
      let i ← Labels.fresh
      let j ← Labels.fresh
      dividedBy (asTensor (a.entry [i, j]) [j, i]) (← squaredNorm (← column a 0))
    else
      let inner ← squareInverse (← gram a) n
      let q ← Labels.fresh
      let r ← Labels.fresh
      let s ← Labels.fresh
      return asTensor (indexSum (product (inner.entry [r, q]) (a.entry [s, q])) q) [r, s]
  | _ => return division (int 1) a

end Term

end FormCompiler
