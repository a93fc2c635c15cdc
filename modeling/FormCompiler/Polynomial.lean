/-!
# Polynomials in several variables

A polynomial is a list of exact coefficients with exponents. Basis functions of finite elements on simplices are found
as such: a space is spanned by polynomials, the degrees of freedom are linear functionals on it, and the basis is the
one that is dual to them.
-/

namespace FormCompiler

/-- A polynomial: coefficients by exponents, each exponent list at most once, no coefficient zero. -/
structure Polynomial where
  terms : List (List Nat × Rat)
  deriving Repr, Inhabited, BEq

namespace Polynomial

def insertTerm (e : List Nat) (c : Rat) : List (List Nat × Rat) → List (List Nat × Rat)
  | [] => if c == 0 then [] else [(e, c)]
  | (f, d) :: rest =>
    if f == e then
      if c + d == 0 then rest else (f, c + d) :: rest
    else (f, d) :: insertTerm e c rest

def zero : Polynomial := ⟨[]⟩

/-- A coefficient times a product of powers. -/
def monomial (exponents : List Nat) (c : Rat) : Polynomial := ⟨if c == 0 then [] else [(exponents, c)]⟩

def const (n : Nat) (c : Rat) : Polynomial := monomial (List.replicate n 0) c

def unit (n k : Nat) : List Nat := (List.range n).map fun i => if i == k then 1 else 0

def coordinate (n k : Nat) : Polynomial := monomial (unit n k) 1

def add (p q : Polynomial) : Polynomial := ⟨q.terms.foldl (fun acc (e, c) => insertTerm e c acc) p.terms⟩

def scale (s : Rat) (p : Polynomial) : Polynomial :=
  ⟨if s == 0 then [] else p.terms.map fun (e, c) => (e, s * c)⟩

def mul (p q : Polynomial) : Polynomial :=
  ⟨p.terms.foldl (fun acc (e, c) => q.terms.foldl (fun acc (f, d) =>
    insertTerm (List.zipWith (· + ·) e f) (c * d) acc) acc) []⟩

instance : Add Polynomial := ⟨add⟩

instance : Mul Polynomial := ⟨mul⟩

def combination (coefficients : List Rat) (ps : List Polynomial) : Polynomial :=
  (coefficients.zip ps).foldl (fun acc (c, p) => acc + scale c p) zero

def derivative (k : Nat) (p : Polynomial) : Polynomial :=
  ⟨p.terms.filterMap fun (e, c) => match e.getD k 0 with
    | 0 => none
    | n + 1 => some (e.set k n, c * (Int.ofNat (n + 1) : Rat))⟩

def derivatives (orders : List Nat) (p : Polynomial) : Polynomial :=
  orders.zipIdx.foldl (fun p (n, k) => n.fold (fun _ _ p => p.derivative k) p) p

/-- The value at an exact point. -/
def eval (p : Polynomial) (x : List Rat) : Rat :=
  p.terms.foldl (fun acc (e, c) => acc + (e.zip x).foldl (fun c (n, v) => c * v ^ n) c) 0

/-- An exact number in double precision. -/
def toFloat (r : Rat) : Float := Float.ofInt r.num / Float.ofNat r.den

def power (x : Float) : Nat → Float
  | 0 => 1.0
  | n + 1 => power x n * x

/-- The value at a point in double precision. -/
def evalFloat (p : Polynomial) (x : List Float) : Float :=
  p.terms.foldl (fun acc (e, c) => acc + (e.zip x).foldl (fun c (n, v) => c * power v n) (toFloat c)) 0.0

/-- The exponents of total degree `d` in `n` variables, the first variable in descending order. -/
def exponents : Nat → Nat → List (List Nat)
  | 0, 0 => [[]]
  | 0, _ + 1 => []
  | 1, d => [[d]]
  | n + 1, d => (List.range (d + 1)).flatMap fun i => (exponents n i).map ((d - i) :: ·)

/-- The monomials of total degree at most `d`. -/
def monomials (n d : Nat) : List Polynomial :=
  (List.range (d + 1)).flatMap fun k => (exponents n k).map fun e => monomial e 1

/-- The monomials of total degree `d`. -/
def homogeneous (n d : Nat) : List Polynomial := (exponents n d).map fun e => monomial e 1

/-- A product of the first positive integers. -/
def factorial : Nat → Nat
  | 0 => 1
  | n + 1 => (n + 1) * factorial n

/-- The integral over the reference simplex. -/
def integral (n : Nat) (p : Polynomial) : Rat :=
  p.terms.foldl (fun acc (e, c) =>
    acc + c * (Int.ofNat ((e.map factorial).foldl (· * ·) 1) : Rat) / (Int.ofNat (factorial (n + e.foldl (· + ·) 0)) : Rat)) 0

/-- Polynomials on the reference simplex that are orthogonal to each other and to all before them, each with the
square of its norm. Within a degree, a polynomial is made orthogonal to those with a smaller power of the first
variable; they are listed in descending order of the powers. -/
def orthogonal (n d : Nat) : List (Polynomial × Rat) :=
  (List.range (d + 1)).foldl (fun (done : List (Polynomial × Rat)) k =>
    let level := (exponents n k).reverse.foldl (fun (level : List (Polynomial × Rat)) e =>
      let m := monomial e 1
      let p := (done ++ level).foldl (fun p (q, norm) => p + scale (-(integral n (m * q)) / norm) q) m
      level ++ [(p, integral n (p * p))]) []
    done ++ level.reverse) []

end Polynomial

/-!
## Systems of linear equations

A row is reduced by a pivot row; a matrix is inverted by reducing it beside the unit matrix.
-/

namespace Elimination

def subtract (s : Rat) (row other : Array Rat) : Array Rat :=
  other.zipWith (fun a b => a - s * b) row

/-- Reduce one column: a row with a nonzero entry is moved up and divided by it, and the column is cleared in the
other rows. -/
def reduceColumn (rows : Array (Array Rat)) (column : Nat) : Array (Array Rat) :=
  match (List.range rows.size).find? fun i => column ≤ i && (rows.getD i #[]).getD column 0 != 0 with
  | none => rows
  | some i =>
    let pivot := (rows.getD i #[])
    let normal := pivot.map (· / pivot.getD column 1)
    let swapped := (rows.setIfInBounds i (rows.getD column #[])).setIfInBounds column normal
    swapped.mapIdx fun k row =>
      if k == column then row
      else
        let s := row.getD column 0
        if s == 0 then row else subtract s normal row

def inverse (rows : List (List Rat)) : List (List Rat) :=
  let n := rows.length
  let augmented := (rows.zipIdx.map fun (row, i) =>
    (row ++ (List.range n).map fun j => if j == i then 1 else 0).toArray).toArray
  let reduced := (List.range n).foldl reduceColumn augmented
  reduced.toList.map fun row => (row.toList.drop n)

/-- Drop the rows that depend on the rows before them. -/
def independent (rows : List (List Rat)) : List Bool :=
  (rows.foldl (fun (kept, flags) row =>
    let reduced := kept.foldl (fun (r : Array Rat) ((k, p) : Nat × Array Rat) => subtract (r.getD k 0) p r) row.toArray
    match (List.range reduced.size).find? fun k => reduced.getD k 0 != 0 with
    | none => (kept, flags ++ [false])
    | some k => (kept ++ [(k, reduced.map (· / reduced.getD k 1))], flags ++ [true]))
    (([] : List (Nat × Array Rat)), ([] : List Bool))).2

end Elimination

end FormCompiler
