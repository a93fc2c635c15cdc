import FormCompiler.Code.Basic
import FormCompiler.Decimal.General
import FormCompiler.Scalar.Float
import FormCompiler.Schedule.Program

/-!
# Code of a program

Each loop and operation of a program becomes a statement. An expression is written out down to the temporaries, which
are referred to by name. Numbers are written with a given precision; one that is very close to a tenth is taken to be
it.
-/

namespace FormCompiler

namespace Code

variable {K : Type} [Scalar K]

/-! ## Numbers -/

structure NumberFormat (K : Type) where
  precision : Int
  write : K → Value K

/-- Values very close to a nonzero tenth are rounded to it. -/
def roundValue (epsilon x : Float) : Float :=
  let r := Decimal.roundOnePlace x
  if r != 0.0 && (x - r).abs < epsilon then r else x

def doubles (precision : Int) (epsilon : Float) : NumberFormat Float where
  precision
  write x :=
    if x.isNaN then .number x "NAN"
    else
      let v := roundValue epsilon x
      .number v (Decimal.general precision.toNat v)

/-- The distance below which a value is taken for a tenth, at a given precision. -/
def tolerance (precision : Int) : Except Error Float :=
  if precision < 0 then .error .badPrecision
  else .ok (10.0 * Float.ofScientific 1 true precision.toNat)

/-! ## Names -/

/-- The names of indices; new ones are numbered. -/
structure Naming where
  names : List (Index × String) := []
  counter : Nat := 0
  /-- Are indices without a name given one? -/
  open_ : Bool := true

structure Frame (K : Type) [Scalar K] where
  format : NumberFormat K
  temporaries : Std.HashMap (Expr K) String := ∅
  /-- The indices that temporaries keep. -/
  kept : Std.HashMap (Expr K) (List Index) := ∅
  roots : List (Expr K) := []
  /-- Indices whose loops are marked. -/
  arguments : List Index := []

abbrev Generating := StateT Naming Build

def indexName (i : Index) : Generating String := do
  let n ← get
  match n.names.find? fun p => p.1 == i with
  | some (_, name) => return name
  | none =>
    if !n.open_ then throw .missing
    let name := s!"i_{n.counter}"
    set { n with names := n.names ++ [(i, name)], counter := n.counter + 1 }
    return name

/-! ## Symbols -/

def keptIndices (frame : Frame K) (e : Expr K) : Generating (List Index) :=
  match frame.kept[e]? with
  | some is => return is
  | none => throw .missing

def temporaryName (frame : Frame K) (e : Expr K) : Generating String :=
  match frame.temporaries[e]? with
  | some name => return name
  | none => throw .missing

def declaredRank (frame : Frame K) (e : Expr K) : Generating (List (Rank (Value K))) := do
  let extents ← (← keptIndices frame e).mapM fun i => liftM (Build.extent i)
  (extents ++ e.shape).mapM fun
    | some n => return .fixed n
    | none => throw .unsupported

def reference (frame : Frame K) (e : Expr K) : Generating (Value K) := do
  let rank ← (← keptIndices frame e).mapM fun i => do return Rank.named (← indexName i)
  return .symbol (← temporaryName frame e) rank none

/-- Add positions to the rank of a symbol; only symbols can be indexed. -/
def extendRank (v : Value K) (rank : List (Rank (Value K))) : Build (Value K) :=
  match v with
  | .symbol name first _ => return .symbol name (first ++ rank) none
  | .number _ text => return .symbol text rank none
  | _ => throw (.requirement "")

def accessRank (d : DimAccess) : Generating (Rank (Value K) × (Int × Int)) := do
  match d.terms with
  | [] => return (.fixed d.offset, (1, 0))
  | [(i, s)] => return (.named (← indexName i), (s.value, d.offset))
  | terms =>
    let start : List (Value K) :=
      if d.offset = 0 then [] else [plain (toString d.offset)]
    let parts ← terms.mapM fun (i, s) => do
      let counter : Value K := plain (← indexName i)
      liftM (Build.require (s.value != 0))
      if s.value = 1 then return counter
      else return .apply .product [counter, plain (toString s.value)]
    match start ++ parts with
    | [] => throw (.requirement "")
    | first :: rest => return (.nested (rest.foldl (fun acc p => .apply .sum [acc, p]) first), (1, 0))

/-! ## Functions -/

def functionName : String → String
  | "abs" => "fabs"
  | "ln" => "log"
  | "cyl_bessel_j" => "jn"
  | "cyl_bessel_y" => "yn"
  | "cyl_bessel_i" => "boost::math::cyl_bessel_i"
  | "cyl_bessel_k" => "boost::math::cyl_bessel_k"
  | name => name

/-- A function call. The functions of orders zero and one have names of their own. -/
def functionCall (name : String) (args : List (Expr K)) (codes : List (Value K)) : Build (Value K) := do
  let name := functionName name
  if name == "jn" || name == "yn" then
    match args, codes with
    | [order, _], [_, code] =>
      let letter := if name == "jn" then "j" else "y"
      if order == Build.zero then return .call (letter ++ "0") [code]
      else if order == Build.one then return .call (letter ++ "1") [code]
      else return .call name codes
    | _, _ => throw .malformed
  else return .call name codes

/-! ## Expressions -/

def operatorOf? : BinaryOp → Option Operator
  | .sum => some .sum
  | .product => some .product
  | .quotient => some .quotient
  | .compare c => some (.compare c)
  | .conjunction => some .conjunction
  | .disjunction => some .disjunction
  | _ => none

/-- The function for a binary operator that is none of the code. -/
def functionOf : BinaryOp → String
  | .power => "pow"
  | .minimum => "fmin"
  | _ => "fmax"

def nodeCode (frame : Frame K) : Expr.Step K Generating (Value K) := fun e self =>
  match e with
  | .failure _ kind text _ => throw (.raised kind text)
  | .zero shape => do
    liftM (Build.require shape.isEmpty)
    return frame.format.write Scalar.zero
  | .literal t _ => do
    liftM (Build.require t.shape.isEmpty)
    return frame.format.write (t.entries.getD 0 Scalar.zero)
  | .identity _ => throw (.requirement "")
  | .var name _ => return plain name
  | .binary op a b => do
    let x ← self a (Expr.sizeOf_left op a b)
    let y ← self b (Expr.sizeOf_right op a b)
    match operatorOf? op with
    | some o => return .apply o [x, y]
    | none => return .call (functionOf op) [x, y]
  | .negation a => do return .apply .negation [← self a (Expr.sizeOf_negated a)]
  | .call name args => do
    let codes ← args.attach.mapM fun ⟨a, h⟩ =>
      self a (Expr.sizeOf_argument h)
    liftM (functionCall name args codes)
  | .conditional c y n => do
    let c' ← self c (Expr.sizeOf_condition c y n)
    let y' ← self y (Expr.sizeOf_yes c y n)
    let n' ← self n (Expr.sizeOf_no c y n)
    return .apply .ternary [c', y', n']
  | .indexed t slots => do
    let rank ← slots.attach.mapM fun ⟨s, hs⟩ => match s, hs with
      | .fixed n, _ => return .fixed n
      | .free i, _ => do return .named (← indexName i)
      | .runtime r, hs => do
        return .printed (← self r (Expr.sizeOf_slot hs))
    let tensor ← self t (Expr.sizeOf_tensor t slots)
    liftM (extendRank tensor rank)
  | .access name _ dims => do
    let entries ← dims.mapM accessRank
    return .symbol name (entries.map Prod.fst) (some (entries.map Prod.snd))
  | e => throw (.noCode e.kindName)

def valueStep (frame : Frame K) : Expr.Step K Generating (Value K) := fun e self =>
  if frame.temporaries.contains e then reference frame e else nodeCode frame e self

def valueOf (frame : Frame K) (e : Expr K) : Generating (Value K) := Expr.recurse (valueStep frame) e

def computation (frame : Frame K) (e : Expr K) : Generating (Value K) :=
  nodeCode frame e fun c _ => valueOf frame c

/-! ## Statements -/

def rootMark (frame : Frame K) (e : Expr K) : Option String :=
  if frame.roots.contains e then some "#pragma coffee expression" else none

def scalarType : String := "double"

def declareTemporary (frame : Frame K) (e : Expr K) : Generating (Declaration K) := do
  let rank ← declaredRank frame e
  return { type := scalarType, name := ← temporaryName frame e, rank }

def evaluateCode (frame : Frame K) (e : Expr K) (declare : Bool) : Generating (Statement K) := do
  match e with
  | .listTensor shape entries =>
    if declare then
      let d ← declareTemporary frame e
      let values ← entries.mapM (valueOf frame)
      return .declare { d with initial := some (.entries shape values frame.format.precision) }
    else
      let ops ← ((tuples shape).zip entries).mapM fun (idx, v) => do
        let target ← reference frame e
        let target ← liftM (extendRank target (idx.map fun (n : Nat) => .fixed n))
        return Statement.assign target (← valueOf frame v)
      return .block ops false
  | .zero _ | .identity _ | .literal _ _ =>
    liftM (Build.require declare)
    let d ← declareTemporary frame e
    let table ← liftM (Build.table e)
    return .declare { d with
      initial := some (.table table frame.format.precision)
      qualifiers := some ["static", "const"] }
  | e =>
    let code ← computation frame e
    if declare then
      let d ← declareTemporary frame e
      return .declare { d with initial := some (.value code) }
    else return .assign (← reference frame e) code

/-- The code of an operation; `declare` says that it declares the temporary it writes to. -/
def operationCode (frame : Frame K) (op : Operation K) (declare : Bool) : Generating (Statement K) := do
  match op with
  | .initialise s =>
    if declare then
      let d ← declareTemporary frame s
      return .declare { d with initial := some .zero }
    else return .clear (← reference frame s)
  | .accumulate s =>
    let target ← reference frame s
    return .increment target (← valueOf frame (Operation.summand s)) (rootMark frame s)
  | .give v e =>
    let target ← valueOf frame v
    return .increment target (← valueOf frame e) (rootMark frame e)
  | .giveSum v s =>
    let target ← valueOf frame v
    return .increment target (← valueOf frame (Operation.summand s)) (rootMark frame s)
  | .evaluate e => evaluateCode frame e declare
  | .hold _ => throw (.requirement "")

def blockCode (frame : Frame K) (declared : List (Expr K)) (statements : List (Statement K)) :
    Generating (Statement K) := do
  let declarations ← declared.mapM fun e => do return Statement.declare (← declareTemporary frame e)
  return .block (declarations ++ statements) true

mutual

def statementCode (p : Program K) (frame : Frame K) (path : List Nat) :
    FormCompiler.Statement K → Generating (Statement K)
  | .run op => operationCode frame op (p.declares op)
  | .loop i body => do
    let extent ← match ← liftM (Build.extent i) with
      | some n => if n = 0 then throw (.requirement "") else pure n
      | none => throw (.requirement "")
    let counter ← indexName i
    let statements ← statementsCode p frame path 0 body
    let block ← blockCode frame (p.declaredAt path) statements
    let mark := if frame.arguments.contains i then some "#pragma coffee linear loop" else none
    return .loop counter extent block mark

def statementsCode (p : Program K) (frame : Frame K) (path : List Nat) (n : Nat) :
    List (FormCompiler.Statement K) → Generating (List (Statement K))
  | [] => return []
  | s :: ss => do
    let first ← statementCode p frame (path ++ [n]) s
    return first :: (← statementsCode p frame path (n + 1) ss)

end

def temporaryNames (p : Program K) : Std.HashMap (Expr K) String :=
  p.temporaries.zipIdx.foldl (fun m (t, n) => m.insert t s!"t{n}") ∅

def ofProgram (p : Program K) (format : NumberFormat K) (names : List (Index × String))
    (roots : List (Expr K) := []) (arguments : List Index := []) : Build (Statement K) := do
  let kept : Std.HashMap (Expr K) (List Index) := p.kept.foldl (fun m (e, is) => m.insert e is) ∅
  let frame : Frame K := { format, temporaries := temporaryNames p, kept, roots, arguments }
  let code : Generating (Statement K) := do
    let statements ← statementsCode p frame [] 0 p.tree
    blockCode frame (p.declaredAt []) statements
  code.run' { names }

/-- The code of a single expression without temporaries, under given names of indices. -/
def ofExpr (e : Expr K) (format : NumberFormat K) (names : List (Index × String)) : Build (Value K) :=
  (valueOf { format } e).run' { names, open_ := false }

end Code

end FormCompiler
