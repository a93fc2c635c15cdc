import FormCompiler.Expr.Build

/-!
# Equality of nodes as numbers

Two nodes compared by what they hold, without regard to which object they are: literals entry by entry as numbers, so
that what is not a number differs even from itself; listed tensors entry by entry, where a dimension of extent one is
repeated; all other nodes by kind, data and children.
-/

namespace FormCompiler

namespace Expr

variable {K : Type} [Scalar K]

/-- Common extents, where one stands for any; none if the extents do not fit. Counted from the last. -/
def commonExtents : List Nat → List Nat → Option (List Nat)
  | [], t => some t
  | s, [] => some s
  | m :: s, n :: t => do
    let d ← if m = n then some m else if m = 1 then some n else if n = 1 then some m else none
    return d :: (← commonExtents s t)

/-- The position in a shape with repeated dimensions, both counted from the last. -/
def clampPosition : List Nat → List Nat → List Nat
  | [], _ => []
  | _ :: s, [] => 0 :: clampPosition s []
  | n :: s, i :: idx => (if n = 1 then 0 else i) :: clampPosition s idx

/-- Are two listed tensors equal where they overlap? Refused if their shapes do not fit. -/
def equalListed (s t : List Nat) (as bs : List (Expr K)) : Build Bool :=
  match commonExtents s.reverse t.reverse with
  | none => throw .malformed
  | some common =>
    let at_ := fun (shape : List Nat) (es : Array (Expr K)) (idx : List Nat) =>
      es[position shape (clampPosition shape.reverse idx.reverse).reverse]?
    let (as, bs) := (as.toArray, bs.toArray)
    return (tuples common.reverse).all fun idx =>
      match at_ s as idx, at_ t bs idx with
      | some a, some b => a == b
      | _, _ => false

def equalNode (a b : Expr K) : Build Bool :=
  match a, b with
  | .literal s _, .literal t _ => return Tensor.equal s t
  | .listTensor s as, .listTensor t bs => equalListed s t as bs
  | a, b => return a == b

end Expr

end FormCompiler
