import FormCompiler.Error

/-!
# Dynamically scoped values

A value that holds while a block is entered. Blocks are left in the reverse order of their entry.
-/

namespace FormCompiler

/-- A dynamically scoped value: the blocks that are entered, the innermost first, over a default. -/
structure Scope (α : Type) where
  /-- The value that holds outside all blocks. -/
  default : Option α
  /-- The number of each block that is entered, with its value. -/
  entered : List (Nat × α) := []

namespace Scope

variable {α : Type}

def value (s : Scope α) : Except Error α :=
  match s.entered, s.default with
  | (_, a) :: _, _ => .ok a
  | [], some a => .ok a
  | [], none => .error .unset

/-- Enter a block, which must not be entered already. -/
def enter (s : Scope α) (block : Nat) (a : α) : Except Error (Scope α) :=
  if s.entered.any fun p => p.1 == block then .error (.requirement "")
  else .ok { s with entered := (block, a) :: s.entered }

/-- Leave a block, which must be the innermost. -/
def leave (s : Scope α) (block : Nat) : Except Error (Scope α) :=
  match s.entered with
  | (n, _) :: rest => if n == block then .ok { s with entered := rest } else .error (.requirement "")
  | [] => if s.default.isNone then .error .unsupported else .error (.requirement "")

end Scope

end FormCompiler
