import FormCompiler.Concatenation

/-!
# Names of loop variables

The indices of a kernel get names that tell where they come from. A list of one index has the name of the list; in a longer
list the position is put behind it. Where an index was split into parts, the indices of the parts have a letter behind the
name of the index.
-/

namespace FormCompiler

namespace LoopNames

/-- The letters by which the parts of an index are told apart. -/
def letters : List Char := "abcdefghijklmnopqrstuvwxyz".toList

mutual

/-- The names of an index and of the parts into which it was split, down to a depth. -/
def ofIndex (splits : Concatenation.Splits) : (depth : Nat) → Index → String → List (Index × String)
  | 0, i, name => [(i, name)]
  | depth + 1, i, name =>
    (i, name) :: match splits.lookup i with
      | none => []
      | some parts => (parts.zip letters).flatMap fun (is, c) => ofIndices splits depth is (name.push c)

def ofIndices (splits : Concatenation.Splits) (depth : Nat) (is : List Index) (name : String) : List (Index × String) :=
  match is with
  | [i] => ofIndex splits depth i name
  | is => is.zipIdx.flatMap fun (i, n) => ofIndex splits depth i (name ++ toString n)

end

/-- The names of the indices of a kernel: those of the points, and those of the first two arguments. Splits nest at most as
deep as there are splits. -/
def ofKernel (splits : Concatenation.Splits) (points : List Index) (arguments : List (List Index)) :
    List (Index × String) :=
  let depth := splits.length
  ofIndices splits depth points "ip" ++
    (arguments.zip ["j", "k"]).flatMap fun (is, name) => ofIndices splits depth is name

end LoopNames

end FormCompiler
