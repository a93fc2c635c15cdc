/-!
# Grouping

Members of a list are gathered by a key. Groups stand in the order in which their keys are first met, and members in
the order of the list.
-/

namespace FormCompiler

variable {α κ : Type} [BEq κ]

/-- Put a member into the group of its key, which is opened if there is none. -/
def insertGroup (k : κ) (a : α) : List (κ × List α) → List (κ × List α)
  | [] => [(k, [a])]
  | (l, members) :: rest =>
    if l == k then (l, members ++ [a]) :: rest else (l, members) :: insertGroup k a rest

def groupBy (key : α → κ) (items : List α) : List (κ × List α) :=
  items.foldl (fun groups a => insertGroup (key a) a groups) []

/-- The members of a list without repetition, in the order in which they are first met. -/
def distinct {α : Type} [BEq α] (items : List α) : List α :=
  items.foldl (fun seen a => if seen.contains a then seen else seen ++ [a]) []

/-- One member of each list, in all ways, the last list running fastest. -/
def choices {α : Type} : List (List α) → List (List α)
  | [] => [[]]
  | options :: rest => options.flatMap fun a => (choices rest).map (a :: ·)

def selections {α : Type} : List α → List (α × List α)
  | [] => []
  | a :: as => (a, as) :: (selections as).map fun (b, bs) => (b, a :: bs)

/-- The orders in which `n` members can be taken, by position. -/
def arrangements {α : Type} : Nat → List α → List (List α)
  | 0, _ => [[]]
  | n + 1, as => (selections as).flatMap fun (a, rest) => (arrangements n rest).map (a :: ·)

/-- The pairs of members, the first before the second. -/
def pairs {α : Type} : List α → List (α × α)
  | [] => []
  | a :: as => as.map (fun b => (a, b)) ++ pairs as

end FormCompiler
