/-!
# Sameness of shared trees

Trees that share parts are compared from the root. A comparison carries that every tree is the same as itself, by which a
part that is the very same object need not be looked at.
-/

namespace FormCompiler

/-- Compare two lists member by member with a comparison that every member passes against itself. -/
def compareAll {α : Type} : (as bs : List α) →
    ((a : α) → a ∈ as → (b : α) → { r : Bool // a = b → r = true }) → { r : Bool // as = bs → r = true }
  | [], [], _ => ⟨true, fun _ => rfl⟩
  | a :: as, b :: bs, f =>
    let first := f a List.mem_cons_self b
    if h : first.1 = true then
      let rest := compareAll as bs fun a' ha' b' => f a' (List.mem_cons_of_mem _ ha') b'
      ⟨rest.1, fun heq => rest.2 (List.cons.inj heq).2⟩
    else ⟨false, fun heq => absurd (first.2 (List.cons.inj heq).1) h⟩
  | [], _ :: _, _ => ⟨false, nofun⟩
  | _ :: _, [], _ => ⟨false, nofun⟩

end FormCompiler
