import FormCompiler.Error

/-!
# Attributes computed once

An object seen through a proxy: its public attributes are computed when they are first asked for and kept.
-/

namespace FormCompiler

/-- Attributes with their values, and the names of those computed so far. -/
structure Attributes (α : Type) where
  values : List (String × α)
  computed : List String := []

namespace Attributes

variable {α : Type}

/-- The attribute of a name; a later one of the same name counts. Names with a leading underscore are private. -/
def find? (a : Attributes α) (name : String) : Option α :=
  if name.startsWith "_" then none
  else (a.values.reverse.find? fun p => p.1 == name).map Prod.snd

def access (a : Attributes α) (name : String) : Except Error α × Attributes α :=
  match a.find? name with
  | none => (.error .absent, a)
  | some v => (.ok v, if a.computed.contains name then a else { a with computed := a.computed ++ [name] })

end Attributes

end FormCompiler
