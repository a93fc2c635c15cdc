import FormCompiler.Form.Modified

/-!
# Parts of an integrand by side

On an interior facet an integrand has one part for each choice of a side for each argument. A part is what remains when
every occurrence of an argument on another side is zero.
-/

namespace FormCompiler

namespace Term

variable {K : Type} [Elementary K]

/-- Zero for an argument restricted to another side than the one chosen for it, and the term itself otherwise. -/
def pickTerminal (sides : Nat → Except Error (Option Side)) (t : Term K) : Except Error (Term K) := do
  let m ← Modified.analyse t
  match m.terminal with
  | .argument v =>
    let side ← sides v.number
    .ok (if m.restriction == side then t else zero t.shape t.free)
  | _ => .ok t

/-- The sides chosen for the first and the second argument. -/
def sidesOf (test trial : Option Side) (number : Nat) : Except Error (Option Side) :=
  match number with
  | 0 => .ok test
  | 1 => .ok trial
  | _ => .error .missing

def pickRestriction (test trial : Option Side) (t : Term K) : Except Error (Term K) :=
  (memoise (m := Except Error) (modifiedStep fun t => StateT.lift (pickTerminal (sidesOf test trial) t)) t).run' ∅

end Term

end FormCompiler
