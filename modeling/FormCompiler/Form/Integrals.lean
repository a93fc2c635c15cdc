import FormCompiler.Form.Prepare
import FormCompiler.Parameters

/-!
# Forms and their integrals

A form is a sum of integrals, each over a kind of entity and over all of the mesh or some numbered subdomains. The integrals
of a form are arranged by kind and subdomain: what is integrated everywhere is integrated in each numbered subdomain too, and
integrands under the same options are added up. Then every integrand is prepared, and those that vanish are dropped.
-/

namespace FormCompiler

inductive Region where
  | everywhere
  | numbered (ns : List Int)
  deriving DecidableEq, Repr, Inhabited

inductive Subdomain where
  | number (n : Int)
  | otherwise
  deriving DecidableEq, Repr, Inhabited

def Subdomain.text : Subdomain → String
  | .number n => toString n
  | .otherwise => "otherwise"

structure FormIntegral (K : Type) where
  type : IntegralType
  region : Region
  integrand : Term K
  options : IntegralOptions

structure Prepared (K : Type) where
  integrand : Term K
  options : IntegralOptions
  degree : Degree

/-- The integrals of one kind over one subdomain. -/
structure IntegralGroup (K : Type) where
  type : IntegralType
  subdomain : Subdomain
  parts : List (Prepared K)

structure PreparedForm (K : Type) where
  domain : Domain
  arguments : List Argument
  /-- The coefficients that remain, each with its position among those of the form. -/
  coefficients : List (Nat × Coefficient)
  groups : List (IntegralGroup K)

namespace Term

variable {K : Type} [Elementary K]

/-- The terminals of a term, each once, in the order of a walk. -/
def terminals (t : Term K) : List (Terminal K) :=
  ((memoise (m := StateM (List (Terminal K))) (fun t self => match t with
    | .leaf u _ => do
      let seen ← getThe (List (Terminal K))
      if seen.any fun v => v.same u then pure () else set (u :: seen)
    | .node op args => do
      let _ ← mapChildren (.node op args) self
      pure ()) t).run' ∅).run [] |>.2.reverse

def coefficientsOf (ts : List (Term K)) : List Coefficient :=
  let found := ts.flatMap fun t => (terminals t).filterMap fun u => match u with
    | .coefficient f => some f
    | _ => none
  (distinct found).mergeSort fun f g => f.count ≤ g.count

def argumentsOf (ts : List (Term K)) : List Argument :=
  let found := ts.flatMap fun t => (terminals t).filterMap fun u => match u with
    | .argument v => some v
    | _ => none
  (distinct found).mergeSort fun u v => u.number ≤ v.number

end Term

namespace PreparedForm

variable {K : Type} [Elementary K]

/-- The integrals over each subdomain. What is integrated everywhere is added to each number, behind what is integrated
there. -/
def bySubdomain (integrals : List (FormIntegral K)) : List (Subdomain × List (FormIntegral K)) :=
  let everywhere := integrals.filter fun i => i.region == .everywhere
  let numbered : List (Int × FormIntegral K) := integrals.flatMap fun i => match i.region with
    | .everywhere => []
    | .numbered ns => ns.map fun n => (n, i)
  let numbers := (distinct (numbered.map Prod.fst)).mergeSort (· ≤ ·)
  let groups := numbers.map fun n =>
    (Subdomain.number n, (numbered.filter fun p => p.1 == n).map Prod.snd ++ everywhere)
  groups ++ if everywhere.isEmpty then [] else [(.otherwise, everywhere)]

/-- Add up the integrands that have the same options. -/
def addUp (integrals : List (FormIntegral K)) : List (IntegralOptions × Term K) :=
  (groupBy (fun (i : FormIntegral K) => i.options) integrals).filterMap fun (o, is) => match is.map (·.integrand) with
    | [] => none
    | t :: ts => some (o, ts.foldl Term.sum t)

def prepare (type : IntegralType) (d : Domain) (o : IntegralOptions) (t : Term K) : Forming (Option (Prepared K)) := do
  if t.isZero then return none
  let degree := Degree.add t.estimatedDegree (← Term.measureDegree (K := K) type d)
  let integrand ← Term.prepareIntegrand type d t
  return if integrand.isZero then none else some ⟨integrand, o, degree⟩

/-- A form on a mesh, arranged and prepared. -/
def ofIntegrals (d : Domain) (integrals : List (FormIntegral K)) : Forming (PreparedForm K) := do
  let all := Term.coefficientsOf (integrals.map (·.integrand))
  let lowered ← integrals.mapM fun i => do
    let t ← Term.lowerAlgebra i.integrand
    return { i with integrand := ← Term.applyDerivatives t }
  let lowered := lowered.filter fun i => !i.integrand.isZero
  let types := IntegralType.table.map Prod.fst
  let groups ← types.flatMapM fun type => do
    (bySubdomain (lowered.filter fun i => i.type == type)).mapM fun (s, is) => do
      let parts ← (addUp is).filterMapM fun (o, t) => prepare type d o t
      return (⟨type, s, parts⟩ : IntegralGroup K)
  let groups := groups.filter fun g => !g.parts.isEmpty
  let integrands := groups.flatMap fun g => g.parts.map (·.integrand)
  let used := Term.coefficientsOf integrands
  return { domain := d, arguments := Term.argumentsOf integrands, groups
           coefficients := used.map fun f => ((all.idxOf? f).getD 0, f) }

end PreparedForm

end FormCompiler
