import ParameterSolver.Pass.Basic

/-!
The bounds and the domain of every parameter become assertions that it lies in a set.
-/

namespace ParameterSolver.Pass

variable {α : Type} [Scalar α]

/-- The sets that a parameter has to be asserted to lie in. -/
def constraints (p : Parameter α) : List (ValueSet α) :=
  p.within.toList ++ if p.domainApplied then [] else (p.domain.restriction? p.unit).toList

def constrainParameter (id : NodeId) (p : Parameter α) : Edit α Unit := do
  if p.domainApplied && p.within.isNone then return
  let sets := constraints p
  let change (p : Parameter α) : Parameter α :=
    { p with within := none, domainApplied := true, constrained := p.constrained || !sets.isEmpty }
  match ← Draft.editParameter id change with
  | none => return
  | some out =>
    sets.forM fun s => do
      Draft.log .trace "ohmcore::algorithms::domain"
        ((← get).input.describe id ++ " is constrained to " ++ s.render)
      discard (Draft.createExpression .isSubset [.output out, .literal s] true [id])

def domains : Pass α where
  name := "constrain_within_and_domain"
  run := do (← get).input.parameters.forM fun (id, p) => constrainParameter id p

end ParameterSolver.Pass
