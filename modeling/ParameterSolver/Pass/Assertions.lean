import ParameterSolver.Pass.Basic

/-!
Every assertion becomes the assertion that an expression is true.
-/

namespace ParameterSolver.Pass

variable {α : Type} [Scalar α]

/-- The expression says of something that it is true. -/
def saysTrue (g : Generation α) (e : Expression) : Bool :=
  e.op = .is && e.operands.any fun o => (g.literal? o).any ValueSet.isTrue

def wrapAssertion (id : NodeId) (e : Expression) : Edit α Unit := do
  if !e.asserted || !e.op.isPredicate || saysTrue (← get).input e then return
  match ← Draft.editExpression id { asserted := some false } with
  | none => return
  | some inner =>
    discard (Draft.createExpression .is [.output inner, .literal (.truth true)] true [id])

def assertions : Pass α where
  name := "alias_predicates_to_true"
  run := do (← get).input.expressions.forM fun (id, e) => wrapAssertion id e

end ParameterSolver.Pass
