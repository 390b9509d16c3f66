import ParameterSolver.Graph.Generation

/-!
Orders of the nodes of a generation: operands before their users, and parameters by their earliest
origin.
-/

namespace ParameterSolver.Generation

variable {α : Type} [Scalar α]

/-- Adds to `done`, latest first, the operands of a node and then the node itself, leaving out what
is there already. No chain of operands is longer than the generation, so `fuel` is its size. -/
def visit (g : Generation α) : Nat → List NodeId → NodeId → List NodeId
  | 0, done, _ => done
  | fuel + 1, done, id =>
    if id ∈ done then done else id :: (g.operands id).foldl (g.visit fuel) done

/-- All nodes, operands before their users and otherwise in the order they entered. -/
def topologicalOrder (g : Generation α) : List NodeId :=
  (g.order.foldl (g.visit g.size) []).reverse

/-- Nodes ordered by a key that may be absent; those without it come first, and equals keep their
order. -/
def sortByFirstOrigin (g : Generation α) (ids : List NodeId) : List NodeId :=
  let key (id : NodeId) : Nat :=
    match (g.provenance? id).bind SortedSet.first? with
    | some o => o + 1
    | none => 0
  ids.mergeSort fun a b => key a ≤ key b

/-- The parameters by their earliest origin. -/
def parametersByOrigin (g : Generation α) : List NodeId :=
  g.sortByFirstOrigin (g.parameters.map (·.1))

end ParameterSolver.Generation
