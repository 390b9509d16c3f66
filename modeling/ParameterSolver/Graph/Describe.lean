import ParameterSolver.Graph.Order
import ParameterSolver.ShortName

/-!
How nodes are written in messages.
-/

namespace ParameterSolver.Generation

variable {α : Type} [Scalar α]

/-- The name of a parameter, or a short name by its place among all parameters. -/
def parameterName (g : Generation α) (id : NodeId) (p : Parameter α) : String :=
  match p.name with
  | some name => name
  | none => ShortName.text ((g.parametersByOrigin.findIdx? (· = id)).getD 0)

/-- A node with its operands written out. No chain of operands is longer than the generation, so
`fuel` is its size. -/
def describeWith (g : Generation α) : Nat → NodeId → String
  | 0, id => "<" ++ id.text ++ ">"
  | fuel + 1, id =>
    match g.node? id with
    | none => "<" ++ id.text ++ ">"
    | some (.parameter p) => g.parameterName id p
    | some (.literal value _) => value.render
    | some (.constant c) => c.dump
    | some (.expression e) =>
      e.op.name ++ "(" ++ ", ".intercalate (e.operands.map (g.describeWith fuel)) ++ ")"
        ++ (if e.asserted then "!" else "")

def describe (g : Generation α) (id : NodeId) : String := g.describeWith g.size id

end ParameterSolver.Generation
