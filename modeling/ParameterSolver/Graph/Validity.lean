import ParameterSolver.Error
import ParameterSolver.Graph.Generation

/-!
What every generation has to satisfy, and what the last one has to.
-/

namespace ParameterSolver.Generation

variable {α : Type} [Scalar α]

/-- What is wrong with an expression. -/
def expressionFault? (g : Generation α) (id : NodeId) (e : Expression) : Option (SolveError α) :=
  match e.operands.find? fun o => !g.contains o with
  | some o => some (.danglingOperand id o g.index)
  | none =>
    if e.op.arity.accepts e.operands.length then none
    else some (.arity e.op e.operands.length)

def entryFault? (g : Generation α) (id : NodeId) (e : Entry α) : Option (SolveError α) :=
  if e.provenance.isEmpty then some (.missingProvenance id)
  else e.node.expression?.bind (g.expressionFault? id)

/-- Every node has an origin, every operand is there, and every operator has the operands it
takes. -/
def validate (g : Generation α) : Except (SolveError α) Unit :=
  match g.toList.findSome? fun (id, e) => g.entryFault? id e with
  | some fault => .error fault
  | none => .ok ()

/-- A node that keeps a generation from being canonical, with its operator if it is an
expression. -/
def nonCanonicalEntry? (id : NodeId) (e : Entry α) : Option (NodeId × Option Operator) :=
  match e.node with
  | .expression e => if e.op.isCanonical then none else some (id, some e.op)
  | .constant _ => some (id, none)
  | _ => none

def firstNonCanonical? (g : Generation α) : Option (NodeId × Option Operator) :=
  g.toList.findSome? fun (id, e) => nonCanonicalEntry? id e

end ParameterSolver.Generation
