import ParameterSolver.Graph.Node

/-!
What can be wrong with a graph, and why a solve can fail.
-/

namespace ParameterSolver

variable {α : Type} [Scalar α]

def arityMessage (op : Operator) (found : Nat) : String :=
  "Operator `" ++ op.name ++ "` takes " ++ op.arity.text ++ " operands, found " ++ toString found
    ++ "."

/-- A fault of a graph under construction. -/
inductive BuildError (α : Type) where
  | arity (op : Operator) (found : Nat)
  /-- Only predicates can be asserted. -/
  | notAPredicate (op : Operator)
  | unknownOperand (operand : NodeId)
  /-- A constant that stands for no set. -/
  | badConstant (cause : SetError α)
  /-- Two operands measure different dimensions. -/
  | unitMismatch (op : Operator) (left right : MeasureUnit α)
  /-- A parameter and a set that bounds it measure different dimensions. -/
  | boundUnitMismatch (parameter bound : MeasureUnit α)

def BuildError.message : BuildError α → String
  | arity op found => arityMessage op found
  | notAPredicate op =>
    "Only predicates can be asserted, `" ++ op.name ++ "` is not a predicate."
  | unknownOperand operand =>
    "Operand " ++ operand.text ++ " was not created by this builder."
  | badConstant cause => "Constant cannot be turned into a literal: " ++ cause.message
  | unitMismatch op left right =>
    "Operands of `" ++ op.name ++ "` measure different dimensions: `" ++ left.text ++ "` and `"
      ++ right.text ++ "`."
  | boundUnitMismatch parameter bound =>
    "Parameter in `" ++ parameter.text ++ "` is bounded by a set in `" ++ bound.text ++ "`."

inductive SolveError (α : Type) where
  /-- The graph was not built. -/
  | graph (faults : List (BuildError α))
  | set (cause : SetError α)
  | arity (op : Operator) (found : Nat)
  /-- An expression uses a node that is not there. -/
  | danglingOperand (node operand : NodeId) (generation : Nat)
  /-- A node without an origin. -/
  | missingProvenance (node : NodeId)
  /-- The passes ended with an operator outside the basis, or with a constant. -/
  | notCanonical (generation : Nat) (node : NodeId) (op : Option Operator)
  | budgetExceeded (rounds : Nat)
  | notAParameter (node : NodeId)
  | unknownNode (node : NodeId)
  /-- A node was to be created from no other node. -/
  | noProvenance

def SolveError.message : SolveError α → String
  | graph faults =>
    "Graph construction failed with " ++ toString faults.length ++ " error(s): "
      ++ "; ".intercalate (faults.map BuildError.message)
  | set cause => "Set operation failed: " ++ cause.message
  | arity op found => arityMessage op found
  | danglingOperand node operand generation =>
    "Node " ++ node.text ++ " of generation " ++ toString generation
      ++ " refers to missing operand " ++ operand.text ++ "."
  | missingProvenance node => "Node " ++ node.text ++ " carries no provenance."
  | notCanonical generation node op =>
    "Generation " ++ toString generation ++ " is not canonical: node " ++ node.text
      ++ " still uses "
      ++ (match op with
        | some op => "operator `" ++ op.name ++ "`"
        | none => "a raw constant")
      ++ "."
  | budgetExceeded rounds =>
    "Canonicalization did not reach a fixpoint within " ++ toString rounds ++ " rounds."
  | notAParameter node => "Node " ++ node.text ++ " is not a parameter."
  | unknownNode node => "Node " ++ node.text ++ " does not exist in this generation."
  | noProvenance => "Nodes created by a pass need at least one provenance source."

end ParameterSolver
