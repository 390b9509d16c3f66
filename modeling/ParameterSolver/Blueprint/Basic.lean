import ParameterSolver.Blueprint.Units
import ParameterSolver.Graph.Validity

/-!
A graph under construction. Faults are collected and construction goes on; `build` gives the first
generation, or all faults. Every node is its own origin.
-/

namespace ParameterSolver

structure Blueprint (α : Type) where
  generation : Generation α
  /-- The faults so far, in the order they were found. -/
  faults : List (BuildError α)

namespace Blueprint

variable {α : Type} [Scalar α]

def empty : Blueprint α := ⟨.empty 0 .empty, []⟩

def addFaults (b : Blueprint α) (faults : List (BuildError α)) : Blueprint α :=
  { b with faults := b.faults ++ faults }

/-- Adds a node. One with an unknown operand is left out and its id is that of no node. -/
def add (b : Blueprint α) (node : Node α) : NodeId × Blueprint α :=
  let origins := b.generation.origins
  match b.generation.insert node (.singleton origins.size) with
  | .ok (id, g) => (id, { b with generation := { g with origins := origins.push id } })
  | .error operand => (.null, b.addFaults [.unknownOperand operand])

def addParameter (b : Blueprint α) (p : Parameter α) : NodeId × Blueprint α :=
  b.add (.parameter p)

def addLiteral (b : Blueprint α) (value : ValueSet α) : NodeId × Blueprint α :=
  b.add (.literal value none)

def addConstant (b : Blueprint α) (c : Constant α) : NodeId × Blueprint α :=
  let b :=
    match c.toSet with
    | .ok _ => b
    | .error cause => b.addFaults [.badConstant cause]
  b.add (.constant c)

def arityFaults (op : Operator) (operands : List NodeId) : List (BuildError α) :=
  if op.arity.accepts operands.length then [] else [.arity op operands.length]

def addExpression (b : Blueprint α) (op : Operator) (operands : List NodeId) :
    NodeId × Blueprint α :=
  (b.addFaults (arityFaults op operands)).add (.expression ⟨op, operands, false⟩)

/-- Adds a predicate that has to hold. -/
def addAssertion (b : Blueprint α) (op : Operator) (operands : List NodeId) :
    NodeId × Blueprint α :=
  let faults := arityFaults op operands ++ if op.isPredicate then [] else [.notAPredicate op]
  (b.addFaults faults).add (.expression ⟨op, operands, true⟩)

/-- Asserts that a node has a given value. -/
def assign (b : Blueprint α) (target : NodeId) (value : ValueSet α) : NodeId × Blueprint α :=
  let (literal, b) := b.addLiteral value
  b.addAssertion .is [target, literal]

/-- Says in words what a node stands for. -/
def label (b : Blueprint α) (id : NodeId) (text : String) : Blueprint α :=
  { b with generation :=
    { b.generation with origins := b.generation.origins.setLabel id text } }

def build (b : Blueprint α) : Except (SolveError α) (Generation α) := do
  let faults := b.faults ++ (checkUnits b.generation).faults
  if !faults.isEmpty then throw (.graph faults)
  b.generation.validate
  return b.generation

end Blueprint

end ParameterSolver
