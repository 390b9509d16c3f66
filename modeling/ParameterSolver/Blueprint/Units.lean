import ParameterSolver.Error
import ParameterSolver.Graph.Order

/-!
The units of the nodes of a graph, as far as they can be inferred, and the operands whose units do
not fit together.
-/

namespace ParameterSolver.Blueprint

variable {α : Type} [Scalar α]

/-- The operators whose numeric operands measure one dimension. -/
def needsSameUnit (op : Operator) : Bool :=
  op.has .relation || op ∈ ([.add, .subtract, .min, .max, .round, .abs, .floor, .ceil, .union,
    .intersection, .difference, .symmetricDifference] : List Operator)

/-- The bounds of a parameter that measure another dimension than the parameter. -/
def boundFaults (p : Parameter α) : List (BuildError α) :=
  ([p.within, p.soft, p.guess].filterMap fun bound => bound.bind ValueSet.unit?).filterMap
    fun unit =>
      if unit.commensurable p.unit then none else some (.boundUnitMismatch p.unit unit)

/-- The first of some units and the first that does not fit to it. -/
def mismatch (op : Operator) (known : List (MeasureUnit α)) : List (BuildError α) :=
  match known with
  | [] => []
  | left :: _ =>
    match known.find? fun u => !u.commensurable left with
    | some right => [.unitMismatch op left right]
    | none => []

/-- The unit of an expression from the units of its operands, and what is wrong with them. -/
def expressionUnit (units : NodeMap (MeasureUnit α)) (e : Expression) :
    Option (MeasureUnit α) × List (BuildError α) :=
  let known := e.operands.filterMap units.get?
  let complete := known.length == e.operands.length
  if needsSameUnit e.op then
    (if e.op.isPredicate then none else known.head?, mismatch e.op known)
  else
    match e.op, complete, known with
    | .multiply, true, _ => ((known.foldlM MeasureUnit.mul .one).toOption, [])
    | .divide, true, [a, b] => ((a.div b).toOption, [])
    | _, _, _ => (none, [])

/-- The unit of a node, if it has one, and what is wrong with the units it depends on. -/
def nodeUnit (units : NodeMap (MeasureUnit α)) :
    Node α → Option (MeasureUnit α) × List (BuildError α)
  | .parameter p => if p.domain.isNumbers then (some p.unit, boundFaults p) else (none, [])
  | .literal value _ => (value.unit?, [])
  | .constant c => (c.toSet.toOption.bind ValueSet.unit?, [])
  | .expression e => expressionUnit units e

/-- The units found so far and the faults among them. -/
structure UnitCheck (α : Type) where
  units : NodeMap (MeasureUnit α)
  faults : List (BuildError α)

def UnitCheck.step (g : Generation α) (c : UnitCheck α) (id : NodeId) : UnitCheck α :=
  match g.node? id with
  | none => c
  | some node =>
    let (unit, faults) := nodeUnit c.units node
    ⟨match unit with
      | some u => c.units.insert id u
      | none => c.units, c.faults ++ faults⟩

def checkUnits (g : Generation α) : UnitCheck α :=
  g.topologicalOrder.foldl (UnitCheck.step g) ⟨.empty, []⟩

end ParameterSolver.Blueprint
