import ParameterSolver.Pass.Basic

/-!
Every operator outside the basis is expressed in the basis. An expression keeps its node, so that
its users keep their operand; what it is built from are new expressions with its origins.
-/

namespace ParameterSolver.Pass

variable {α : Type} [Scalar α]

def operatorSource : String := "ohmcore::algorithms::operations"

/-- An edit that has no result when an operand is gone. -/
abbrev Law (α β : Type) := OptionT (ExceptT (SolveError α) (StateM (Draft α))) β

def number (x : α) : Operand α := .literal (.number x)

/-- A new expression with the origins of `id`. -/
def build (id : NodeId) (op : Operator) (operands : List (Operand α)) : Law α (Operand α) :=
  .output <$> OptionT.mk (Draft.createExpression op operands false [id])

/-- Puts another operator and other operands into the node of an expression. -/
def become (id : NodeId) (op : Operator) (operands : List (Operand α)) : Law α Unit :=
  discard (.lift (Draft.editExpression id { op := some op, operands := some operands }))

/-- The two sides of the outer difference in `a ∩ b = (a ∪ b) △ (a △ b)`. -/
def meetParts (id : NodeId) (a b : Operand α) : Law α (List (Operand α)) := do
  let union ← build id .union [a, b]
  let delta ← build id .symmetricDifference [a, b]
  return [union, delta]

/-- The intersection of `acc` with some nodes, in the node `id`. -/
def meet (id : NodeId) (acc : Operand α) : List NodeId → Law α Unit
  | [] => return
  | [last] => do become id .symmetricDifference (← meetParts id acc (.input last))
  | next :: rest => do
    let acc ← build id .symmetricDifference (← meetParts id acc (.input next))
    meet id acc rest

/-- The least or the greatest operand is a new parameter that is one of the operands and that no
operand is less, or greater, than. -/
def witness (id : NodeId) (least : Bool) (operands : List NodeId) : Law α Unit := do
  let union ← build id .union (operands.map .input)
  let out ← .lift (Draft.createParameter .real [id])
  let self : Operand α := .output out
  discard (.lift (Draft.createExpression .isSubset [self, union] true [id]))
  discard (.lift (Draft.createExpression .greaterOrEqual
    (if least then [union, self] else [self, union]) true [id]))
  .lift (Draft.redirect id out)
  .lift (Draft.log .debug operatorSource
    ((← get).input.describe id ++ " replaced by a witness parameter"))

/-- A comparison `a > b` is taken for `a ≥ b`. -/
def relax (id : NodeId) (a b : NodeId) : Law α Unit := do
  .lift (Draft.log .warn operatorSource ("strict comparison " ++ (← get).input.describe id
    ++ " is approximated by " ++ Operator.greaterOrEqual.name))
  become id .greaterOrEqual [.input a, .input b]

/-- An operator that has no law goes, with everything that uses it. -/
def discardUnsupported (id : NodeId) (op : Operator) : Law α Unit := do
  .lift (Draft.log .warn operatorSource ("operator `" ++ op.name
    ++ "` has no canonical form, dropping " ++ (← get).input.describe id))
  .lift (Draft.remove id)

/-- The law of each operator outside the basis. -/
def applyLaw (id : NodeId) (e : Expression) : Law α Unit := do
  let negate (o : NodeId) : Law α (Operand α) := build id .not [.input o]
  match e.op, e.operands with
  | .subtract, first :: rest => do
    let negated ← rest.mapM fun o => build id .multiply [.input o, number (-1)]
    become id .add (.input first :: negated)
  | .divide, a :: b :: _ => do
    let inverse ← build id .power [.input b, number (-1)]
    become id .multiply [.input a, inverse]
  | .and, operands => do
    let anyFalse ← build id .or (← operands.mapM negate)
    become id .not [anyFalse]
  | .implies, first :: rest => do
    let premise ← negate first
    become id .or (premise :: rest.map .input)
  | .xor, operands => do
    let anyTrue ← build id .or (operands.map .input)
    let noneTrue ← build id .not [anyTrue]
    let anyFalse ← build id .or (← operands.mapM negate)
    let noneFalse ← build id .not [anyFalse]
    let uniform ← build id .or [noneTrue, noneFalse]
    become id .not [uniform]
  | .lessOrEqual, a :: b :: _ => become id .greaterOrEqual [.input b, .input a]
  | .isSuperset, a :: b :: _ => become id .isSubset [.input b, .input a]
  | .greaterThan, a :: b :: _ => relax id a b
  | .lessThan, a :: b :: _ => relax id b a
  | .floor, a :: _ => do
    let shifted ← build id .add [.input a, number (-0.5)]
    become id .round [shifted]
  | .ceil, a :: _ => do
    let negated ← build id .multiply [.input a, number (-1)]
    let shifted ← build id .add [negated, number (-0.5)]
    let rounded ← build id .round [shifted]
    become id .multiply [rounded, number (-1)]
  | .cos, a :: _ => do
    let shifted ← build id .add [.input a, number Scalar.halfPi]
    become id .sin [shifted]
  | .sqrt, a :: _ => become id .power [.input a, number 0.5]
  | .min, operands => witness id true operands
  | .max, operands => witness id false operands
  | .difference, first :: rest => do
    let all ← build id .union ((first :: rest).map .input)
    let taken ← build id .union (rest.map .input)
    become id .symmetricDifference [all, taken]
  | .intersection, first :: rest => meet id (.input first) rest
  | .cardinality, _ | .differentiate, _ | .integrate, _ => discardUnsupported id e.op
  | _, _ => return

def canonize (id : NodeId) (e : Expression) : Edit α Unit := do
  if e.op.isCanonical || (← get).isRemoved id then return
  match ← (applyLaw id e).run with
  | some () => return
  | none => Draft.remove id

def operators : Pass α where
  name := "canonical_operations"
  run := do (← get).input.expressions.forM fun (id, e) => canonize id e

end ParameterSolver.Pass
