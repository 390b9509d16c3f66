import ParameterSolver.Operator
import ParameterSolver.ValueSet.Basic

/-!
The values an expression can take when each operand takes a value of its own set. The result may be
too large and is never too small; no result means that nothing is known.

Some operators combine sets rather than values. For those it matters whether the set of an operand
is known exactly or may itself be too large.
-/

namespace ParameterSolver.Propagation

variable {α : Type} [Scalar α]

/-- The operators that give an exact set for exact sets. -/
def keepsExactness (op : Operator) : Bool :=
  op ∈ ([.union, .intersection, .difference, .symmetricDifference] : List Operator)

/-- Combines the elements of a list from the left. -/
def reduce? {β : Type} (f : β → β → Option β) : List β → Option β
  | [] => none
  | first :: rest => rest.foldlM f first

/-- The sums `x + offset`, the offset in base units. -/
def shift? (x : Quantities α) (offset : α) : Option (Quantities α) :=
  (x.add ⟨.singleton offset, x.unit⟩).toOption

/-- The interval that the least or the greatest of some numbers lies in, each taken from its own
set. -/
def extremum? (pick : α → α → α) (start : α) (sets : List (Quantities α)) :
    Option (Quantities α) := do
  let first ← sets.head?
  if sets.any fun q => !q.unit.commensurable first.unit then none
  let lo ← sets.foldlM (fun acc q => q.base.min?.map (pick acc)) start
  let hi ← sets.foldlM (fun acc q => q.base.max?.map (pick acc)) start
  return ⟨.closed lo hi, first.unit⟩

def arithmetic? (op : Operator) (operands : List (ValueSet α)) : Option (Quantities α) := do
  let sets ← operands.mapM ValueSet.quantities?
  let first ← sets.head?
  match op, sets with
  | .add, _ => reduce? (fun a b => (a.add b).toOption) sets
  | .subtract, _ => reduce? (fun a b => (a.add b.neg).toOption) sets
  | .multiply, _ => reduce? (fun a b => (a.mul b).toOption) sets
  | .divide, _ :: second :: _ => do
    let inverse ← second.invert.toOption
    (first.mul inverse).toOption
  | .power, _ :: second :: _ => (first.pow second).toOption
  | .round, _ => some first.round
  | .abs, _ => some first.abs
  | .sin, _ => first.sin.toOption
  | .log, _ => first.ln.toOption
  | .floor, _ => (shift? first (-0.5)).map Quantities.round
  | .ceil, _ => (shift? first.neg (-0.5)).map fun q => q.round.neg
  | .cos, _ => do (← shift? first Scalar.halfPi).sin.toOption
  | .sqrt, _ => (first.pow (.plain (.singleton 0.5))).toOption
  | .min, _ => extremum? Scalar.lesser Scalar.infinity sets
  | .max, _ => extremum? Scalar.greater (-Scalar.infinity) sets
  | _, _ => none

/-- Not all operands are alike. -/
def xorOf (l : List Bool) : Bool := l.any id && !l.all id

/-- The first operand is false or one of the others true. -/
def impliesOf : List Bool → Bool
  | [] => true
  | first :: rest => !first || rest.any id

def logic? (op : Operator) (operands : List (ValueSet α)) : Option Truths := do
  let sets ← operands.mapM ValueSet.truths?
  match op, sets with
  | _, [] => none
  | .not, first :: _ => some first.not
  | .or, first :: rest => some (rest.foldl Truths.or first)
  | .and, _ => some (.image (·.all id) sets)
  | .implies, _ => some (.image impliesOf sets)
  | .xor, _ => some (.image xorOf sets)
  | _, _ => none

/-- The truth values of `x = y`. -/
def equals? (a b : ValueSet α) : Option Truths := do
  let common ← (a.inter b).toOption
  let certain := a.isSingleton && b.isSingleton
  return ⟨!certain || common.isEmpty, !common.isEmpty⟩

/-- The truth values of `x ∈ b`, where `b` is the set itself if `exact` and may be smaller if
not. -/
def belongs? (a b : ValueSet α) (exact : Bool) : Option Truths := do
  let common ← (a.inter b).toOption
  if common.isEmpty then return .of false
  let included ← (a.isSubset b).toOption
  return ⟨!(included && (exact || b.isSingleton)), true⟩

/-- The truth values of `x ≥ y`, or of `x > y`. -/
def exceeds? (a b : ValueSet α) (strict : Bool) : Option Truths := do
  let a ← a.quantities?
  let b ← b.quantities?
  if !a.unit.commensurable b.unit then none
  let aMin ← a.base.min?
  let aMax ← a.base.max?
  let bMin ← b.base.min?
  let bMax ← b.base.max?
  return if strict then ⟨aMin ≤ bMax, bMin < aMax⟩ else ⟨aMin < bMax, bMin ≤ aMax⟩

def relation? (op : Operator) (operands : List (ValueSet α)) (exact : List Bool) :
    Option Truths :=
  match operands with
  | a :: b :: _ =>
    match op with
    | .is => equals? a b
    | .isSubset => belongs? a b (exact.getD 1 false)
    | .isSuperset => belongs? b a (exact.getD 0 false)
    | .greaterOrEqual => exceeds? a b false
    | .lessOrEqual => exceeds? b a false
    | .greaterThan => exceeds? a b true
    | .lessThan => exceeds? b a true
    | _ => none
  | _ => none

def sets? (op : Operator) (operands : List (ValueSet α)) (exact : List Bool) :
    Option (ValueSet α) :=
  let union := fun a b : ValueSet α => (a.union b).toOption
  match op, exact.all id with
  | .union, _ => reduce? union operands
  | .intersection, _ => reduce? (fun a b => (a.inter b).toOption) operands
  | .symmetricDifference, true => reduce? (fun a b => (a.symmDiff b).toOption) operands
  | .symmetricDifference, false => reduce? union operands
  | .difference, true => reduce? (fun a b => (a.diff b).toOption) operands
  | .difference, false => operands.head?
  | _, _ => none

/-- What is known of an expression with an operand of which nothing is known. -/
def unknown? (op : Operator) : Option (ValueSet α) :=
  if op.isPredicate then some (.boolean .all) else none

/-- The value of an expression whose operands all have values. -/
def evaluateKnown? (op : Operator) (operands : List (ValueSet α)) (exact : List Bool) :
    Option (ValueSet α) :=
  if op.has .logic then (logic? op operands).map .boolean
  else if op.has .relation then (relation? op operands exact).map .boolean
  else if op.has .set then sets? op operands exact
  else (arithmetic? op operands).map .numeric

/-- An operand without a value leaves none for the expression. -/
def evaluate? (op : Operator) (operands : List (Option (ValueSet α))) (exact : List Bool) :
    Option (ValueSet α) :=
  match (operands.filterMap id).find? ValueSet.isEmpty with
  | some empty => some (if op.isPredicate then .boolean .none else empty)
  | none =>
    match operands.mapM id with
    | some known => (evaluateKnown? op known exact).or (unknown? op)
    | none => unknown? op

end ParameterSolver.Propagation
