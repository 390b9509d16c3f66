import ParameterSolver.Graph.Order
import ParameterSolver.Propagation.Knowledge

/-!
Sweeps over a generation: forward, expressions learn from their operands; backward, operands learn
from the expressions that use them. Sweeps go on until nothing is learnt or a budget is used up.
-/

namespace ParameterSolver

variable {α : Type} [Scalar α]

namespace Knowledge

/-- The value of an expression from those of its operands; an assertion is true. -/
def forwardValue? (k : Knowledge α) (e : Expression) : Option (ValueSet α) :=
  let value := Propagation.evaluate? e.op (e.operands.map k.value?)
    (e.operands.map k.exact.contains)
  if e.asserted then
    match value with
    | some v => some ((v.inter (.truth true)).toOption.getD v)
    | none => some (.truth true)
  else value

def forwardStep (g : Generation α) (k : Knowledge α) (id : NodeId) : Knowledge α :=
  match g.expression? id with
  | none => k
  | some e =>
    let value := k.forwardValue? e
    let isExact := Propagation.keepsExactness e.op && e.operands.all k.exact.contains
    let k := if isExact then { k with exact := k.exact.insert id () } else k
    match value with
    | none => k
    | some v =>
      let because := e.operands.foldl (fun p o => p.union (explanation g k o)) .empty
      restrict g because k id v

/-- Restricts a node unless its value is given. -/
def narrow (g : Generation α) (because : Provenance) (k : Knowledge α) (id : NodeId)
    (bound : ValueSet α) : Knowledge α :=
  if (g.node? id).any Node.isGiven then k else restrict g because k id bound

/-- The two nodes have one value. -/
def narrowIs (g : Generation α) (because : Provenance) (k : Knowledge α) (a b : NodeId) :
    Knowledge α :=
  match k.value? a, k.value? b with
  | some va, some vb =>
    match va.inter vb with
    | .ok common => narrow g because (narrow g because k a common) b common
    | .error _ => k
  | none, some vb => narrow g because k a vb
  | some va, none => narrow g because k b va
  | none, none => k

/-- The operands of a union, or the node itself. -/
def members (g : Generation α) (id : NodeId) : List NodeId :=
  match g.expression? id with
  | some e => if e.op = .union then e.operands else [id]
  | none => [id]

/-- Where the numeric set of a node starts and stops, and its unit. -/
def limits? (k : Knowledge α) (id : NodeId) : Option (α × α × MeasureUnit α) := do
  let q ← (← k.value? id).quantities?
  return (← q.base.min?, ← q.base.max?, q.unit)

/-- One node is not less than another. -/
def narrowPair (g : Generation α) (because : Provenance) (k : Knowledge α) (high low : NodeId) :
    Knowledge α :=
  let k :=
    match k.limits? low with
    | some (lowMin, _, unit) => narrow g because k high (.numeric ⟨.atLeast lowMin, unit⟩)
    | none => k
  match k.limits? high with
  | some (_, highMax, unit) => narrow g because k low (.numeric ⟨.atMost highMax, unit⟩)
  | none => k

/-- One node is not less than another, for each member of a side that is a union. -/
def narrowOrder (g : Generation α) (because : Provenance) (k : Knowledge α) (high low : NodeId) :
    Knowledge α :=
  (members g high).foldl
    (fun k h => (members g low).foldl (fun k l => narrowPair g because k h l) k) k

/-- A false disjunction has false operands; a true one with all operands but one false has that one
true. -/
def narrowOr (g : Generation α) (because : Provenance) (k : Knowledge α) (operands : List NodeId)
    (value : ValueSet α) : Knowledge α :=
  if value.isFalse then operands.foldl (fun k o => narrow g because k o (.truth false)) k
  else if value.isTrue then
    match operands.filter fun o => !(k.value? o).any ValueSet.isFalse with
    | [only] => narrow g because k only (.truth true)
    | _ => k
  else k

/-- The sum or product of all sets but the one at `index`, if there are others. -/
def combineOthers? (f : Quantities α → Quantities α → Except (SetError α) (Quantities α))
    (sets : List (Quantities α)) (index : Nat) : Option (Option (Quantities α)) :=
  match sets.eraseIdx index with
  | [] => some none
  | first :: rest => (rest.foldlM (fun a b => (f a b).toOption) first).map some

/-- What the sum leaves for the term at `index`. -/
def termBound? (total : Quantities α) (terms : List (Quantities α)) (index : Nat) :
    Option (Quantities α) :=
  match combineOthers? Quantities.add terms index with
  | some (some rest) => (total.add rest.neg).toOption
  | some none => some total
  | none => none

/-- What the product leaves for the factor at `index`: nothing if the others can be zero. -/
def factorBound? (product : Quantities α) (factors : List (Quantities α)) (index : Nat) :
    Option (Quantities α) :=
  match combineOthers? Quantities.mul factors index with
  | some (some rest) =>
    if rest.base.contains 0 then none
    else do (product.mul (← rest.invert.toOption)).toOption
  | some none => some product
  | none => none

/-- Restricts each operand of a sum or product to what the others leave for it. -/
def narrowEach (g : Generation α) (because : Provenance) (k : Knowledge α)
    (bound? : Quantities α → List (Quantities α) → Nat → Option (Quantities α))
    (operands : List NodeId) (value : ValueSet α) : Knowledge α :=
  match value.quantities?, operands.mapM fun o => (k.value? o).bind ValueSet.quantities? with
  | some whole, some parts =>
    operands.zipIdx.foldl (fun k (o, index) =>
      match bound? whole parts index with
      | some bound => narrow g because k o (.numeric bound)
      | none => k) k
  | _, _ => k

def narrowOperands (g : Generation α) (because : Provenance) (k : Knowledge α) (e : Expression)
    (value : ValueSet α) : Knowledge α :=
  match e.op, e.operands with
  | .is, a :: b :: _ => if value.isTrue then narrowIs g because k a b else k
  | .isSubset, a :: b :: _ =>
    match value.isTrue, k.value? b with
    | true, some outer => narrow g because k a outer
    | _, _ => k
  | .greaterOrEqual, a :: b :: _ => if value.isTrue then narrowOrder g because k a b else k
  | .not, a :: _ =>
    match value with
    | .boolean b => narrow g because k a (.boolean b.not)
    | _ => k
  | .or, operands => narrowOr g because k operands value
  | .add, operands => narrowEach g because k termBound? operands value
  | .multiply, operands => narrowEach g because k factorBound? operands value
  | _, _ => k

def backwardStep (g : Generation α) (k : Knowledge α) (id : NodeId) : Knowledge α :=
  match g.expression? id, k.value? id with
  | some e, some value =>
    if value.isEmpty then k else narrowOperands g (explanation g k id) k e value
  | _, _ => k

/-- One sweep forward and one backward. -/
def sweep (g : Generation α) (order : List NodeId) (k : Knowledge α) : Knowledge α :=
  let k := order.foldl (forwardStep g) { k with changed := false }
  order.reverse.foldl (backwardStep g) k

end Knowledge

/-- What sweeps have found, and how many there were. -/
structure Propagation (α : Type) where
  knowledge : Knowledge α
  rounds : Nat

namespace Propagation

/-- Up to `budget` more sweeps. -/
def iterate (g : Generation α) (order : List NodeId) : Nat → Propagation α → Propagation α
  | 0, p => p
  | budget + 1, p =>
    let k := p.knowledge.sweep g order
    if k.changed then iterate g order budget ⟨k, p.rounds + 1⟩ else ⟨k, p.rounds + 1⟩

/-- At most `budget` sweeps from what the leaves say. -/
def run (g : Generation α) (budget : Nat) : Propagation α :=
  iterate g g.topologicalOrder budget ⟨.seed g, 0⟩

end Propagation

end ParameterSolver
