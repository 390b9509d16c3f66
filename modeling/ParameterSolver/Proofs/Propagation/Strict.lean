import ParameterSolver.Propagation.Sweep

/-! Propagation that fails where it would have to compare two sets of different dimensions that both
have elements. Propagation itself takes the failure of an operation on sets for a lack of knowledge and
goes on; step by step this is the same, but such a failure is an error of the whole run. -/

namespace ParameterSolver

variable {α : Type} [Scalar α]

/-- A result that may be missing, or the failure of an operation on sets. -/
abbrev Attempt (α β : Type) := OptionT (Except (SetError α)) β

namespace Strict

/-- What is known already. -/
def known {β : Type} (x : Option β) : Attempt α β := OptionT.mk (.ok x)

/-- The result of an operation on two sets. If the units do not fit together it is missing only if one
of the sets is empty. -/
def attempt {β : Type} (a b : ValueSet α) (result : Except (SetError α) β) : Attempt α β :=
  match result with
  | .ok x => known (some x)
  | .error (.unitMismatch u v) =>
    if a.isEmpty || b.isEmpty then known none else OptionT.mk (.error (.unitMismatch u v))
  | .error _ => known none

def reduce {β : Type} (f : β → β → Attempt α β) : List β → Attempt α β
  | [] => known none
  | first :: rest => rest.foldlM f first

/-! Expressions. -/

def add (a b : Quantities α) : Attempt α (Quantities α) :=
  attempt (.numeric a) (.numeric b) (a.add b)

/-- Two sets are compared that have to measure one dimension. -/
def compare (a b : Quantities α) : Attempt α Unit :=
  attempt (.numeric a) (.numeric b) (Quantities.requireSameDimension a.unit b.unit)

def shift (x : Quantities α) (offset : α) : Attempt α (Quantities α) :=
  add x ⟨.singleton offset, x.unit⟩

def extremum (pick : α → α → α) (start : α) (sets : List (Quantities α)) :
    Attempt α (Quantities α) := do
  let first ← known sets.head?
  sets.forM (compare first)
  known (Propagation.extremum? pick start sets)

/-- Products, powers and the functions of one number compare no sets. -/
def arithmetic (op : Operator) (operands : List (ValueSet α)) : Attempt α (Quantities α) := do
  let sets ← known (operands.mapM ValueSet.quantities?)
  let first ← known sets.head?
  match op with
  | .add => reduce add sets
  | .subtract => reduce (fun a b => add a b.neg) sets
  | .floor => Quantities.round <$> shift first (-0.5)
  | .ceil => (fun q => q.round.neg) <$> shift first.neg (-0.5)
  | .cos => do known (← shift first Scalar.halfPi).sin.toOption
  | .min => extremum Scalar.lesser Scalar.infinity sets
  | .max => extremum Scalar.greater (-Scalar.infinity) sets
  | _ => known (Propagation.arithmetic? op operands)

def equals (a b : ValueSet α) : Attempt α Truths := do
  let common ← attempt a b (a.inter b)
  let certain := a.isSingleton && b.isSingleton
  return ⟨!certain || common.isEmpty, !common.isEmpty⟩

def belongs (a b : ValueSet α) (exact : Bool) : Attempt α Truths := do
  let common ← attempt a b (a.inter b)
  if common.isEmpty then return .of false
  let included ← attempt a b (a.isSubset b)
  return ⟨!(included && (exact || b.isSingleton)), true⟩

def exceeds (a b : ValueSet α) (strict : Bool) : Attempt α Truths := do
  let p ← known a.quantities?
  let q ← known b.quantities?
  compare p q
  known (Propagation.exceeds? a b strict)

def relation (op : Operator) (operands : List (ValueSet α)) (exact : List Bool) :
    Attempt α Truths :=
  match operands with
  | a :: b :: _ =>
    match op with
    | .is => equals a b
    | .isSubset => belongs a b (exact.getD 1 false)
    | .isSuperset => belongs b a (exact.getD 0 false)
    | .greaterOrEqual => exceeds a b false
    | .lessOrEqual => exceeds b a false
    | .greaterThan => exceeds a b true
    | .lessThan => exceeds b a true
    | _ => known none
  | _ => known none

def sets (op : Operator) (operands : List (ValueSet α)) (exact : List Bool) :
    Attempt α (ValueSet α) :=
  let union := fun a b : ValueSet α => attempt a b (a.union b)
  match op, exact.all id with
  | .union, _ => reduce union operands
  | .intersection, _ => reduce (fun a b => attempt a b (a.inter b)) operands
  | .symmetricDifference, true => reduce (fun a b => attempt a b (a.symmDiff b)) operands
  | .symmetricDifference, false => reduce union operands
  | .difference, true => reduce (fun a b => attempt a b (a.diff b)) operands
  | .difference, false => known operands.head?
  | _, _ => known none

def evaluateKnown (op : Operator) (operands : List (ValueSet α)) (exact : List Bool) :
    Attempt α (ValueSet α) :=
  if op.has .logic then known ((Propagation.logic? op operands).map .boolean)
  else if op.has .relation then ValueSet.boolean <$> relation op operands exact
  else if op.has .set then sets op operands exact
  else ValueSet.numeric <$> arithmetic op operands

def evaluate (op : Operator) (operands : List (Option (ValueSet α))) (exact : List Bool) :
    Except (SetError α) (Option (ValueSet α)) :=
  match (operands.filterMap id).find? ValueSet.isEmpty with
  | some empty => return some (if op.isPredicate then .boolean .none else empty)
  | none =>
    match operands.mapM id with
    | some values => return (← (evaluateKnown op values exact).run).or (Propagation.unknown? op)
    | none => return Propagation.unknown? op

/-! Steps. -/

def initial (n : Node α) : Except (SetError α) (Option (ValueSet α)) :=
  match n with
  | .parameter p =>
    let all := p.values
    match p.within with
    | none => return some all
    | some bound => return some ((← (attempt all bound (all.inter bound)).run).getD all)
  | n => return Knowledge.initial? n

def seed (g : Generation α) : Except (SetError α) (Knowledge α) := do
  g.toList.forM fun x => discard (initial x.2.node)
  return .seed g

def restrict (g : Generation α) (because : Provenance) (k : Knowledge α) (id : NodeId)
    (bound : ValueSet α) : Except (SetError α) (Knowledge α) := do
  match k.value? id with
  | none => pure ()
  | some current => discard (attempt current bound (current.inter bound)).run
  return k.restrict g because id bound

def forwardValue (k : Knowledge α) (e : Expression) :
    Except (SetError α) (Option (ValueSet α)) := do
  let value ← evaluate e.op (e.operands.map k.value?) (e.operands.map k.exact.contains)
  return if e.asserted then
    match value with
    | some v => some ((v.inter (.truth true)).toOption.getD v)
    | none => some (.truth true)
  else value

def forwardStep (g : Generation α) (k : Knowledge α) (id : NodeId) :
    Except (SetError α) (Knowledge α) :=
  match g.expression? id with
  | none => return k
  | some e => do
    let value ← forwardValue k e
    let isExact := Propagation.keepsExactness e.op && e.operands.all k.exact.contains
    let k := if isExact then { k with exact := k.exact.insert id () } else k
    match value with
    | none => return k
    | some v =>
      let because := e.operands.foldl (fun p o => p.union (k.explanation g o)) .empty
      restrict g because k id v

def narrow (g : Generation α) (because : Provenance) (k : Knowledge α) (id : NodeId)
    (bound : ValueSet α) : Except (SetError α) (Knowledge α) :=
  if (g.node? id).any Node.isGiven then return k else restrict g because k id bound

def narrowIs (g : Generation α) (because : Provenance) (k : Knowledge α) (a b : NodeId) :
    Except (SetError α) (Knowledge α) :=
  match k.value? a, k.value? b with
  | some va, some vb => do
    match ← (attempt va vb (va.inter vb)).run with
    | some common => narrow g because (← narrow g because k a common) b common
    | none => return k
  | none, some vb => narrow g because k a vb
  | some va, none => narrow g because k b va
  | none, none => return k

def narrowPair (g : Generation α) (because : Provenance) (k : Knowledge α) (high low : NodeId) :
    Except (SetError α) (Knowledge α) := do
  let k ←
    match k.limits? low with
    | some (lowMin, _, unit) => narrow g because k high (.numeric ⟨.atLeast lowMin, unit⟩)
    | none => pure k
  match k.limits? high with
  | some (_, highMax, unit) => narrow g because k low (.numeric ⟨.atMost highMax, unit⟩)
  | none => return k

def narrowOrder (g : Generation α) (because : Provenance) (k : Knowledge α) (high low : NodeId) :
    Except (SetError α) (Knowledge α) :=
  (Knowledge.members g high).foldlM
    (fun k h => (Knowledge.members g low).foldlM (fun k l => narrowPair g because k h l) k) k

def narrowOr (g : Generation α) (because : Provenance) (k : Knowledge α) (operands : List NodeId)
    (value : ValueSet α) : Except (SetError α) (Knowledge α) :=
  if value.isFalse then operands.foldlM (fun k o => narrow g because k o (.truth false)) k
  else if value.isTrue then
    match operands.filter fun o => !(k.value? o).any ValueSet.isFalse with
    | [only] => narrow g because k only (.truth true)
    | _ => return k
  else return k

def sumOthers (terms : List (Quantities α)) (index : Nat) : Attempt α (Option (Quantities α)) :=
  match terms.eraseIdx index with
  | [] => known (some none)
  | first :: rest => some <$> rest.foldlM add first

def termBound (total : Quantities α) (terms : List (Quantities α)) (index : Nat) :
    Attempt α (Quantities α) := do
  match ← sumOthers terms index with
  | some rest => add total rest.neg
  | none => known (some total)

/-- Products and quotients compare no sets. -/
def factorBound (product : Quantities α) (factors : List (Quantities α)) (index : Nat) :
    Attempt α (Quantities α) :=
  known (Knowledge.factorBound? product factors index)

def narrowEach (g : Generation α) (because : Provenance) (k : Knowledge α)
    (bound : Quantities α → List (Quantities α) → Nat → Attempt α (Quantities α))
    (operands : List NodeId) (value : ValueSet α) : Except (SetError α) (Knowledge α) :=
  match value.quantities?, operands.mapM fun o => (k.value? o).bind ValueSet.quantities? with
  | some whole, some parts =>
    operands.zipIdx.foldlM (fun k (o, index) => do
      match ← (bound whole parts index).run with
      | some b => narrow g because k o (.numeric b)
      | none => return k) k
  | _, _ => return k

def narrowOperands (g : Generation α) (because : Provenance) (k : Knowledge α) (e : Expression)
    (value : ValueSet α) : Except (SetError α) (Knowledge α) :=
  match e.op, e.operands with
  | .is, a :: b :: _ => if value.isTrue then narrowIs g because k a b else return k
  | .isSubset, a :: b :: _ =>
    match value.isTrue, k.value? b with
    | true, some outer => narrow g because k a outer
    | _, _ => return k
  | .greaterOrEqual, a :: b :: _ =>
    if value.isTrue then narrowOrder g because k a b else return k
  | .not, a :: _ =>
    match value with
    | .boolean b => narrow g because k a (.boolean b.not)
    | _ => return k
  | .or, operands => narrowOr g because k operands value
  | .add, operands => narrowEach g because k termBound operands value
  | .multiply, operands => narrowEach g because k factorBound operands value
  | _, _ => return k

def backwardStep (g : Generation α) (k : Knowledge α) (id : NodeId) :
    Except (SetError α) (Knowledge α) :=
  match g.expression? id, k.value? id with
  | some e, some value =>
    if value.isEmpty then return k else narrowOperands g (k.explanation g id) k e value
  | _, _ => return k

/-! Sweeps. -/

def sweep (g : Generation α) (order : List NodeId) (k : Knowledge α) :
    Except (SetError α) (Knowledge α) := do
  let k ← order.foldlM (forwardStep g) { k with changed := false }
  order.reverse.foldlM (backwardStep g) k

def iterate (g : Generation α) (order : List NodeId) :
    Nat → Propagation α → Except (SetError α) (Propagation α)
  | 0, p => return p
  | budget + 1, p => do
    let k ← sweep g order p.knowledge
    if k.changed then iterate g order budget ⟨k, p.rounds + 1⟩ else return ⟨k, p.rounds + 1⟩

/-- At most `budget` sweeps, or the first operation that fails because of units. -/
def run (g : Generation α) (budget : Nat) : Except (SetError α) (Propagation α) := do
  iterate g g.topologicalOrder budget ⟨← seed g, 0⟩

end Strict

end ParameterSolver
