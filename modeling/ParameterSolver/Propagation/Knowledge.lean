import ParameterSolver.Graph.Generation
import ParameterSolver.Propagation.Evaluate

/-!
What is known of the values of the nodes of a generation, and why. Knowledge only grows: a set of
values is replaced by its intersection with another.
-/

namespace ParameterSolver

structure Knowledge (α : Type) where
  /-- A set that holds all values a node can take. -/
  values : NodeMap (ValueSet α)
  /-- The nodes whose set is exactly the set they stand for. -/
  exact : NodeMap Unit
  /-- The origins of what restricted a node beyond its own definition. -/
  evidence : NodeMap Provenance
  /-- The nodes that lost their last value while their operands had some, in order. -/
  emptied : List NodeId
  /-- Something was learnt since this was last cleared. -/
  changed : Bool

namespace Knowledge

variable {α : Type} [Scalar α]

def value? (k : Knowledge α) (id : NodeId) : Option (ValueSet α) := k.values.get? id

def isEmpty (k : Knowledge α) (id : NodeId) : Bool := (k.value? id).any ValueSet.isEmpty

def evidenceOf (k : Knowledge α) (id : NodeId) : Provenance := (k.evidence.get? id).getD .empty

/-- The origins that explain what is known of a node. -/
def explanation (g : Generation α) (k : Knowledge α) (id : NodeId) : Provenance :=
  ((g.provenance? id).getD .empty).union (k.evidenceOf id)

/-- What is known of a node before any expression is looked at. -/
def initial? : Node α → Option (ValueSet α)
  | .parameter p =>
    let all := p.values
    some ((p.within.bind fun bound => (all.inter bound).toOption).getD all)
  | .literal value _ => some value
  | .constant c => c.toSet.toOption
  | .expression _ => none

def learnInitial (k : Knowledge α) (id : NodeId) (node : Node α) : Knowledge α :=
  match initial? node with
  | none => k
  | some value =>
    { k with
      values := k.values.insert id value
      exact := if node.isGiven then k.exact.insert id () else k.exact }

def seed (g : Generation α) : Knowledge α :=
  g.toList.foldl (fun k (id, e) => k.learnInitial id e.node) ⟨.empty, .empty, .empty, [], false⟩

/-- The set of a node after it is known to lie in `bound` as well, if the two can be combined and
that is news. -/
def refined? (k : Knowledge α) (id : NodeId) (bound : ValueSet α) : Option (ValueSet α) :=
  match k.value? id with
  | none => some bound
  | some current =>
    match current.inter bound with
    | .error _ => none
    | .ok next => if current == next then none else some next

/-- Restricts a node to `bound`, for the reasons `because`. -/
def restrict (g : Generation α) (because : Provenance) (k : Knowledge α) (id : NodeId)
    (bound : ValueSet α) : Knowledge α :=
  match k.refined? id bound with
  | none => k
  | some next =>
    let learnt : Knowledge α :=
      { k with
        values := k.values.insert id next
        evidence := k.evidence.insert id ((k.evidenceOf id).union because)
        changed := true }
    let starved := (g.operands id).any learnt.isEmpty
    if next.isEmpty && !k.isEmpty id && !starved && id ∉ k.emptied then
      { learnt with emptied := k.emptied ++ [id] }
    else learnt

end Knowledge

end ParameterSolver
