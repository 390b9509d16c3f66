import ParameterSolver.Config
import ParameterSolver.Error
import ParameterSolver.Graph.Describe
import ParameterSolver.Propagation.Sweep

/-!
Answers about a generation: the values its parameters can take, and the contradictions in it.
-/

namespace ParameterSolver

/-- A node that can take no value. -/
structure Contradiction where
  node : NodeId
  name : String
  /-- The origins that contributed. -/
  origins : Provenance
  /-- The nodes of the first generation behind the origins. -/
  originNodes : List NodeId
  /-- What those nodes are called. -/
  labels : List String

def Contradiction.text (c : Contradiction) : String :=
  "`" ++ c.name ++ "` has no admissible value"
    ++ if c.labels.isEmpty then "" else " (from " ++ ", ".intercalate c.labels ++ ")"

structure Analysis (α : Type) where
  generation : Generation α
  /-- The steps from the first generation to this one. -/
  mappings : List (NodeMap NodeId)
  propagation : Propagation α
  contradictions : List Contradiction

/-- Follows a node through the steps. -/
def resolveThrough? (mappings : List (NodeMap NodeId)) (id : NodeId) : Option NodeId :=
  mappings.foldlM (fun id m => m.get? id) id

namespace Analysis

variable {α : Type} [Scalar α]

/-- The contradiction at a node: its origins are those of the node, of its operands and of all that
restricted them. -/
def contradiction (g : Generation α) (k : Knowledge α) (id : NodeId) : Contradiction :=
  let origins := (id :: g.operands id).foldl (fun p n => p.union (k.explanation g n)) .empty
  { node := id
    name := g.describe id
    origins := origins
    originNodes := origins.toList.filterMap g.origins.node?
    labels := origins.toList.filterMap g.origins.label? }

/-- Analyses a generation with at most `budget` sweeps. -/
def ofSteps (g : Generation α) (budget : Nat) (mappings : List (NodeMap NodeId)) : Analysis α :=
  let p := Propagation.run g budget
  ⟨g, mappings, p, (g.sortByFirstOrigin p.knowledge.emptied).map (contradiction g p.knowledge)⟩

/-- Analyses a first generation. -/
def ofGeneration (g : Generation α) (budget : Nat) : Analysis α := ofSteps g budget []

def rounds (a : Analysis α) : Nat := a.propagation.rounds

/-- All that is known of a node, in base units. -/
def value? (a : Analysis α) (id : NodeId) : Option (ValueSet α) :=
  a.propagation.knowledge.value? id

/-- The values a parameter can take, in its display unit. -/
def superset (a : Analysis α) (id : NodeId) : Except (SolveError α) (ValueSet α) :=
  match a.generation.node? id with
  | some (.parameter p) =>
    match (a.value? id).getD p.values with
    | .numeric q => .ok (.numeric ⟨q.base, p.displayUnit⟩)
    | s => .ok s
  | some _ => .error (.notAParameter id)
  | none => .error (.unknownNode id)

/-- The value of a parameter that has only one, a number in its display unit. -/
def single? (a : Analysis α) (id : NodeId) : Except (SolveError α) (Option (Value α)) := do
  let s ← a.superset id
  return match s.single?, s.unit? with
    | some (.number x), some unit => some (.number (unit.fromBase x))
    | single, _ => single

/-- The point of the guess, or else of the soft set, that is nearest to zero. -/
def target (p : Parameter α) : α :=
  let hints := [p.guess, p.soft].filterMap fun hint => hint.bind ValueSet.quantities?
  (hints.findSome? fun q => q.base.nearest? 0).getD 0

/-- A value for a parameter: its only one, or else the one nearest to what was hinted at. -/
def pick? (a : Analysis α) (id : NodeId) : Except (SolveError α) (Option (Value α)) := do
  if let some single ← a.single? id then return some single
  match a.generation.parameter? id, a.value? id with
  | some p, some (.numeric q) =>
    return (q.base.nearest? (target p)).map fun x => .number (p.displayUnit.fromBase x)
  | some _, _ => return none
  | none, _ => throw (.notAParameter id)

def isSatisfiable (a : Analysis α) : Bool := a.contradictions.isEmpty

/-- All contradictions in one message. -/
def complaint? (a : Analysis α) : Option String :=
  if a.isSatisfiable then none
  else some (toString a.contradictions.length ++ " contradiction(s): "
    ++ "; ".intercalate (a.contradictions.map Contradiction.text))

/-- What has become of a node of the first generation. -/
def resolve? (a : Analysis α) (id : NodeId) : Option NodeId :=
  (resolveThrough? a.mappings id).filter a.generation.contains

/-- A short name for every parameter, by earliest origin. -/
def names (a : Analysis α) : List (NodeId × String) :=
  a.generation.parametersByOrigin.zipIdx.map fun (id, n) => (id, ShortName.text n)

end Analysis

end ParameterSolver
