import ParameterSolver.Error
import ParameterSolver.Graph.Describe
import ParameterSolver.Graph.Validity
import ParameterSolver.Journal

/-!
A draft of the next generation. It reads an input generation, which never changes, and writes an
output generation: nodes that nobody touches are copied when they are needed, operands first, and
whatever is more than a copy makes the draft dirty. Every call leaves the draft usable, also one
that fails half way.
-/

namespace ParameterSolver

structure Draft (α : Type) where
  input : Generation α
  output : Generation α
  /-- The output node of each input node that has one. -/
  mapping : NodeMap NodeId
  removed : NodeMap Unit
  /-- Something other than copying has happened. -/
  dirty : Bool
  /-- Whether an expression that was created before is used again. -/
  deduplicate : Bool
  /-- The expressions created so far, latest first. Kept only to use them again. -/
  created : List (Expression × NodeId)
  journal : Journal

/-- An edit of a draft. A failure does not undo what was done before it. -/
abbrev Edit (α β : Type) := ExceptT (SolveError α) (StateM (Draft α)) β

/-- An operand of a node that an edit writes. -/
inductive Operand (α : Type) where
  /-- An input node, copied when needed. -/
  | input (id : NodeId)
  /-- A node of the output. -/
  | output (id : NodeId)
  /-- A new literal with the origins of its user. -/
  | literal (value : ValueSet α)

/-- New contents for an expression; what is not given stays. -/
structure ExpressionEdit (α : Type) where
  op : Option Operator := none
  operands : Option (List (Operand α)) := none
  asserted : Option Bool := none

/-- A finished draft. -/
structure Revision (α : Type) where
  generation : Generation α
  dirty : Bool
  mapping : NodeMap NodeId

namespace Draft

variable {α : Type} [Scalar α]

/-- A draft on which nothing is written yet. -/
def start (input : Generation α) (deduplicate : Bool) (journal : Journal) : Draft α :=
  { input, deduplicate, journal
    output := .empty (input.index + 1) input.origins
    mapping := .empty, removed := .empty, dirty := false, created := [] }

def source : String := "ohmcore::mutator"

def isRemoved (d : Draft α) (id : NodeId) : Bool := d.removed.contains id

/-- The output node of an input node, if there is one yet. -/
def mapped? (d : Draft α) (id : NodeId) : Option NodeId :=
  (d.mapping.get? id).filter d.output.contains

def log (level : Level) (source message : String) : Edit α Unit :=
  modify fun d => { d with journal := d.journal.add level source message }

def markDirty : Edit α Unit := modify fun d => { d with dirty := true }

def markRemoved (id : NodeId) : Edit α Unit :=
  modify fun d => { d with removed := d.removed.insert id () }

/-- The origins of an input node. -/
def inputProvenance (id : NodeId) : Edit α Provenance := do
  match (← get).input.provenance? id with
  | some p => return p
  | none => throw (.unknownNode id)

/-- The origins of some input nodes together; there has to be one. -/
def provenanceOf (sources : List NodeId) : Edit α Provenance := do
  let p ← sources.foldlM (fun p id => return p.union (← inputProvenance id)) .empty
  if p.isEmpty then throw .noProvenance
  return p

/-- Adds a node to the output. -/
def insert (node : Node α) (provenance : Provenance) : Edit α NodeId := do
  let d ← get
  match d.output.insert node provenance with
  | .ok (id, g) =>
    set { d with output := g }
    return id
  | .error operand => throw (.unknownNode operand)

end Draft

end ParameterSolver
