import ParameterSolver.Draft.Basic

/-!
Copying. An input node is copied with its operands when it is needed, at most once, and never after
it has been removed. Closing a draft copies what is left.
-/

namespace ParameterSolver.Draft

variable {α : Type} [Scalar α]

/-- Applies `f` to the elements in order, up to the first without a result. -/
def collect {β γ : Type} (f : β → Edit α (Option γ)) : List β → Edit α (Option (List γ))
  | [] => return some []
  | x :: rest => do
    match ← f x with
    | none => return none
    | some y => return (← collect f rest).map (y :: ·)

/-- Adds the copy of an input node. -/
def insertCopy (id : NodeId) (node : Node α) (provenance : Provenance) :
    Edit α (Option NodeId) := do
  let out ← insert node provenance
  modify fun d => { d with mapping := d.mapping.insert id out }
  return some out

/-- Leaves out an expression with an operand that is gone. -/
def dropCopy (id : NodeId) : Edit α (Option NodeId) := do
  let d ← get
  log .debug source
    ("dropping " ++ d.input.describe id ++ " since one of its operands was removed")
  markRemoved id
  markDirty
  return none

/-- What `copy` does, for chains of operands shorter than `fuel`. -/
def copyWith : Nat → NodeId → Edit α (Option NodeId)
  | 0, id => throw (.unknownNode id)
  | fuel + 1, id => do
    let d ← get
    if d.isRemoved id then return none
    if let some out := d.mapped? id then return some out
    match d.input.get? id with
    | none => throw (.unknownNode id)
    | some entry =>
      match entry.node with
      | .expression e =>
        match ← collect (copyWith fuel) e.operands with
        | some operands => insertCopy id (.expression { e with operands }) entry.provenance
        | none => dropCopy id
      | node => insertCopy id node entry.provenance

/-- The output node of an input node, copied with its operands if there is none yet. A removed node
has none, and an expression over a removed node is removed as well. -/
def copy (id : NodeId) : Edit α (Option NodeId) := do
  copyWith ((← get).input.size + 1) id

/-- The output node that an operand stands for. -/
def resolve (provenance : Provenance) : Operand α → Edit α (Option NodeId)
  | .input id => copy id
  | .output id => do
    if (← get).output.contains id then return some id else throw (.unknownNode id)
  | .literal value => some <$> insert (.literal value none) provenance

/-- Copies what is left and finishes the draft. -/
def close : Edit α (Revision α) := do
  (← get).input.order.forM fun id => discard (copy id)
  let d ← get
  return ⟨d.output, d.dirty, d.mapping⟩

end ParameterSolver.Draft
