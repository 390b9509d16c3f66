import ParameterSolver.Draft.Copy

/-!
Changing and removing input nodes. The output node of a changed node keeps its place if it has been
copied before, so that its users stay its users.
-/

namespace ParameterSolver.Draft

variable {α : Type} [Scalar α]

/-- Writes the output node of an input node, in its place if it has been copied. -/
def emit (id : NodeId) (node : Node α) (provenance : Provenance) : Edit α NodeId := do
  markDirty
  let d ← get
  match d.mapped? id with
  | some out =>
    match d.output.replace out node provenance with
    | .ok g =>
      set { d with output := g }
      return out
    | .error operand => throw (.unknownNode operand)
  | none =>
    let out ← insert node provenance
    modify fun d => { d with mapping := d.mapping.insert id out }
    return out

/-- Removes an output node with its users, and the input nodes they stand for. -/
def removeOutput (d : Draft α) (out : NodeId) : Draft α :=
  let (gone, output) := d.output.remove out
  let stale := d.mapping.toList.filter (·.2 ∈ gone)
  { d with
    output := output
    mapping := stale.foldl (fun m (id, _) => m.erase id) d.mapping
    removed := stale.foldl (fun m (id, _) => m.insert id ()) d.removed }

/-- Removes an input node. Expressions over it go when they are copied, or now if they have
been. -/
def remove (id : NodeId) : Edit α Unit := do
  markDirty
  markRemoved id
  modify fun d =>
    match d.mapping.get? id with
    | some out => removeOutput { d with mapping := d.mapping.erase id } out
    | none => d
  log .trace source ("removed " ++ (← get).input.describe id)

/-- Changes a parameter. A change that changes nothing is a copy. -/
def editParameter (id : NodeId) (change : Parameter α → Parameter α) :
    Edit α (Option NodeId) := do
  let d ← get
  if d.isRemoved id then return none
  let copied := d.mapped? id
  let current :=
    match copied with
    | some out => d.output.parameter? out
    | none => d.input.parameter? id
  match current with
  | none => throw (.notAParameter id)
  | some p =>
    let changed := change p
    if changed == p then copy id
    else
      let provenance ←
        match copied.bind d.output.provenance? with
        | some provenance => pure provenance
        | none => inputProvenance id
      some <$> emit id (.parameter changed) provenance

/-- The operands are exactly the given input nodes. -/
def isInputs (operands : List (Operand α)) (ids : List NodeId) : Bool :=
  (operands.map fun
    | .input id => some id
    | _ => none) == ids.map some

/-- Changes an expression. It is removed if one of its operands is gone; a change that changes
nothing is a copy. -/
def editExpression (id : NodeId) (edit : ExpressionEdit α) : Edit α (Option NodeId) := do
  let d ← get
  if d.isRemoved id then return none
  match d.input.expression? id with
  | none => throw (.unknownNode id)
  | some e =>
    let op := edit.op.getD e.op
    let asserted := edit.asserted.getD e.asserted
    if op = e.op && asserted = e.asserted && edit.operands.all (isInputs · e.operands) then
      copy id
    else
      let provenance ← inputProvenance id
      match ← collect (resolve provenance) (edit.operands.getD (e.operands.map .input)) with
      | none =>
        remove id
        return none
      | some operands => some <$> emit id (.expression ⟨op, operands, asserted⟩) provenance

/-- Changes the operands of an expression one by one, by place. -/
def editOperands (id : NodeId) (change : Nat → NodeId → Operand α) :
    Edit α (Option NodeId) := do
  match (← get).input.expression? id with
  | none => throw (.unknownNode id)
  | some e =>
    editExpression id
      { operands := some (e.operands.zipIdx.map fun (o, index) => change index o) }

/-- Puts a leaf in the place of a node and keeps the origins. -/
def replaceLeaf (id : NodeId) (node : Node α) : Edit α NodeId := do
  emit id node (← inputProvenance id)

end ParameterSolver.Draft
