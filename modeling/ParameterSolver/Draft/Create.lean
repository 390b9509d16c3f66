import ParameterSolver.Draft.Change

/-!
New nodes with the origins of input nodes, and putting a new node in the place of an input node.
-/

namespace ParameterSolver.Draft

variable {α : Type} [Scalar α]

/-- An expression equal to `e` that was created before and is still there. -/
def reusable? (d : Draft α) (e : Expression) : Option NodeId :=
  if d.deduplicate then (d.created.lookup e).filter d.output.contains else none

/-- Creates an expression with the origins of the given input nodes, unless one of its operands is
gone. -/
def createExpression (op : Operator) (operands : List (Operand α)) (asserted : Bool)
    (sources : List NodeId) : Edit α (Option NodeId) := do
  let provenance ← provenanceOf sources
  match ← collect (resolve provenance) operands with
  | none => return none
  | some operands =>
    let e : Expression := ⟨op, operands, asserted⟩
    let d ← get
    match d.reusable? e with
    | some old =>
      set { d with output := d.output.addProvenance old provenance }
      return some old
    | none =>
      markDirty
      let out ← insert (.expression e) provenance
      modify fun d => if d.deduplicate then { d with created := (e, out) :: d.created } else d
      return some out

def createParameter (p : Parameter α) (sources : List NodeId) : Edit α NodeId := do
  let provenance ← provenanceOf sources
  markDirty
  insert (.parameter p) provenance

def createLiteral (value : ValueSet α) (sources : List NodeId) : Edit α NodeId := do
  let provenance ← provenanceOf sources
  markDirty
  insert (.literal value none) provenance

/-- Adds the origins of some input nodes to an output node. -/
def absorb (out : NodeId) (sources : List NodeId) : Edit α Unit := do
  let provenance ← provenanceOf sources
  modify fun d => { d with output := d.output.addProvenance out provenance }

/-- Makes an output expression that uses `old` use `target` in its place. -/
def rewire (old target user : NodeId) : Edit α Unit := do
  let d ← get
  match d.output.get? user with
  | some ⟨.expression e, provenance, _⟩ =>
    let operands := e.operands.map fun o => if o = old then target else o
    match d.output.replace user (.expression { e with operands }) provenance with
    | .ok g => set { d with output := g }
    | .error operand => throw (.unknownNode operand)
  | _ => return

/-- Makes all users of an input node use the output node `target`, which takes over its origins. -/
def redirect (id target : NodeId) : Edit α Unit := do
  if !(← get).output.contains target then throw (.unknownNode target)
  markDirty
  let provenance ← inputProvenance id
  let previous := (← get).mapping.get? id
  modify fun d =>
    { d with
      output := d.output.addProvenance target provenance
      mapping := d.mapping.insert id target }
  match previous with
  | none => return
  | some old =>
    let d ← get
    if old = target || !d.output.contains old then return
    (d.output.users old).forM (rewire old target)
    modify fun d =>
      let d := d.removeOutput old
      { d with mapping := d.mapping.insert id target }

end ParameterSolver.Draft
