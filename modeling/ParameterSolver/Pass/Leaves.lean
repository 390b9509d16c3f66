import ParameterSolver.Pass.Basic

/-!
Constants become sets, and all numbers become plain numbers in base units. The unit of a leaf is
kept beside it.
-/

namespace ParameterSolver.Pass

variable {α : Type} [Scalar α]

/-- The unit of a set that is not plain yet. -/
def carriedUnit? (s : ValueSet α) : Option (MeasureUnit α) := s.unit?.filter fun u => !u.isOne

/-- Some number of a parameter has a unit that is not plain. -/
def needsStripping (p : Parameter α) : Bool :=
  !p.unit.isOne || [p.within, p.soft, p.guess].any fun s => (s.bind carriedUnit?).isSome

def stripParameter (p : Parameter α) : Parameter α :=
  { p with
    unit := if p.unit.isOne then p.unit else .one
    sourceUnit := if p.unit.isOne then p.sourceUnit else p.sourceUnit.or (some p.unit)
    within := p.within.map ValueSet.stripped
    soft := p.soft.map ValueSet.stripped
    guess := p.guess.map ValueSet.stripped }

def stripLeaf (id : NodeId) : Node α → Edit α Unit
  | .constant c =>
    match c.toSet with
    | .ok value => discard (Draft.replaceLeaf id (.literal value.stripped (carriedUnit? value)))
    | .error e => throw (.set e)
  | .literal value sourceUnit =>
    match carriedUnit? value with
    | some unit =>
      discard (Draft.replaceLeaf id (.literal value.stripped (sourceUnit.or (some unit))))
    | none => return
  | .parameter p => do
    if needsStripping p then discard (Draft.editParameter id stripParameter)
  | .expression _ => return

def leaves : Pass α where
  name := "canonical_literals"
  run := do (← get).input.toList.forM fun (id, e) => stripLeaf id e.node

end ParameterSolver.Pass
