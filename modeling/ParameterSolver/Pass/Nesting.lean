import ParameterSolver.Pass.Basic

/-!
An operand with the same associative operator gives way to its own operands if nothing else uses
it, and an idempotent operator lists no operand twice.
-/

namespace ParameterSolver.Pass

variable {α : Type} [Scalar α]

def flattens (op : Operator) : Bool := op.isCanonical && op.has .associative

/-- The expression at a node, if it can be merged into the one that uses it. -/
def absorbable? (g : Generation α) (id : NodeId) (user : Expression) : Option Expression :=
  (g.expression? id).filter fun e =>
    e.op = user.op && !e.asserted && flattens e.op && (g.users id).length == 1

/-- The node will be merged into its only user. -/
def isAbsorbed (g : Generation α) (id : NodeId) : Bool :=
  match g.users id with
  | [user] => (g.expression? user).any fun e => (absorbable? g id e).isSome
  | _ => false

/-- The operands of an expression with what can be merged into it, and the nodes that are merged.
No chain of operands is longer than the generation, so `fuel` is its size. -/
def flatten (g : Generation α) :
    Nat → List NodeId × List NodeId → Expression → List NodeId × List NodeId
  | 0, acc, _ => acc
  | fuel + 1, acc, e =>
    e.operands.foldl (fun (operands, absorbed) o =>
      match absorbable? g o e with
      | some child =>
        flatten g fuel (operands, if o ∈ absorbed then absorbed else absorbed ++ [o]) child
      | none => (operands ++ [o], absorbed)) acc

def flattened (g : Generation α) (e : Expression) : List NodeId × List NodeId :=
  if flattens e.op then flatten g g.size ([], []) e else (e.operands, [])

def compress (id : NodeId) (e : Expression) : Edit α Unit := do
  let g := (← get).input
  let idempotent := e.op.has .idempotent
  if !(flattens e.op || idempotent) || isAbsorbed g id then return
  let (operands, absorbed) := flattened g e
  let operands := if idempotent then operands.eraseDups else operands
  if operands = e.operands then return
  match ← Draft.editExpression id { operands := some (operands.map .input) } with
  | none => return
  | some out =>
    if !absorbed.isEmpty then Draft.absorb out absorbed
    absorbed.forM Draft.remove

def nesting : Pass α where
  name := "compress_associative"
  run := do (← get).input.expressions.forM fun (id, e) => compress id e

end ParameterSolver.Pass
