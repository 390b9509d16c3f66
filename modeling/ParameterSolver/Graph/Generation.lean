import ParameterSolver.Graph.Node
import ParameterSolver.Graph.Provenance

/-!
A generation is one graph: its nodes in the order they entered it, the origins of each, and for
each the expressions that use it. Operands are nodes of the same generation.
-/

namespace ParameterSolver

structure Entry (α : Type) where
  node : Node α
  provenance : Provenance
  /-- The expressions that list the node as an operand, in the order of first use. -/
  users : List NodeId

namespace Entry

variable {α : Type}

def addUser (user : NodeId) (e : Entry α) : Entry α :=
  if user ∈ e.users then e else { e with users := e.users ++ [user] }

def dropUser (user : NodeId) (e : Entry α) : Entry α :=
  { e with users := e.users.filter (· ≠ user) }

end Entry

structure Generation (α : Type) where
  /-- The first generation has index zero. -/
  index : Nat
  entries : NodeMap (Entry α)
  origins : OriginTable

namespace Generation

variable {α : Type} [Scalar α]

def empty (index : Nat) (origins : OriginTable) : Generation α := ⟨index, .empty, origins⟩

def get? (g : Generation α) (id : NodeId) : Option (Entry α) := g.entries.get? id

def contains (g : Generation α) (id : NodeId) : Bool := g.entries.contains id

def node? (g : Generation α) (id : NodeId) : Option (Node α) := (g.get? id).map (·.node)

def provenance? (g : Generation α) (id : NodeId) : Option Provenance :=
  (g.get? id).map (·.provenance)

def users (g : Generation α) (id : NodeId) : List NodeId :=
  match g.get? id with
  | some e => e.users
  | none => []

def operands (g : Generation α) (id : NodeId) : List NodeId :=
  match g.get? id with
  | some e => e.node.operands
  | none => []

def parameter? (g : Generation α) (id : NodeId) : Option (Parameter α) :=
  (g.node? id).bind Node.parameter?

def expression? (g : Generation α) (id : NodeId) : Option Expression :=
  (g.node? id).bind Node.expression?

def literal? (g : Generation α) (id : NodeId) : Option (ValueSet α) :=
  (g.node? id).bind Node.literal?

/-- The nodes in the order they entered. -/
def order (g : Generation α) : List NodeId := g.entries.keys

def size (g : Generation α) : Nat := g.order.length

def toList (g : Generation α) : List (NodeId × Entry α) := g.entries.toList

def parameters (g : Generation α) : List (NodeId × Parameter α) :=
  g.toList.filterMap fun (id, e) => e.node.parameter?.map (id, ·)

def expressions (g : Generation α) : List (NodeId × Expression) :=
  g.toList.filterMap fun (id, e) => e.node.expression?.map (id, ·)

/-- How many expressions have an operator. -/
def countOp (g : Generation α) (op : Operator) : Nat :=
  (g.expressions.filter (·.2.op = op)).length

/-- The place of a node in the order of the nodes. -/
def position? (g : Generation α) (id : NodeId) : Option Nat := g.order.findIdx? (· = id)

/-- Enters `user` into the users of its operands. -/
def link (m : NodeMap (Entry α)) (user : NodeId) (operands : List NodeId) : NodeMap (Entry α) :=
  operands.foldl (fun m o => m.modify o (Entry.addUser user)) m

/-- Takes `user` out of the users of its operands. -/
def unlink (m : NodeMap (Entry α)) (user : NodeId) (operands : List NodeId) :
    NodeMap (Entry α) :=
  operands.foldl (fun m o => m.modify o (Entry.dropUser user)) m

/-- The first operand that is no node of the generation. -/
def missing? (g : Generation α) (node : Node α) : Option NodeId :=
  node.operands.find? fun o => !g.contains o

/-- Adds a node; fails with the first operand that is missing. -/
def insert (g : Generation α) (node : Node α) (provenance : Provenance) :
    Except NodeId (NodeId × Generation α) :=
  match g.missing? node with
  | some o => .error o
  | none =>
    let id := g.entries.fresh
    .ok (id, { g with entries := link (g.entries.push ⟨node, provenance, []⟩) id node.operands })

/-- Puts other content into a node; its users stay. -/
def replace (g : Generation α) (id : NodeId) (node : Node α) (provenance : Provenance) :
    Except NodeId (Generation α) :=
  if !g.contains id then .error id
  else
    match g.missing? node with
    | some o => .error o
    | none =>
      let m := unlink g.entries id (g.operands id)
      let m := m.modify id fun e => { e with node := node, provenance := provenance }
      .ok { g with entries := link m id node.operands }

/-- Adds to `seen` the node and all expressions that use it, directly or through others. No chain
of users is longer than the generation, so `fuel` is its size. -/
def dependents (g : Generation α) : Nat → List NodeId → NodeId → List NodeId
  | 0, seen, _ => seen
  | fuel + 1, seen, id =>
    if id ∈ seen || !g.contains id then seen
    else (g.users id).foldl (g.dependents fuel) (id :: seen)

/-- Removes a node and all expressions that depend on it; also gives the removed nodes. -/
def remove (g : Generation α) (id : NodeId) : List NodeId × Generation α :=
  let gone := g.dependents g.size [] id
  (gone, { g with
    entries := g.entries.filterMap fun id e =>
      if id ∈ gone then none else some { e with users := e.users.filter (· ∉ gone) } })

def addProvenance (g : Generation α) (id : NodeId) (p : Provenance) : Generation α :=
  { g with entries := g.entries.modify id fun e => { e with provenance := e.provenance.union p } }

end Generation

end ParameterSolver
