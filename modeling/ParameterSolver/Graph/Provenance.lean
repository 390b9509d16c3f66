import ParameterSolver.Graph.NodeMap
import ParameterSolver.SortedSet

/-!
Where nodes come from. Every node of the first graph is an origin, numbered in order; every later
node carries the set of origins it derives from.
-/

namespace ParameterSolver

abbrev Origin := Nat

def Origin.text (o : Origin) : String := "#" ++ toString o

abbrev Provenance := SortedSet Origin

/-- Whether adding `q` to `p` brings anything new. -/
def Provenance.growsBy (p q : Provenance) : Bool := !q.isSubset p

/-- The node of the first graph behind an origin, and what it is called. -/
structure OriginEntry where
  node : NodeId
  label : Option String

/-- The origins in order. All graphs of a solve share one table. -/
structure OriginTable where
  entries : Array OriginEntry

namespace OriginTable

def empty : OriginTable := ⟨#[]⟩

def size (t : OriginTable) : Nat := t.entries.size

/-- Adds an origin, whose number is the size of the table. -/
def push (t : OriginTable) (node : NodeId) : OriginTable := ⟨t.entries.push ⟨node, none⟩⟩

def node? (t : OriginTable) (o : Origin) : Option NodeId := t.entries[o]?.map (·.node)

def label? (t : OriginTable) (o : Origin) : Option String := t.entries[o]?.bind (·.label)

/-- The origin that a node of the first graph is. -/
def originOf? (t : OriginTable) (node : NodeId) : Option Origin :=
  t.entries.findIdx? (·.node = node)

/-- Labels the origin that a node is; other nodes have no label. -/
def setLabel (t : OriginTable) (node : NodeId) (label : String) : OriginTable :=
  match t.originOf? node with
  | some o => ⟨t.entries.modify o fun e => { e with label := some label }⟩
  | none => t

end OriginTable

end ParameterSolver
