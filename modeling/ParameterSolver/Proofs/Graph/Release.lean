import ParameterSolver.Proofs.Graph.Order
import ParameterSolver.Proofs.Graph.Orderly

/-! A generation with some of its assertions released: an expression keeps its flag if it shares an
origin with a given set. Nothing else changes, so that the nodes keep their operands and their order. -/

namespace ParameterSolver

/-- The two have an origin in common. -/
def Provenance.meets (p q : Provenance) : Bool := !(SortedSet.inter p q).isEmpty

theorem Provenance.meets_iff {p q : Provenance} : p.meets q ↔ ∃ o, o ∈ p ∧ o ∈ q := by
  rw [meets, Bool.not_eq_true', SortedSet.isEmpty_eq_false_iff]
  simp only [SortedSet.mem_inter]

variable {α : Type}

/-- The node without the demand that it holds. -/
def Node.unasserted : Node α → Node α
  | .expression e => .expression { e with asserted := false }
  | n => n

/-- The entry, released unless it shares an origin with `origins`. -/
def Entry.release (origins : Provenance) (e : Entry α) : Entry α :=
  if e.provenance.meets origins then e else { e with node := e.node.unasserted }

namespace Entry

variable {origins : Provenance} {e : Entry α}

theorem node_release (origins : Provenance) (e : Entry α) :
    (e.release origins).node = e.node ∨ (e.release origins).node = e.node.unasserted := by
  unfold release
  split_ifs
  · exact Or.inl rfl
  · exact Or.inr rfl

@[simp] theorem provenance_release : (e.release origins).provenance = e.provenance := by
  unfold release
  split_ifs <;> rfl

@[simp] theorem operands_release : (e.release origins).node.operands = e.node.operands := by
  obtain h | h := node_release origins e <;> rw [h]
  cases e.node <;> rfl

end Entry

namespace Generation

/-- The generation in which an assertion has to hold only if it shares an origin with `origins`. -/
def release (g : Generation α) (origins : Provenance) : Generation α :=
  { g with entries := g.entries.filterMap fun _ e => some (e.release origins) }

variable {g : Generation α} {origins : Provenance} {id : NodeId}

theorem get?_release (g : Generation α) (origins : Provenance) (id : NodeId) :
    (g.release origins).get? id = (g.get? id).map (Entry.release origins) := by
  rw [get?, release, NodeMap.get?_filterMap, get?]
  cases g.entries.get? id <;> rfl

@[simp] theorem operands_release (g : Generation α) (origins : Provenance) (id : NodeId) :
    (g.release origins).operands id = g.operands id := by
  rw [operands, get?_release, operands]
  cases g.get? id with
  | none => rfl
  | some e => exact Entry.operands_release

@[simp] theorem contains_release (g : Generation α) (origins : Provenance) (id : NodeId) :
    (g.release origins).contains id = g.contains id := by
  have h := get?_release g origins id
  simp only [get?] at h
  rw [contains, NodeMap.contains, h, Option.isSome_map]
  rfl

@[simp] theorem order_release (g : Generation α) (origins : Provenance) :
    (g.release origins).order = g.order := by
  have hcontains : (g.release origins).entries.contains = g.entries.contains :=
    funext fun id => contains_release g origins id
  rw [order, NodeMap.keys, hcontains, order, NodeMap.keys]
  simp [release, NodeMap.filterMap]

theorem toList_release (g : Generation α) (origins : Provenance) :
    (g.release origins).toList = g.toList.map fun x => (x.1, x.2.release origins) := by
  have hkeys : (g.release origins).entries.keys = g.entries.keys := order_release g origins
  rw [toList, NodeMap.toList, hkeys, toList, NodeMap.toList, List.map_filterMap]
  refine List.filterMap_congr fun id _ => ?_
  have h := get?_release g origins id
  simp only [get?] at h
  rw [h]
  cases g.entries.get? id <;> rfl

theorem visit_congr {g' : Generation α} (h : ∀ id, g'.operands id = g.operands id) (fuel : ℕ) :
    g'.visit fuel = g.visit fuel := by
  induction fuel with
  | zero => rfl
  | succ fuel ih =>
    funext done id
    rw [visit, visit, h, ih]

@[simp] theorem topologicalOrder_release (g : Generation α) (origins : Provenance) :
    (g.release origins).topologicalOrder = g.topologicalOrder := by
  rw [topologicalOrder, size, order_release, visit_congr (operands_release g origins),
    topologicalOrder, size]

theorem Acyclic.release (h : g.Acyclic) (origins : Provenance) : (g.release origins).Acyclic := by
  have huses : (g.release origins).Uses = g.Uses := by
    funext id o
    rw [Uses, operands_release, Uses]
  rw [Acyclic, huses]
  exact h

theorem node?_release (g : Generation α) (origins : Provenance) (id : NodeId) :
    (g.release origins).node? id = g.node? id ∨
      (g.release origins).node? id = (g.node? id).map Node.unasserted := by
  rw [node?, get?_release, node?]
  cases g.get? id with
  | none => exact Or.inl rfl
  | some e =>
    exact (Entry.node_release origins e).imp (congrArg some) (congrArg some)

/-- All origins of the node are among `origins`. -/
def Within (g : Generation α) (origins : Provenance) (id : NodeId) : Prop :=
  ∀ o ∈ (g.provenance? id).getD .empty, o ∈ origins

instance (g : Generation α) (origins : Provenance) (id : NodeId) : Decidable (g.Within origins id) :=
  inferInstanceAs (Decidable (∀ o ∈ ((g.provenance? id).getD .empty).toList, o ∈ origins))

/-- What has no other origins is not released. -/
theorem expression?_release (hv : g.validate = .ok ()) (h : g.Within origins id) {e : Expression}
    (he : g.expression? id = some e) : (g.release origins).expression? id = some e := by
  have hnode := expression?_eq.1 he
  obtain ⟨x, hx, hxe⟩ := Option.map_eq_some_iff.1 hnode
  have hprov : g.provenance? id = some x.provenance := by
    rw [provenance?, hx]
    rfl
  obtain ⟨o, ho⟩ := origin_of_validate hv hprov
  have hmeets : x.provenance.meets origins :=
    Provenance.meets_iff.2 ⟨o, ho, h o (by rw [hprov]; exact ho)⟩
  rw [expression?_eq, node?, get?_release, hx, Option.map_some, Option.map_some, Entry.release,
    if_pos hmeets, hxe]

end Generation

end ParameterSolver
