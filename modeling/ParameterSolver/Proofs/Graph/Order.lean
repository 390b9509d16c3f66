import Mathlib.Data.Finset.Card
import Mathlib.Logic.Relation
import ParameterSolver.Graph.Order
import ParameterSolver.Proofs.Graph.Linked

/-! Graphs in which no node is made of itself, and the order of a sweep. The nodes of such a graph have
heights, which are bounded by the size of the graph. A search that finishes the operands of a node before
the node itself lists them first, and with the heights it has enough fuel to finish. -/

namespace ParameterSolver.Generation

variable {α : Type} {g : Generation α} {id o : NodeId} {done : List NodeId} {fuel : ℕ}

/-- The node `o` is an operand of the node `id`. -/
def Uses (g : Generation α) (id o : NodeId) : Prop := o ∈ g.operands id

/-- Operands never lead back to where they started. -/
def Acyclic (g : Generation α) : Prop := ∀ id, ¬ Relation.TransGen g.Uses id id

theorem Acyclic.not_mem_operands (h : g.Acyclic) : id ∉ g.operands id :=
  fun hid => h id (.single hid)

theorem acyclic_of_rank {β : Type} [Preorder β] (rank : NodeId → β)
    (h : ∀ id, ∀ o ∈ g.operands id, rank o < rank id) : g.Acyclic := by
  have hpath : ∀ {a b}, Relation.TransGen g.Uses a b → rank b < rank a := by
    intro a b hab
    induction hab with
    | single hb => exact h a _ hb
    | tail _ hc ih => exact lt_trans (h _ _ hc) ih
  exact fun id hid => lt_irrefl _ (hpath hid)

/-- The nodes that a node is made of, with the node itself. -/
noncomputable def parts (g : Generation α) (id : NodeId) : Finset NodeId :=
  open Classical in g.order.toFinset.filter (Relation.ReflTransGen g.Uses id)

theorem mem_parts {j : NodeId} :
    j ∈ g.parts id ↔ g.contains j ∧ Relation.ReflTransGen g.Uses id j := by
  simp [parts, order, NodeMap.mem_keys, contains, NodeMap.contains]

theorem card_parts_le (id : NodeId) : (g.parts id).card ≤ g.size := by
  classical
  exact (Finset.card_filter_le _ _).trans (List.toFinset_card_le _)

theorem card_parts_pos (h : g.contains id) : 0 < (g.parts id).card :=
  Finset.card_pos.2 ⟨id, mem_parts.2 ⟨h, .refl⟩⟩

theorem Acyclic.card_parts_lt (h : g.Acyclic) (ho : o ∈ g.operands id) :
    (g.parts o).card < (g.parts id).card := by
  obtain ⟨n, hn⟩ := node?_of_mem_operands ho
  refine Finset.card_lt_card ⟨fun j hj => ?_, fun hsub => ?_⟩
  · obtain ⟨hc, hpath⟩ := mem_parts.1 hj
    exact mem_parts.2 ⟨hc, .head ho hpath⟩
  · have hid := hsub (mem_parts.2 ⟨contains_of_node? hn, .refl⟩)
    exact h id (.head' ho (mem_parts.1 hid).2)

/-- A height for every node, more than that of its operands. -/
structure Heights (g : Generation α) (height : NodeId → ℕ) : Prop where
  pos : ∀ id, g.contains id → 0 < height id
  le_size : ∀ id, height id ≤ g.size
  operand : ∀ id, ∀ o ∈ g.operands id, height o < height id

theorem Acyclic.exists_heights (h : g.Acyclic) : ∃ height, g.Heights height :=
  ⟨fun id => (g.parts id).card, fun _ => card_parts_pos, card_parts_le, fun _ _ => h.card_parts_lt⟩

/-- A list, latest first, in which every node comes after its operands. -/
inductive Ordered (g : Generation α) : List NodeId → Prop
  | nil : Ordered g []
  | cons {id : NodeId} {l : List NodeId} (h : Ordered g l)
    (hid : ∀ o ∈ g.operands id, g.contains o → o ∈ l) : Ordered g (id :: l)

theorem Ordered.mem_operands {l : List NodeId} {o : NodeId} (h : g.Ordered l) (hid : id ∈ l)
    (ho : o ∈ g.operands id) (hc : g.contains o) : o ∈ l := by
  induction h with
  | nil => exact absurd hid List.not_mem_nil
  | cons _ hfirst ih =>
    rcases List.mem_cons.1 hid with rfl | hid
    · exact List.mem_cons_of_mem _ (hfirst o ho hc)
    · exact List.mem_cons_of_mem _ (ih hid)

/-- The operands of a node come after it. -/
theorem Ordered.mem_of_append {l l' : List NodeId} (h : g.Ordered (l' ++ id :: l)) (o : NodeId)
    (ho : o ∈ g.operands id) (hc : g.contains o) : o ∈ l := by
  induction l' with
  | nil =>
    obtain - | ⟨-, hfirst⟩ := h
    exact hfirst o ho hc
  | cons _ l' ih =>
    obtain - | ⟨h, -⟩ := h
    exact ih h

/-- A search goes on from `done` to an ordered list with the nodes of `ids` in it. -/
structure Lists (g : Generation α) (done ids all : List NodeId) : Prop where
  ordered : g.Ordered all
  subset : done ⊆ all
  mem : ∀ id ∈ ids, g.contains id → id ∈ all

theorem lists_foldl {f : List NodeId → NodeId → List NodeId} (ids : List NodeId)
    (hf : ∀ id ∈ ids, ∀ done, g.Ordered done → g.Lists done [id] (f done id))
    (h : g.Ordered done) : g.Lists done ids (ids.foldl f done) := by
  induction ids generalizing done with
  | nil => exact ⟨h, List.Subset.refl _, by simp⟩
  | cons id ids ih =>
    have hfirst := hf id List.mem_cons_self done h
    have hrest := ih (fun j hj => hf j (.tail _ hj)) hfirst.ordered
    refine ⟨hrest.ordered, List.Subset.trans hfirst.subset hrest.subset, fun j hj hc => ?_⟩
    rcases List.mem_cons.1 hj with rfl | hj
    · exact hrest.subset (hfirst.mem j List.mem_cons_self hc)
    · exact hrest.mem j hj hc

theorem Heights.lists_visit {height : NodeId → ℕ} (hh : g.Heights height) (hfuel : height id ≤ fuel)
    (h : g.Ordered done) : g.Lists done [id] (g.visit fuel done id) := by
  induction fuel generalizing done id with
  | zero =>
    refine ⟨h, List.Subset.refl _, fun j hj hc => ?_⟩
    rw [List.mem_singleton.1 hj] at hc
    exact absurd (hh.pos id hc) (by omega)
  | succ fuel ih =>
    unfold visit
    split_ifs with hid
    · exact ⟨h, List.Subset.refl _, by simpa using fun _ => hid⟩
    · have hoperand : ∀ o ∈ g.operands id, height o ≤ fuel := by
        intro o ho
        have := hh.operand id o ho
        omega
      have hall := lists_foldl (g.operands id) (fun o ho _ hdone => ih (hoperand o ho) hdone) h
      exact ⟨hall.ordered.cons hall.mem, List.subset_cons_of_subset _ hall.subset, by simp⟩

theorem Acyclic.lists (hg : g.Acyclic) : g.Lists [] g.order g.topologicalOrder.reverse := by
  obtain ⟨height, hh⟩ := hg.exists_heights
  rw [topologicalOrder, List.reverse_reverse]
  exact lists_foldl g.order (fun id _ _ hdone => hh.lists_visit (hh.le_size id) hdone) .nil

theorem Acyclic.ordered (hg : g.Acyclic) : g.Ordered g.topologicalOrder.reverse := hg.lists.ordered

theorem Acyclic.mem_topologicalOrder (hg : g.Acyclic) (h : g.contains id) :
    id ∈ g.topologicalOrder :=
  List.mem_reverse.1 (hg.lists.mem id (NodeMap.mem_keys.2 h) h)

end ParameterSolver.Generation
