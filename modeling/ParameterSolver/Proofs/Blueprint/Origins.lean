import ParameterSolver.Proofs.Blueprint.Reachable
import ParameterSolver.Proofs.Graph.Origins

/-! The nodes of a graph under construction are its origins, each of itself alone. -/

namespace ParameterSolver

variable {α : Type} [Scalar α]

namespace OriginTable

variable {t : OriginTable} {id : NodeId} {o : Origin}

/-- The nodes behind the origins, in order. -/
def nodes (t : OriginTable) : List NodeId := t.entries.toList.map (·.node)

theorem originOf?_eq : t.originOf? id = t.nodes.findIdx? (· = id) := by
  rw [originOf?, nodes, List.findIdx?_map]
  cases t.entries
  simp [Function.comp_def]

theorem node?_eq : t.node? o = t.nodes[o]? := by
  rw [node?, nodes, List.getElem?_map, Array.getElem?_toList]

@[simp] theorem nodes_push : (t.push id).nodes = t.nodes ++ [id] := by
  simp [push, nodes]

@[simp] theorem length_nodes : t.nodes.length = t.size := by
  simp [nodes, size]

@[simp] theorem nodes_setLabel {text : String} : (t.setLabel id text).nodes = t.nodes := by
  unfold setLabel
  split
  · refine List.ext_getElem? fun i => ?_
    simp only [nodes, Array.toList_modify, List.getElem?_map, List.getElem?_modify]
    cases t.entries.toList[i]? <;> simp [apply_ite OriginEntry.node]
  · rfl

theorem node?_of_originOf? (h : t.originOf? id = some o) : t.node? o = some id := by
  rw [originOf?_eq] at h
  rw [node?_eq]
  obtain ⟨hlt, hid, -⟩ := List.findIdx?_eq_some_iff_getElem.1 h
  rw [List.getElem?_eq_getElem hlt]
  simpa using hid

end OriginTable

/-- Every node is an origin and has no other, and every origin is a node. -/
structure Generation.Original (g : Generation α) : Prop where
  own : ∀ id q, g.provenance? id = some q → ∃ o, g.origins.originOf? id = some o ∧ q = .singleton o
  nodes : ∀ id ∈ g.origins.nodes, g.contains id
  ranked : g.origins.nodes.Pairwise fun i j => i.rank < j.rank

omit [Scalar α] in
theorem Generation.Original.add {b : Blueprint α} (h : b.generation.Original) (n : Node α) :
    (b.add n).2.generation.Original := by
  unfold Blueprint.add
  dsimp only
  split
  · rename_i id g hg
    have henter := Generation.entered_of_insert hg
    have hnew : id ∉ b.generation.origins.nodes := fun hmem =>
      henter.ne_of_contains (h.nodes id hmem) rfl
    constructor
    · intro j q hq
      change g.provenance? j = some q at hq
      change ∃ o, (b.generation.origins.push id).originOf? j = some o ∧ q = .singleton o
      rw [henter.provenance?] at hq
      rw [OriginTable.originOf?_eq, OriginTable.nodes_push, List.findIdx?_append]
      split_ifs at hq with hj
      · cases hq
        subst hj
        have hnone : b.generation.origins.nodes.findIdx? (· = j) = none :=
          List.findIdx?_eq_none_iff.2 fun x hx => by
            simpa using fun hxj : x = j => hnew (hxj ▸ hx)
        exact ⟨_, by simp [hnone], rfl⟩
      · obtain ⟨o, ho, hqo⟩ := h.own j q hq
        rw [OriginTable.originOf?_eq] at ho
        exact ⟨o, by rw [ho]; rfl, hqo⟩
    · intro j hj
      change j ∈ (b.generation.origins.push id).nodes at hj
      rw [OriginTable.nodes_push, List.mem_append, List.mem_singleton] at hj
      change g.contains j
      rcases hj with hj | rfl
      · exact henter.contains (h.nodes j hj)
      · exact Generation.contains_of_node? henter.node?_self
    · change (b.generation.origins.push id).nodes.Pairwise _
      rw [OriginTable.nodes_push]
      refine List.pairwise_append.2 ⟨h.ranked, List.pairwise_singleton .., fun i hi j hj => ?_⟩
      rw [List.mem_singleton.1 hj]
      exact henter.rank_lt_of_issued (Generation.issued_of_contains (h.nodes i hi))
  · exact h

omit [Scalar α] in
/-- Nodes that entered later are later origins. -/
theorem Generation.Original.lt_of_rank_lt {g : Generation α} {i j : NodeId} {o o' : Origin}
    (h : g.Original) (ho : g.origins.originOf? i = some o) (ho' : g.origins.originOf? j = some o')
    (hrank : i.rank < j.rank) : o < o' := by
  have hi := OriginTable.node?_of_originOf? ho
  have hj := OriginTable.node?_of_originOf? ho'
  rw [OriginTable.node?_eq, List.getElem?_eq_some_iff] at hi hj
  obtain ⟨hlt, rfl⟩ := hi
  obtain ⟨hlt', rfl⟩ := hj
  by_contra hle
  rcases Nat.lt_or_eq_of_le (Nat.le_of_not_lt hle) with hlt'' | rfl
  · exact absurd (List.pairwise_iff_getElem.1 h.ranked o' o hlt' hlt hlt'') (Nat.not_lt_of_lt hrank)
  · exact lt_irrefl _ hrank

theorem Blueprint.original_of_reachable {b : Blueprint α} (h : b.Reachable) :
    b.generation.Original := by
  induction h with
  | empty =>
    refine ⟨fun id q hq => ?_, fun id hid => ?_, ?_⟩
    · simp [Blueprint.empty, Generation.provenance?, Generation.get?, Generation.empty] at hq
    · simp [Blueprint.empty, Generation.empty, OriginTable.empty, OriginTable.nodes] at hid
    · exact List.Pairwise.nil
  | parameter _ p ih => exact ih.add _
  | literal _ s ih => exact ih.add _
  | @constant b _ c ih =>
    unfold addConstant
    dsimp only
    split
    · exact ih.add _
    · exact Generation.Original.add (b := b.addFaults _) ih _
  | @expression b _ op operands ih => exact Generation.Original.add (b := b.addFaults _) ih _
  | @assertion b _ op operands ih => exact Generation.Original.add (b := b.addFaults _) ih _
  | @label b _ id text ih =>
    refine ⟨fun j q hq => ?_, fun j hj => ?_, ?_⟩
    · obtain ⟨o, ho, hqo⟩ := ih.own j q hq
      refine ⟨o, ?_, hqo⟩
      change (b.generation.origins.setLabel id text).originOf? j = some o
      rw [OriginTable.originOf?_eq] at ho ⊢
      rwa [OriginTable.nodes_setLabel]
    · change j ∈ (b.generation.origins.setLabel id text).nodes at hj
      rw [OriginTable.nodes_setLabel] at hj
      exact ih.nodes j hj
    · change (b.generation.origins.setLabel id text).nodes.Pairwise _
      rw [OriginTable.nodes_setLabel]
      exact ih.ranked

end ParameterSolver
