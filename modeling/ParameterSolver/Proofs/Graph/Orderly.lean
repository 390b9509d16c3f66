import ParameterSolver.Graph.Validity
import ParameterSolver.Proofs.Graph.Cascade

/-! Graphs that pass validation, whose constants stand for sets and which list no user twice. Every
operation on such a graph succeeds if the operands are there, and keeps it such a graph. -/

namespace ParameterSolver

variable {α : Type} [Scalar α]

theorem SortedSet.isEmpty_eq_false_iff {κ : Type} [Ord κ] {s : SortedSet κ} :
    s.isEmpty = false ↔ ∃ x, x ∈ s := by
  rw [isEmpty, List.isEmpty_eq_false_iff_exists_mem]
  rfl

/-- Content that can stand in a valid graph. -/
structure Node.Proper (n : Node α) : Prop where
  arity : ∀ e, n = .expression e → e.op.arity.accepts e.operands.length
  constant : ∀ c, n = .constant c → ∃ s, c.toSet = .ok s

theorem Node.proper_parameter (p : Parameter α) : (Node.parameter p).Proper :=
  ⟨by simp, by simp⟩

theorem Node.proper_literal (s : ValueSet α) (u : Option (MeasureUnit α)) :
    (Node.literal s u).Proper := ⟨by simp, by simp⟩

theorem Node.proper_expression {e : Expression} (h : e.op.arity.accepts e.operands.length) :
    (Node.expression e : Node α).Proper :=
  ⟨fun _ he => by cases he; exact h, by simp⟩

structure Entry.Proper (e : Entry α) : Prop where
  node : e.node.Proper
  origin : ∃ o, o ∈ e.provenance
  users : e.users.Nodup

namespace Entry

variable {e : Entry α} {u : NodeId}

theorem Proper.addUser (h : e.Proper) : (e.addUser u).Proper := by
  unfold Entry.addUser
  split_ifs with hu
  · exact h
  · exact ⟨h.node, h.origin, List.nodup_append.2 ⟨h.users, List.nodup_singleton u, by
      rintro x hx y hy rfl
      exact hu (List.mem_singleton.1 hy ▸ hx)⟩⟩

theorem Proper.dropUser (h : e.Proper) : (e.dropUser u).Proper :=
  ⟨h.node, h.origin, h.users.filter _⟩

end Entry

namespace Generation

variable {g g' : Generation α} {id j o u : NodeId} {n : Node α} {p : Provenance}

/-- Users and operands fit together, and every node can stand in a valid graph. -/
structure Orderly (g : Generation α) : Prop extends g.Linked where
  entries : ∀ id e, g.get? id = some e → e.Proper

theorem Orderly.node (hg : g.Orderly) (h : g.node? id = some n) : n.Proper := by
  obtain ⟨e, he, rfl⟩ := Option.map_eq_some_iff.1 h
  exact (hg.entries id e he).node

theorem Orderly.origin (hg : g.Orderly) (h : g.contains id) :
    ∃ p, g.provenance? id = some p ∧ ∃ o, o ∈ p := by
  obtain ⟨e, he⟩ := NodeMap.contains_iff.1 h
  refine ⟨e.provenance, ?_, (hg.entries id e he).origin⟩
  rw [provenance?, get?, he]
  rfl

theorem Orderly.nodup_users (hg : g.Orderly) (id : NodeId) : (g.users id).Nodup := by
  unfold users
  cases h : g.get? id with
  | none => exact List.nodup_nil
  | some e => exact (hg.entries id e h).users

omit [Scalar α] in
theorem missing?_of_contains (h : ∀ o ∈ n.operands, g.contains o) : g.missing? n = none := by
  refine List.find?_eq_none.2 fun o ho => ?_
  simp [h o ho]

section Entries

omit [Scalar α]

variable {P : Entry α → Prop}

/-- What holds of all entries, whoever uses them, holds after an insertion if it holds of the new
one. -/
theorem entries_insert (hadd : ∀ e u, P e → P (e.addUser u)) (hnew : P ⟨n, p, []⟩)
    (hg : ∀ id e, g.get? id = some e → P e) (h : g.insert n p = .ok (id, g')) :
    ∀ id e, g'.get? id = some e → P e := by
  intro j e he
  unfold Generation.insert at h
  split at h
  · cases h
  cases h
  rw [get?, get?_link, NodeMap.get?_push] at he
  obtain ⟨e', he', rfl⟩ := Option.map_eq_some_iff.1 he
  have hold : P e' := by
    split_ifs at he'
    · cases he'
      exact hnew
    · exact hg j e' he'
  split_ifs
  · exact hadd e' _ hold
  · exact hold

theorem entries_replace (hadd : ∀ e u, P e → P (e.addUser u)) (hdrop : ∀ e u, P e → P (e.dropUser u))
    (hset : ∀ e, P e → P { e with node := n, provenance := p })
    (hg : ∀ id e, g.get? id = some e → P e) (h : g.replace id n p = .ok g') :
    ∀ id e, g'.get? id = some e → P e := by
  intro j e he
  unfold Generation.replace at h
  split_ifs at h
  split at h
  · cases h
  cases h
  rw [get?, get?_link, NodeMap.get?_modify, get?_unlink] at he
  obtain ⟨e', he', rfl⟩ := Option.map_eq_some_iff.1 he
  have hunlinked : ∀ e, ((g.get? j).map fun e => if j ∈ g.operands id then e.dropUser id else e)
      = some e → P e := by
    intro e he
    obtain ⟨e₁, he₁, rfl⟩ := Option.map_eq_some_iff.1 he
    split_ifs
    · exact hdrop e₁ _ (hg j e₁ he₁)
    · exact hg j e₁ he₁
  have hold : P e' := by
    by_cases hj : j = id
    · rw [if_pos hj] at he'
      obtain ⟨e₁, he₁, rfl⟩ := Option.map_eq_some_iff.1 he'
      exact hset e₁ (hunlinked e₁ he₁)
    · rw [if_neg hj] at he'
      exact hunlinked e' he'
  split_ifs
  · exact hadd e' _ hold
  · exact hold

theorem entries_addProvenance (hset : ∀ e, P e → P { e with provenance := e.provenance.union p })
    (hg : ∀ id e, g.get? id = some e → P e) : ∀ j e, (g.addProvenance id p).get? j = some e → P e := by
  intro j e he
  rw [get?, Generation.addProvenance, NodeMap.get?_modify] at he
  split_ifs at he
  · obtain ⟨e', he', rfl⟩ := Option.map_eq_some_iff.1 he
    exact hset e' (hg j e' he')
  · exact hg j e he

theorem entries_remove (hfilter : ∀ e (q : NodeId → Bool), P e → P { e with users := e.users.filter q })
    (hg : ∀ id e, g.get? id = some e → P e) (id : NodeId) :
    ∀ j e, (g.remove id).2.get? j = some e → P e := by
  intro j e he
  rw [get?_remove] at he
  obtain ⟨e', he', hsome⟩ := Option.bind_eq_some_iff.1 he
  split_ifs at hsome
  cases hsome
  exact hfilter e' _ (hg j e' he')

end Entries

theorem Orderly.empty (index : ℕ) (origins : OriginTable) :
    (Generation.empty index origins : Generation α).Orderly :=
  ⟨linked_empty index origins, fun id e he => by simp [get?, Generation.empty] at he⟩

theorem Orderly.insert (hg : g.Orderly) (hn : n.Proper) (hp : ∃ o, o ∈ p)
    (ho : ∀ o ∈ n.operands, g.contains o) :
    ∃ id g', g.insert n p = .ok (id, g') ∧ g.Inserted id n g' ∧ g'.Orderly := by
  obtain ⟨x, hx⟩ : ∃ x, g.insert n p = .ok x := by
    unfold Generation.insert
    rw [missing?_of_contains ho]
    exact ⟨_, rfl⟩
  have hi := inserted_of_insert hx
  exact ⟨x.1, x.2, hx, hi, hi.linked hg.toLinked,
    entries_insert (fun _ _ h => h.addUser) ⟨hn, hp, List.nodup_nil⟩ hg.entries hx⟩

theorem Orderly.replace (hg : g.Orderly) (hid : g.contains id) (hn : n.Proper) (hp : ∃ o, o ∈ p)
    (ho : ∀ o ∈ n.operands, g.contains o) :
    ∃ g', g.replace id n p = .ok g' ∧ g.Replaced id n g' ∧ g'.Orderly := by
  obtain ⟨g', hx⟩ : ∃ g', g.replace id n p = .ok g' := by
    unfold Generation.replace
    rw [missing?_of_contains ho]
    simp [hid]
  have hr := replaced_of_replace hx
  exact ⟨g', hx, hr, hr.linked hg.toLinked, entries_replace (fun _ _ h => h.addUser)
    (fun _ _ h => h.dropUser) (fun _ h => ⟨hn, hp, h.users⟩) hg.entries hx⟩

theorem Orderly.addProvenance (hg : g.Orderly) : (g.addProvenance id p).Orderly :=
  ⟨hg.toLinked.addProvenance, entries_addProvenance
    (fun _ h => ⟨h.node, h.origin.imp fun _ ho => SortedSet.mem_union.2 (Or.inl ho), h.users⟩)
    hg.entries⟩

theorem Orderly.remove (hg : g.Orderly) (id : NodeId) : (g.remove id).2.Orderly :=
  ⟨(cleared_of_remove g id).1.linked hg.toLinked,
    entries_remove (fun _ _ h => ⟨h.node, h.origin, h.users.filter _⟩) hg.entries id⟩

theorem Orderly.validate (hg : g.Orderly) : g.validate = .ok () := by
  unfold Generation.validate
  rw [List.findSome?_eq_none_iff.2]
  rintro ⟨id, e⟩ he
  have hget : g.get? id = some e := NodeMap.mem_toList.1 he
  obtain ⟨hnode, horigin, -⟩ := hg.entries id e hget
  simp only [entryFault?, SortedSet.isEmpty_eq_false_iff.2 horigin, Bool.false_eq_true, if_false,
    Option.bind_eq_none_iff]
  intro x hx
  have hx' : e.node = .expression x := by
    cases hn : e.node <;> rw [hn] at hx <;> cases hx
    rfl
  have hn : g.node? id = some (.expression x) := by rw [node?, hget, ← hx']; rfl
  have hclosed : x.operands.find? (fun o => !g.contains o) = none := by
    refine List.find?_eq_none.2 fun o ho => ?_
    simp [hg.contains hn ho]
  simp [expressionFault?, hclosed, hnode.arity x hx']

omit [Scalar α] in
theorem entryFault?_of_validate {e : Entry α} (h : g.validate = .ok ()) (he : g.get? id = some e) :
    g.entryFault? id e = none := by
  unfold Generation.validate at h
  split at h
  · cases h
  rename_i hnone
  exact List.findSome?_eq_none_iff.1 hnone (id, e) (NodeMap.mem_toList.2 he)

omit [Scalar α] in
theorem origin_of_validate (h : g.validate = .ok ()) (hp : g.provenance? id = some p) :
    ∃ o, o ∈ p := by
  obtain ⟨e, he, rfl⟩ := Option.map_eq_some_iff.1 hp
  have hfault := entryFault?_of_validate h he
  simp only [entryFault?] at hfault
  split_ifs at hfault with hprov
  exact SortedSet.isEmpty_eq_false_iff.1 (Bool.eq_false_iff.2 hprov)

omit [Scalar α] in
theorem closed_of_validate (h : g.validate = .ok ()) (ho : o ∈ g.operands id) : g.contains o := by
  obtain ⟨n, hn⟩ := node?_of_mem_operands ho
  obtain ⟨e, he, rfl⟩ := Option.map_eq_some_iff.1 hn
  rw [operands_of_node? hn] at ho
  have hfault := entryFault?_of_validate h he
  simp only [entryFault?] at hfault
  split_ifs at hfault
  cases hnode : e.node with
  | expression x =>
    rw [hnode] at ho hfault
    rw [Node.expression?, Option.bind_some, expressionFault?] at hfault
    split at hfault
    · cases hfault
    · rename_i hfind
      simpa using List.find?_eq_none.1 hfind o ho
  | _ =>
    rw [hnode] at ho
    cases ho

end Generation

end ParameterSolver
