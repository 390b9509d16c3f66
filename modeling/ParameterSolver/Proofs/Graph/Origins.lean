import ParameterSolver.Proofs.Graph.Cascade

/-! What the operations on a graph do to the origins of its nodes, and that nothing goes with a node
but what depends on it. -/

namespace ParameterSolver

variable {α : Type}

namespace Node

variable {n m : Node α} {l l' : List NodeId}

/-- The node with other operands; a leaf has none. -/
def withOperands (n : Node α) (l : List NodeId) : Node α :=
  match n with
  | expression e => expression { e with operands := l }
  | n => n

/-- The node without its operands. -/
def skeleton (n : Node α) : Node α := n.withOperands []

@[simp] theorem withOperands_withOperands : (n.withOperands l).withOperands l' = n.withOperands l' := by
  cases n <;> rfl

@[simp] theorem skeleton_withOperands : (n.withOperands l).skeleton = n.skeleton :=
  withOperands_withOperands

@[simp] theorem withOperands_operands : n.withOperands n.operands = n := by
  cases n <;> rfl

/-- Leaves have no operands to lose. -/
theorem operands_of_leaf (h : n.expression? = none) : n.operands = [] := by
  cases n with
  | expression e => cases h
  | _ => rfl

theorem skeleton_of_leaf (h : n.expression? = none) : n.skeleton = n := by
  cases n with
  | expression e => cases h
  | _ => rfl

theorem eq_of_skeleton_eq_leaf (h : n.skeleton = m.skeleton) (hm : m.expression? = none) : n = m := by
  cases n <;> cases m <;> first | exact h | cases h | cases hm

theorem expression_of_skeleton {e : Expression} (h : n.skeleton = (expression e).skeleton) :
    ∃ e', n = expression e' ∧ e'.op = e.op ∧ e'.asserted = e.asserted := by
  cases n with
  | expression e' =>
    simp only [skeleton, withOperands, expression.injEq, Expression.mk.injEq] at h
    exact ⟨e', rfl, h.1, h.2.2⟩
  | _ => cases h

end Node

@[simp] theorem Entry.provenance_addUser {e : Entry α} {user : NodeId} :
    (e.addUser user).provenance = e.provenance := by
  unfold addUser
  split <;> rfl

@[simp] theorem Entry.provenance_dropUser {e : Entry α} {user : NodeId} :
    (e.dropUser user).provenance = e.provenance := rfl

namespace Generation

variable {g g' : Generation α} {id j : NodeId} {n : Node α} {p : Provenance}

theorem exists_provenance? (h : g.contains id) : ∃ p, g.provenance? id = some p := by
  obtain ⟨e, he⟩ := NodeMap.contains_iff.1 h
  exact ⟨e.provenance, by rw [provenance?, get?, he]; rfl⟩

theorem contains_of_provenance? (h : g.provenance? id = some p) : g.contains id := by
  obtain ⟨e, he, -⟩ := Option.map_eq_some_iff.1 h
  exact NodeMap.contains_iff.2 ⟨e, he⟩

theorem provenance?_link (m : NodeMap (Entry α)) (user : NodeId) (l : List NodeId) (j : NodeId) :
    ((link m user l).get? j).map (·.provenance) = (m.get? j).map (·.provenance) := by
  rw [get?_link, Option.map_map]
  congr 1
  funext e
  simp only [Function.comp_apply]
  split_ifs <;> simp

theorem provenance?_unlink (m : NodeMap (Entry α)) (user : NodeId) (l : List NodeId) (j : NodeId) :
    ((unlink m user l).get? j).map (·.provenance) = (m.get? j).map (·.provenance) := by
  rw [get?_unlink, Option.map_map]
  congr 1
  funext e
  simp only [Function.comp_apply]
  split_ifs <;> simp

/-- A new node with its origins. -/
structure Entered (g : Generation α) (id : NodeId) (n : Node α) (p : Provenance)
    (g' : Generation α) : Prop extends g.Inserted id n g' where
  provenance? : ∀ j, g'.provenance? j = if j = id then some p else g.provenance? j
  origins : g'.origins = g.origins

theorem entered_of_insert (h : g.insert n p = .ok (id, g')) : g.Entered id n p g' := by
  refine ⟨inserted_of_insert h, fun j => ?_, ?_⟩ <;> unfold insert at h <;> split at h <;> cases h
  · rw [provenance?, get?, provenance?_link, NodeMap.get?_push]
    split_ifs <;> rfl
  · rfl

/-- Other content in a node, with its origins. -/
structure Rewritten (g : Generation α) (id : NodeId) (n : Node α) (p : Provenance)
    (g' : Generation α) : Prop extends g.Replaced id n g' where
  provenance? : ∀ j, g'.provenance? j = if j = id then some p else g.provenance? j
  origins : g'.origins = g.origins

theorem rewritten_of_replace (h : g.replace id n p = .ok g') : g.Rewritten id n p g' := by
  have hr := replaced_of_replace h
  refine ⟨hr, fun j => ?_, ?_⟩ <;> unfold replace at h <;> split_ifs at h <;> split at h <;> cases h
  · rw [provenance?, get?, provenance?_link, NodeMap.get?_modify]
    split_ifs with hj
    · subst hj
      obtain ⟨e, he⟩ := NodeMap.contains_iff.1 hr.contains
      rw [get?_unlink, he]
      rfl
    · exact provenance?_unlink _ _ _ _
  · rfl

theorem provenance?_remove (j : NodeId) : (g.remove id).2.provenance? j =
    if j ∈ (g.remove id).1 then none else g.provenance? j := by
  rw [provenance?, get?_remove, provenance?]
  cases g.get? j with
  | none => simp
  | some e =>
    rw [Option.bind_some]
    split_ifs <;> rfl

theorem provenance?_addProvenance (j : NodeId) : (g.addProvenance id p).provenance? j =
    if j = id then (g.provenance? j).map (·.union p) else g.provenance? j := by
  rw [provenance?, get?, addProvenance, NodeMap.get?_modify, provenance?, get?]
  split_ifs
  · rw [Option.map_map, Option.map_map]
    rfl
  · rfl

/-- What holds of a node and passes on to users holds of all that depends on it. -/
theorem dependents_subset {B : Set NodeId} (hB : ∀ x ∈ B, ∀ u ∈ g.users x, u ∈ B) {fuel : ℕ}
    {seen : List NodeId} (hseen : ∀ x ∈ seen, x ∈ B) (hid : id ∈ B) :
    ∀ x ∈ g.dependents fuel seen id, x ∈ B := by
  induction fuel generalizing seen id with
  | zero => exact hseen
  | succ fuel ih =>
    unfold dependents
    split_ifs
    · exact hseen
    · have hfold : ∀ (us s : List NodeId), (∀ u ∈ us, u ∈ B) → (∀ x ∈ s, x ∈ B) →
          ∀ x ∈ us.foldl (g.dependents fuel) s, x ∈ B := by
        intro us
        induction us with
        | nil => exact fun s _ hs => hs
        | cons u us ihus =>
          intro s hus hs
          exact ihus _ (fun x hx => hus x (.tail _ hx)) (ih hs (hus u (by simp)))
      exact hfold _ _ (hB id hid) (List.forall_mem_cons.2 ⟨hid, hseen⟩)

theorem remove_subset {B : Set NodeId} (hB : ∀ x ∈ B, ∀ u ∈ g.users x, u ∈ B) (hid : id ∈ B) :
    ∀ x ∈ (g.remove id).1, x ∈ B := dependents_subset hB (by simp) hid

end Generation

end ParameterSolver
