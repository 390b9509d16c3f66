import ParameterSolver.Graph.Describe
import ParameterSolver.Proofs.Graph.Order
import ParameterSolver.Proofs.Graph.Release

/-! A part of a graph that shares no expression with the rest of it. The order of a sweep lists the
nodes of the part as it does in the graph that has nothing else: searches that start outside of the
part never enter it, and the others never leave it. -/

namespace ParameterSolver

/-- Two runs stay related if their lists agree on the marked elements, and the steps for the others
do nothing to the relation. -/
theorem foldl_rel_of_filter {β σ τ : Type} {R : σ → τ → Prop} {f : σ → β → σ} {f' : τ → β → τ}
    {marked : β → Bool} {l l' : List β} (hl : l.filter marked = l'.filter marked)
    (hboth : ∀ x, marked x → ∀ s t, R s t → R (f s x) (f' t x))
    (hleft : ∀ x ∈ l, marked x = false → ∀ s t, R s t → R (f s x) t)
    (hright : ∀ x ∈ l', marked x = false → ∀ s t, R s t → R s (f' t x)) {s : σ} {t : τ}
    (h : R s t) : R (l.foldl f s) (l'.foldl f' t) := by
  induction l generalizing s l' t with
  | nil =>
    -- what is left of the other list is unmarked
    have hnone := List.filter_eq_nil_iff.1 hl.symm
    exact List.foldlRecOn l' (motive := fun t => R s t) f' h fun t ht x hx =>
      hright x hx (Bool.eq_false_iff.2 (hnone x hx)) s t ht
  | cons x l ih =>
    have hrest := fun y hy => hleft y (List.mem_cons_of_mem x hy)
    cases hx : marked x with
    | false =>
      rw [List.filter_cons_of_neg (by simp [hx])] at hl
      exact ih hl hrest hright (hleft x List.mem_cons_self hx s t h)
    | true =>
      rw [List.filter_cons_of_pos hx] at hl
      obtain ⟨before, after, rfl, hbefore, -, hafter⟩ := List.filter_eq_cons_iff.1 hl.symm
      rw [List.foldl_append, List.foldl_cons, List.foldl_cons]
      have hskip : R s (before.foldl f' t) :=
        List.foldlRecOn before (motive := fun t => R s t) f' h fun t ht y hy =>
          hright y (List.mem_append_left _ hy) (Bool.eq_false_iff.2 (hbefore y hy)) s t ht
      exact ih hafter.symm hrest (fun y hy => hright y (by simp [hy])) (hboth x hx _ _ hskip)

variable {α : Type}

namespace Generation

variable {g : Generation α} {part : NodeId → Bool} {id o : NodeId}

/-- No expression of the part uses a node outside of it, and none outside uses a node of it. -/
def Separates (g : Generation α) (part : NodeId → Bool) : Prop :=
  ∀ id, ∀ o ∈ g.operands id, part o = part id

/-- The rest is as separate as the part. -/
theorem Separates.compl (h : g.Separates part) : g.Separates fun id => !part id :=
  fun id o ho => congrArg not (h id o ho)

/-- The generation without the nodes outside of the part. -/
def only (g : Generation α) (part : NodeId → Bool) : Generation α :=
  { g with entries := g.entries.filterMap fun id e => if part id then some e else none }

theorem get?_only (g : Generation α) (part : NodeId → Bool) (id : NodeId) :
    (g.only part).get? id = if part id then g.get? id else none := by
  rw [get?, only, NodeMap.get?_filterMap, get?]
  split_ifs
  · exact Option.bind_fun_some _
  · exact Option.bind_fun_none _

theorem get?_only_of_mem (h : part id) : (g.only part).get? id = g.get? id := by
  rw [get?_only, if_pos h]

theorem node?_only_of_mem (h : part id) : (g.only part).node? id = g.node? id := by
  rw [node?, get?_only_of_mem h, node?]

theorem provenance?_only_of_mem (h : part id) : (g.only part).provenance? id = g.provenance? id := by
  rw [provenance?, get?_only_of_mem h, provenance?]

theorem expression?_only_of_mem (h : part id) : (g.only part).expression? id = g.expression? id := by
  rw [expression?, node?_only_of_mem h, expression?]

theorem operands_only_of_mem (h : part id) : (g.only part).operands id = g.operands id := by
  rw [operands, get?_only_of_mem h, operands]

theorem contains_only (g : Generation α) (part : NodeId → Bool) (id : NodeId) :
    (g.only part).contains id = (part id && g.contains id) := by
  have hget := get?_only g part id
  rw [get?, get?] at hget
  rw [contains, NodeMap.contains, hget, contains, NodeMap.contains]
  cases part id <;> rfl

theorem contains_only_iff : (g.only part).contains id ↔ part id ∧ g.contains id := by
  rw [contains_only, Bool.and_eq_true]

theorem contains_only_eq_false (hp : part id) (h : (g.only part).contains id = false) :
    g.contains id = false := by
  rwa [contains_only, hp, Bool.true_and] at h

theorem operands_only_of_not_mem (h : part id = false) : (g.only part).operands id = [] := by
  rw [operands, get?_only, h]
  rfl

theorem operands_of_not_contains (h : g.contains id = false) : g.operands id = [] := by
  refine List.eq_nil_iff_forall_not_mem.2 fun o ho => ?_
  obtain ⟨n, hn⟩ := node?_of_mem_operands ho
  rw [contains_of_node? hn] at h
  cases h

theorem expression?_of_not_contains (h : g.contains id = false) : g.expression? id = none := by
  refine Option.eq_none_iff_forall_ne_some.2 fun e he => ?_
  rw [contains_of_node? (expression?_eq.1 he)] at h
  cases h

/-- Only a node of the graph has operands. -/
theorem mem_operands_only (ho : o ∈ (g.only part).operands id) : part id ∧ o ∈ g.operands id := by
  cases hp : part id with
  | false =>
    rw [operands_only_of_not_mem hp] at ho
    cases ho
  | true =>
    rw [operands_only_of_mem hp] at ho
    exact ⟨rfl, ho⟩

theorem Acyclic.only (h : g.Acyclic) (part : NodeId → Bool) : (g.only part).Acyclic :=
  fun id hid => h id (Relation.TransGen.mono (fun _ _ ho => (mem_operands_only ho).2) _ _ hid)

theorem order_only (g : Generation α) (part : NodeId → Bool) :
    (g.only part).order = g.order.filter part := by
  have hcontains : (g.only part).entries.contains = fun id => part id && g.entries.contains id :=
    funext fun id => contains_only g part id
  have hsize : (g.only part).entries.cells.size = g.entries.cells.size := by
    simp [Generation.only, NodeMap.filterMap]
  rw [order, NodeMap.keys, hcontains, hsize, order, NodeMap.keys, List.filter_filter]

theorem toList_only (g : Generation α) (part : NodeId → Bool) :
    (g.only part).toList = g.toList.filter fun x => part x.1 := by
  have hkeys : (g.only part).entries.keys = g.entries.keys.filter part := order_only g part
  rw [toList, NodeMap.toList, hkeys, List.filterMap_filter, toList, NodeMap.toList,
    List.filter_filterMap]
  refine List.filterMap_congr fun id _ => ?_
  have hget := get?_only g part id
  rw [get?, get?] at hget
  rw [hget]
  cases hp : part id <;> cases g.entries.get? id <;> simp [Option.filter, hp]

/-! The search. -/

theorem part_of_uses (hA : g.Separates part) (h : Relation.TransGen g.Uses id o) :
    part o = part id := by
  induction h with
  | single ho => exact hA id _ ho
  | tail _ ho ih => exact (hA _ _ ho).trans ih

/-- A search from outside of the part finds nothing in it. -/
theorem filter_visit_of_outside (hA : g.Separates part) {fuel : ℕ} {done : List NodeId}
    (hid : (g.only part).contains id = false) :
    (g.visit fuel done id).filter (g.only part).contains = done.filter (g.only part).contains := by
  induction fuel generalizing done id with
  | zero => rfl
  | succ fuel ih =>
    have hoperand (o : NodeId) (ho : o ∈ g.operands id) : (g.only part).contains o = false := by
      obtain ⟨n, hn⟩ := node?_of_mem_operands ho
      rw [contains_only, contains_of_node? hn, Bool.and_true] at hid
      rw [contains_only, hA id o ho, hid, Bool.false_and]
    have hall : ((g.operands id).foldl (g.visit fuel) done).filter (g.only part).contains =
        done.filter (g.only part).contains :=
      List.foldlRecOn (g.operands id)
        (motive := fun found => found.filter (g.only part).contains =
          done.filter (g.only part).contains) (g.visit fuel) rfl
        fun _ hfound o ho => (ih (hoperand o ho)).trans hfound
    unfold visit
    split_ifs
    · rfl
    · rw [List.filter_cons_of_neg (by simp [hid]), hall]

/-- A search from a node of the part finds in it what it finds without the rest. -/
theorem filter_visit (hA : g.Separates part) {height height' : NodeId → ℕ} (hh : g.Heights height)
    (hh' : (g.only part).Heights height') {fuel fuel' : ℕ} {done done' : List NodeId}
    (hid : (g.only part).contains id) (hfuel : height id ≤ fuel) (hfuel' : height' id ≤ fuel')
    (h : done.filter (g.only part).contains = done'.filter (g.only part).contains) :
    (g.visit fuel done id).filter (g.only part).contains =
      ((g.only part).visit fuel' done' id).filter (g.only part).contains := by
  obtain ⟨hp, hc⟩ := contains_only_iff.1 hid
  induction fuel generalizing id fuel' done done' with
  | zero => exact absurd (hh.pos id hc) (by omega)
  | succ fuel ih =>
    obtain _ | fuel' := fuel'
    · exact absurd (hh'.pos id hid) (by omega)
    have hmem : id ∈ done ↔ id ∈ done' := by
      rw [← and_iff_left (a := id ∈ done) hid, ← List.mem_filter, h, List.mem_filter,
        and_iff_left hid]
    -- the operands in turn: those that are no nodes are found by neither search
    have hall : ((g.operands id).foldl (g.visit fuel) done).filter (g.only part).contains =
        (((g.only part).operands id).foldl ((g.only part).visit fuel') done').filter
          (g.only part).contains := by
      rw [operands_only_of_mem hp]
      refine List.foldl_rel (r := fun done done' : List NodeId =>
        done.filter (g.only part).contains = done'.filter (g.only part).contains) h
        fun o ho done done' hdone => ?_
      have hheight := hh.operand id o ho
      have hheight' := hh'.operand id o (by rwa [operands_only_of_mem hp])
      cases hco : (g.only part).contains o with
      | true =>
        obtain ⟨hpo, hgo⟩ := contains_only_iff.1 hco
        exact ih hco (by omega) (by omega) hdone hpo hgo
      | false =>
        have hsearch' : ((g.only part).visit fuel' done' o).filter (g.only part).contains =
            done'.filter (g.only part).contains := by
          have hnone := operands_of_not_contains hco
          cases fuel' with
          | zero => rfl
          | succ fuel' =>
            unfold visit
            split_ifs
            · rfl
            · rw [hnone, List.foldl_nil, List.filter_cons_of_neg (by simp [hco])]
        rw [filter_visit_of_outside hA hco, hsearch', hdone]
    unfold visit
    by_cases hdone : id ∈ done
    · rw [if_pos hdone, if_pos (hmem.1 hdone), h]
    · rw [if_neg hdone, if_neg (hmem.not.1 hdone), List.filter_cons_of_pos hid,
        List.filter_cons_of_pos hid, hall]

/-- The order of a sweep lists the nodes of the part as it does without the rest. -/
theorem filter_topologicalOrder (hg : g.Acyclic) (hA : g.Separates part) :
    g.topologicalOrder.filter (g.only part).contains =
      (g.only part).topologicalOrder.filter (g.only part).contains := by
  obtain ⟨height, hh⟩ := hg.exists_heights
  obtain ⟨height', hh'⟩ := (hg.only part).exists_heights
  have hinside : ∀ id ∈ (g.only part).order, (g.only part).contains id :=
    fun id hid => NodeMap.mem_keys.1 hid
  have horder : g.order.filter (g.only part).contains =
      (g.only part).order.filter (g.only part).contains := by
    rw [order_only, List.filter_filter]
    refine List.filter_congr fun id _ => ?_
    rw [contains_only]
    cases part id <;> simp
  rw [topologicalOrder, topologicalOrder, List.filter_reverse, List.filter_reverse, List.reverse_inj]
  refine foldl_rel_of_filter (R := fun done done' : List NodeId => done.filter (g.only part).contains =
    done'.filter (g.only part).contains) horder ?_ ?_ ?_ rfl
  · intro id hid done done' h
    exact filter_visit hA hh hh' hid (hh.le_size id) (hh'.le_size id) h
  · intro id _ hid done done' h
    rw [filter_visit_of_outside hA hid, h]
  · intro id hmem hid
    rw [hinside id hmem] at hid
    cases hid

end Generation

end ParameterSolver
