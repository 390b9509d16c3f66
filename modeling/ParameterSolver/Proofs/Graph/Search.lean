import Mathlib.Data.List.Nodup
import ParameterSolver.Proofs.Graph.Listing
import ParameterSolver.Proofs.Graph.Order
import ParameterSolver.Scalar.Machine

/-! The order of a sweep as a loop with a stack of its own. A node may stand on the stack several times
before it is finished, and what stands above its second entry are the operands that were not finished
when it was first taken. Round by round the loop does what the recursion over operands does, so it comes
to an end, with every node listed once and after its operands. -/

namespace ParameterSolver.Generation

variable {α : Type} {g : Generation α} {id o j : NodeId} {done l : List NodeId} {fuel : ℕ}

/-- The state of the loop: the nodes to start from, the stack with its top first, where a node stands a
second time below its operands, and the finished nodes, latest first. -/
structure Search where
  roots : List NodeId
  stack : List (NodeId × Bool)
  done : List NodeId
deriving DecidableEq

namespace Search

/-- One round of the loop, as long as there is something to do. A node that the graph does not have
stops it. -/
def step? (g : Generation α) : Search → Option Search
  | ⟨[], [], _⟩ => none
  | ⟨root :: roots, [], done⟩ =>
    some (if root ∈ done then ⟨roots, [], done⟩ else ⟨roots, [(root, false)], done⟩)
  | ⟨roots, (id, true) :: stack, done⟩ =>
    some ⟨roots, stack, if id ∈ done then done else id :: done⟩
  | ⟨roots, (id, false) :: stack, done⟩ =>
    if id ∈ done then some ⟨roots, stack, done⟩
    else (g.get? id).map fun e =>
      ⟨roots, (e.node.operands.filter (· ∉ done)).map (·, false) ++ (id, true) :: stack, done⟩

/-- The state after a number of rounds. -/
def after? (g : Generation α) : ℕ → Search → Option Search
  | 0, s => some s
  | n + 1, s => (s.step? g).bind (after? g n)

/-- The state before the first round. -/
def start (g : Generation α) : Search := ⟨g.order, [], []⟩

/-- The loop gets from one state to another. -/
def Leads (g : Generation α) (s s' : Search) : Prop := ∃ n, s.after? g n = some s'

variable {s s' s'' : Search}

theorem Leads.refl (s : Search) : Leads g s s := ⟨0, rfl⟩

theorem Leads.head (h : s.step? g = some s') (h' : Leads g s' s'') : Leads g s s'' := by
  obtain ⟨n, hn⟩ := h'
  exact ⟨n + 1, by rw [after?, h]; exact hn⟩

theorem Leads.trans (h : Leads g s s') (h' : Leads g s' s'') : Leads g s s'' := by
  obtain ⟨n, hn⟩ := h
  induction n generalizing s with
  | zero => cases hn; exact h'
  | succ n ih =>
    obtain ⟨t, ht, hn⟩ := Option.bind_eq_some_iff.1 hn
    exact .head ht (ih hn)

end Search

/-- A search goes on from `done` to a list with further nodes that those in `ids` are made of, and lists
none of them twice. -/
structure Collects (g : Generation α) (done ids all : List NodeId) : Prop where
  subset : done ⊆ all
  mem : ∀ j ∈ all, j ∈ done ∨ ∃ id ∈ ids, Relation.ReflTransGen g.Uses id j
  nodup : done.Nodup → all.Nodup

theorem Collects.refl (ids : List NodeId) : g.Collects done ids done :=
  ⟨List.Subset.refl _, fun _ => .inl, id⟩

theorem collects_foldl {f : List NodeId → NodeId → List NodeId} (ids : List NodeId)
    (hf : ∀ id ∈ ids, ∀ done, g.Collects done [id] (f done id)) :
    g.Collects done ids (ids.foldl f done) := by
  induction ids generalizing done with
  | nil => exact .refl []
  | cons id ids ih =>
    have hfirst := hf id List.mem_cons_self done
    have hrest : g.Collects (f done id) ids (ids.foldl f (f done id)) :=
      ih fun j hj => hf j (.tail _ hj)
    refine ⟨List.Subset.trans hfirst.subset hrest.subset, fun j hj => ?_, hrest.nodup ∘ hfirst.nodup⟩
    rcases hrest.mem j hj with hj | ⟨k, hk, hpath⟩
    · rcases hfirst.mem j hj with hj | ⟨k, hk, hpath⟩
      · exact .inl hj
      · exact .inr ⟨k, List.mem_singleton.1 hk ▸ List.mem_cons_self, hpath⟩
    · exact .inr ⟨k, .tail _ hk, hpath⟩

/-- A search for the operands of a node does not come across the node. -/
theorem Collects.notMem (hg : g.Acyclic) (h : g.Collects done (g.operands id) l) (hid : id ∉ done) :
    id ∉ l := fun hmem => by
  rcases h.mem id hmem with hmem | ⟨o, ho, hpath⟩
  · exact hid hmem
  · exact hg id (.head' ho hpath)

theorem Acyclic.collects_visit (hg : g.Acyclic) : g.Collects done [id] (g.visit fuel done id) := by
  induction fuel generalizing done id with
  | zero => exact .refl _
  | succ fuel ih =>
    unfold visit
    split_ifs with hid
    · exact .refl _
    · have hall : g.Collects done (g.operands id) _ := collects_foldl _ fun o _ _ => ih
      refine ⟨List.subset_cons_of_subset _ hall.subset, fun j hj => ?_, fun hdone =>
        List.nodup_cons.2 ⟨hall.notMem hg hid, hall.nodup hdone⟩⟩
      rcases List.mem_cons.1 hj with rfl | hj
      · exact .inr ⟨j, List.mem_singleton_self j, .refl⟩
      · rcases hall.mem j hj with hj | ⟨o, ho, hpath⟩
        · exact .inl hj
        · exact .inr ⟨id, List.mem_singleton_self id, .head ho hpath⟩

theorem visit_of_mem (h : id ∈ done) : g.visit fuel done id = done := by
  cases fuel with
  | zero => rfl
  | succ fuel => rw [visit, if_pos h]

namespace Search

variable {roots : List NodeId} {stack : List (NodeId × Bool)}

/-- Nodes on top of the stack are visited one after the other. Those that were finished before they were
put there are not among them, and a visit would not change anything. -/
theorem leads_foldl (hg : g.Acyclic) {ids before : List NodeId}
    (hvisit : ∀ id ∈ ids, ∀ stack done,
      Leads g ⟨roots, (id, false) :: stack, done⟩ ⟨roots, stack, g.visit fuel done id⟩)
    (hbefore : before ⊆ done) :
    Leads g ⟨roots, (ids.filter (· ∉ before)).map (·, false) ++ stack, done⟩
      ⟨roots, stack, ids.foldl (g.visit fuel) done⟩ := by
  induction ids generalizing done with
  | nil => exact .refl _
  | cons id ids ih =>
    have hsub : done ⊆ g.visit fuel done id := hg.collects_visit.subset
    have hrest := ih (fun j hj => hvisit j (.tail _ hj)) (List.Subset.trans hbefore hsub)
    by_cases hid : id ∈ before
    · rw [List.filter_cons_of_neg (by simpa using hid), List.foldl_cons,
        visit_of_mem (hbefore hid)]
      rwa [visit_of_mem (hbefore hid)] at hrest
    · rw [List.filter_cons_of_pos (by simpa using hid), List.foldl_cons]
      exact (hvisit id List.mem_cons_self _ done).trans hrest

/-- A node on top of the stack is visited, by induction on the depth of what it is made of. -/
theorem leads_visit (hg : g.Acyclic) {height : NodeId → ℕ} (hh : g.Heights height)
    (hlinked : ∀ id, ∀ o ∈ g.operands id, g.contains o) (hid : g.contains id)
    (hfuel : height id ≤ fuel) :
    Leads g ⟨roots, (id, false) :: stack, done⟩ ⟨roots, stack, g.visit fuel done id⟩ := by
  induction fuel generalizing done id stack with
  | zero => exact absurd (hh.pos id hid) (by omega)
  | succ fuel ih =>
    obtain ⟨e, he⟩ := Option.isSome_iff_exists.1 hid
    have hops : g.operands id = e.node.operands := by
      unfold operands get?
      rw [he]
    unfold visit
    split_ifs with hdone
    · exact .head (by rw [step?, if_pos hdone]) (.refl _)
    · have hpush : step? g ⟨roots, (id, false) :: stack, done⟩ = some ⟨roots,
          ((g.operands id).filter (· ∉ done)).map (·, false) ++ (id, true) :: stack, done⟩ := by
        rw [step?, if_neg hdone, hops, get?, he]
        rfl
      have hoperand : ∀ o ∈ g.operands id, height o ≤ fuel := fun o ho => by
        have := hh.operand id o ho
        omega
      have hcollect : g.Collects done (g.operands id) ((g.operands id).foldl (g.visit fuel) done) :=
        collects_foldl _ fun o _ _ => hg.collects_visit
      have hoperands : Leads g
          ⟨roots, ((g.operands id).filter (· ∉ done)).map (·, false) ++ (id, true) :: stack, done⟩
          ⟨roots, (id, true) :: stack, (g.operands id).foldl (g.visit fuel) done⟩ :=
        leads_foldl hg (fun o ho _ _ => ih (hlinked id o ho) (hoperand o ho)) (List.Subset.refl _)
      have hfinish : step? g ⟨roots, (id, true) :: stack, (g.operands id).foldl (g.visit fuel) done⟩ =
          some ⟨roots, stack, id :: (g.operands id).foldl (g.visit fuel) done⟩ := by
        rw [step?, if_neg (hcollect.notMem hg hdone)]
      exact .head hpush (hoperands.trans (.head hfinish (.refl _)))

theorem leads_roots (hg : g.Acyclic) (hlinked : ∀ id, ∀ o ∈ g.operands id, g.contains o)
    (hroots : ∀ id ∈ roots, g.contains id) :
    Leads g ⟨roots, [], done⟩ ⟨[], [], roots.foldl (g.visit g.size) done⟩ := by
  obtain ⟨height, hh⟩ := hg.exists_heights
  induction roots generalizing done with
  | nil => exact .refl _
  | cons root roots ih =>
    have hrest : Leads g ⟨roots, [], g.visit g.size done root⟩
        ⟨[], [], (root :: roots).foldl (g.visit g.size) done⟩ := ih fun j hj => hroots j (.tail _ hj)
    by_cases hdone : root ∈ done
    · have hskip : step? g ⟨root :: roots, [], done⟩ = some ⟨roots, [], done⟩ := by
        rw [step?, if_pos hdone]
      rw [visit_of_mem hdone] at hrest
      exact .head hskip hrest
    · have hpush : step? g ⟨root :: roots, [], done⟩ = some ⟨roots, [(root, false)], done⟩ := by
        rw [step?, if_neg hdone]
      have hvisit : Leads g ⟨roots, [(root, false)], done⟩ ⟨roots, [], g.visit g.size done root⟩ :=
        leads_visit hg hh hlinked (hroots root List.mem_cons_self) (hh.le_size root)
      exact .head hpush (hvisit.trans hrest)

end Search

/-- In a graph without cycles, whose operands are all there, the loop with the stack ends with the order
of a sweep. It has every node once, and the operands of a node before it. -/
theorem Acyclic.search_ends (hg : g.Acyclic) (hlinked : ∀ id, ∀ o ∈ g.operands id, g.contains o) :
    (∃ n, (Search.start g).after? g n = some ⟨[], [], g.topologicalOrder.reverse⟩) ∧
    g.topologicalOrder.Nodup ∧
    (∀ id, id ∈ g.topologicalOrder ↔ g.contains id) ∧
    ∀ l id l', g.topologicalOrder = l ++ id :: l' → ∀ o ∈ g.operands id, o ∈ l := by
  have hcollect : g.Collects [] g.order (g.order.foldl (g.visit g.size) []) :=
    collects_foldl _ fun _ _ _ => hg.collects_visit
  have hcontains : ∀ {id j}, Relation.ReflTransGen g.Uses id j → g.contains id → g.contains j := by
    intro id j hpath hid
    induction hpath with
    | refl => exact hid
    | tail _ hj _ => exact hlinked _ _ hj
  refine ⟨?_, List.nodup_reverse.2 (hcollect.nodup .nil), fun id => ⟨fun hid => ?_, hg.mem_topologicalOrder⟩,
    fun l id l' heq o ho => ?_⟩
  · rw [topologicalOrder, List.reverse_reverse]
    exact Search.leads_roots hg hlinked fun id hid => NodeMap.mem_keys.1 hid
  · obtain hnil | ⟨root, hroot, hpath⟩ := hcollect.mem id (List.mem_reverse.1 hid)
    · cases hnil
    · exact hcontains hpath (NodeMap.mem_keys.1 hroot)
  · have hordered := hg.ordered
    rw [heq, List.reverse_append, List.reverse_cons, List.append_assoc] at hordered
    exact List.mem_reverse.1 (hordered.mem_of_append o ho (hlinked id o ho))

/-- A sum `a + |a| + a` that entered before its operands, which it shares and repeats. -/
def tangled : Generation Float where
  index := 0
  origins := .empty
  entries := ⟨#[some ⟨.expression ⟨.add, [.nth 2, .nth 1, .nth 2], false⟩, .empty, []⟩,
    some ⟨.expression ⟨.abs, [.nth 2], false⟩, .empty, [.nth 0]⟩,
    some ⟨.parameter .real, .empty, [.nth 0, .nth 1]⟩]⟩

theorem mem_operands_tangled (h : o ∈ tangled.operands id) :
    id.rank < o.rank ∧ tangled.contains o := by
  have hmem : id = .nth 0 ∧ o ∈ [NodeId.nth 2, .nth 1, .nth 2] ∨ id = .nth 1 ∧ o ∈ [NodeId.nth 2] := by
    match id, h with
    | .nth 0, h => exact .inl ⟨rfl, h⟩
    | .nth 1, h => exact .inr ⟨rfl, h⟩
    | .nth 2, h => cases h
    | .nth (_ + 3), h => cases h
  simp only [List.mem_cons, List.not_mem_nil, or_false] at hmem
  rcases hmem with ⟨rfl, rfl | rfl | rfl⟩ | ⟨rfl, rfl⟩ <;> decide

theorem search_ends_tangled :
    (∃ n, (Search.start tangled).after? tangled n = some ⟨[], [], tangled.topologicalOrder.reverse⟩) ∧
    tangled.topologicalOrder.Nodup ∧ NodeId.nth 0 ∈ tangled.topologicalOrder :=
  have hacyclic : tangled.Acyclic := acyclic_of_rank (fun id => OrderDual.toDual id.rank) fun _ _ h =>
    (mem_operands_tangled h).1
  have h := hacyclic.search_ends fun _ _ h => (mem_operands_tangled h).2
  ⟨h.1, h.2.1, (h.2.2.1 (.nth 0)).2 rfl⟩

example : (Search.start tangled).after? tangled 10 = some ⟨[], [], [.nth 0, .nth 1, .nth 2]⟩ := rfl

end ParameterSolver.Generation
