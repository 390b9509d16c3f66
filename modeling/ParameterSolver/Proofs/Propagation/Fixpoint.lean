import ParameterSolver.Proofs.Graph.Order
import ParameterSolver.Proofs.Propagation.Settling

/-! A sweep without news is the last that could bring any. Only restrictions raise the flag, so that
such a sweep has changed nothing but marks of exact sets; and those are set in the order of the sweep,
operands first, so that one sweep sets all that the next one would. -/

namespace ParameterSolver

namespace Knowledge

variable {α : Type} [Scalar α] {g : Generation α} {k k' : Knowledge α} {because : Provenance}
  {id n : NodeId} {e : Expression}

theorem restrict_eq_self {bound : ValueSet α} (h : k.refined? id bound = none) :
    restrict g because k id bound = k := by
  unfold restrict
  rw [h]

/-- A restriction without news leaves all as it was. -/
theorem refined?_of_quiet {bound : ValueSet α}
    (h : (restrict g because k id bound).changed = false) : k.refined? id bound = none := by
  unfold restrict at h
  split at h
  · assumption
  · dsimp only at h
    split_ifs at h

/-- Narrowing without news leaves all as it was. -/
theorem Narrows.eq_of_quiet {targets : NodeId → Prop} (h : Narrows g because targets k k')
    (hquiet : k'.changed = false) : k' = k := by
  induction h with
  | refl => rfl
  | narrow h hid bound ih =>
    unfold Knowledge.narrow at hquiet ⊢
    split_ifs at hquiet ⊢
    · exact ih hquiet
    · have hnone := refined?_of_quiet hquiet
      rw [restrict_eq_self hnone] at hquiet ⊢
      exact ih hquiet

theorem backward_eq_of_quiet (l : List NodeId)
    (hquiet : (l.foldl (backwardStep g) k).changed = false) : l.foldl (backwardStep g) k = k := by
  induction l generalizing k with
  | nil => rfl
  | cons id l ih =>
    have hrest := ih hquiet
    rw [List.foldl_cons] at hquiet ⊢
    rw [hrest] at hquiet ⊢
    exact (narrows_backwardStep k id).eq_of_quiet hquiet

theorem refined?_marked (bound : ValueSet α) :
    (k.marked id e).refined? n bound = k.refined? n bound := by
  unfold marked
  split_ifs <;> rfl

omit [Scalar α] in
theorem contains_marked (h : k.exact.contains n) : (k.marked id e).exact.contains n := by
  unfold marked
  split_ifs
  · by_cases hn : n = id
    · subst hn
      obtain ⟨⟨⟩, hx⟩ := NodeMap.contains_iff.1 h
      rwa [NodeMap.insert_eq_self hx]
    · rwa [NodeMap.contains, NodeMap.get?_insert_other hn]
  · exact h

omit [Scalar α] in
theorem contains_marked_of_ne (h : n ≠ id) :
    (k.marked id e).exact.contains n = k.exact.contains n := by
  unfold marked
  split_ifs
  · rw [NodeMap.contains, NodeMap.get?_insert_other h, NodeMap.contains]
  · rfl

section Operands

variable {x : Expression} (hid : id ∉ x.operands)

include hid

omit [Scalar α] in
theorem all_contains_marked :
    x.operands.all (k.marked id e).exact.contains = x.operands.all k.exact.contains := by
  rw [Bool.eq_iff_iff, List.all_eq_true, List.all_eq_true]
  refine forall₂_congr fun o ho => ?_
  rw [contains_marked_of_ne (ne_of_mem_of_not_mem ho hid)]

theorem forwardValue?_marked : (k.marked id e).forwardValue? x = k.forwardValue? x := by
  refine forwardValue?_congr (fun o _ => ?_) fun o ho =>
    contains_marked_of_ne (ne_of_mem_of_not_mem ho hid)
  unfold marked
  split_ifs <;> rfl

end Operands

/-- The forward step of the node would change nothing: its mark is set if its operands have theirs,
and what they leave for it is no news. -/
structure Idle (g : Generation α) (k : Knowledge α) (id : NodeId) : Prop where
  mark : ∀ e, g.expression? id = some e → Propagation.keepsExactness e.op →
    e.operands.all k.exact.contains → k.exact.contains id
  known : ∀ e v, g.expression? id = some e → k.forwardValue? e = some v → k.refined? id v = none

theorem Idle.marked_eq (h : Idle g k id) (he : g.expression? id = some e) : k.marked id e = k := by
  unfold Knowledge.marked
  split_ifs with hexact
  · obtain ⟨hkeeps, hall⟩ := Bool.and_eq_true_iff.1 hexact
    obtain ⟨⟨⟩, hx⟩ := NodeMap.contains_iff.1 (h.mark e he hkeeps hall)
    rw [NodeMap.insert_eq_self hx]
  · rfl

theorem Idle.forwardStep_eq (h : Idle g k id) : forwardStep g k id = k := by
  cases he : g.expression? id with
  | none => rw [forwardStep, he]
  | some e =>
    obtain ⟨because, hstep⟩ := exists_forwardStep_eq (k := k) he
    rw [hstep, h.marked_eq he]
    cases hv : k.forwardValue? e with
    | none => rfl
    | some v => exact restrict_eq_self (h.known e v he hv)

theorem Idle.forward_eq {l : List NodeId} (h : ∀ id ∈ l, Idle g k id) :
    l.foldl (forwardStep g) k = k := by
  induction l with
  | nil => rfl
  | cons id l ih =>
    obtain ⟨hid, hl⟩ := List.forall_mem_cons.1 h
    rw [List.foldl_cons, hid.forwardStep_eq]
    exact ih hl

/-- A mark is no news for a node that it is no operand of. -/
theorem Idle.marked (h : Idle g k n) (hid : id ∉ g.operands n) : Idle g (k.marked id e) n := by
  have hoperands (x : Expression) (hx : g.expression? n = some x) : id ∉ x.operands :=
    fun ho => hid (Generation.mem_operands_iff.2 ⟨x, hx, ho⟩)
  constructor
  · intro x hx hkeeps hall
    rw [all_contains_marked (hoperands x hx)] at hall
    exact contains_marked (h.mark x hx hkeeps hall)
  · intro x v hx hv
    rw [forwardValue?_marked (hoperands x hx)] at hv
    rw [refined?_marked]
    exact h.known x v hx hv

theorem forwardStep_of_quiet (he : g.expression? id = some e)
    (hquiet : (forwardStep g k id).changed = false) :
    forwardStep g k id = k.marked id e ∧
      ∀ v, k.forwardValue? e = some v → k.refined? id v = none := by
  obtain ⟨because, hstep⟩ := exists_forwardStep_eq (k := k) he
  rw [hstep] at hquiet ⊢
  cases hv : k.forwardValue? e with
  | none => exact ⟨rfl, fun u hu => absurd hu.symm (Option.some_ne_none u)⟩
  | some v =>
    rw [hv] at hquiet
    have hnone := refined?_of_quiet hquiet
    refine ⟨restrict_eq_self hnone, fun u hu => ?_⟩
    cases hu
    rwa [refined?_marked] at hnone

theorem idle_forwardStep (hacyclic : g.Acyclic)
    (hquiet : (forwardStep g k id).changed = false) : Idle g (forwardStep g k id) id := by
  cases he : g.expression? id with
  | none => exact ⟨fun e he' => (nomatch he.symm.trans he'), fun e v he' => (nomatch he.symm.trans he')⟩
  | some e =>
    have hnull := Generation.ne_null_of_contains
      (Generation.contains_of_node? (Generation.expression?_eq.1 he))
    have hid : id ∉ e.operands := fun ho =>
      hacyclic.not_mem_operands (Generation.mem_operands_iff.2 ⟨e, he, ho⟩)
    obtain ⟨hstep, hknown⟩ := forwardStep_of_quiet he hquiet
    rw [hstep]
    constructor
    · intro x hx hkeeps hall
      cases he.symm.trans hx
      rw [all_contains_marked hid] at hall
      rw [marked, if_pos (Bool.and_eq_true_iff.2 ⟨hkeeps, hall⟩)]
      exact (NodeMap.contains_insert hnull).2 (Or.inr rfl)
    · intro x v hx hv
      cases he.symm.trans hx
      rw [forwardValue?_marked hid] at hv
      rw [refined?_marked]
      exact hknown v hv

/-- Along an order in which operands come first, a pass without news leaves every node idle: no mark
is set on an operand of a node that has had its turn. -/
theorem idle_forward (hacyclic : g.Acyclic) {l : List NodeId} (hl : g.Ordered l)
    (hquiet : (l.reverse.foldl (forwardStep g) k).changed = false) :
    ∀ id ∈ l, Idle g (l.reverse.foldl (forwardStep g) k) id := by
  induction hl with
  | nil => exact fun id hid => absurd hid List.not_mem_nil
  | @cons id l hl hid ih =>
    rw [List.reverse_cons, List.foldl_append, List.foldl_cons, List.foldl_nil] at hquiet ⊢
    have hrest := ih (quiet_forwardStep _ id hquiet).1
    have hself := idle_forwardStep hacyclic hquiet
    intro n hn
    rcases List.mem_cons.1 hn with rfl | hn
    · exact hself
    by_cases hmem : id ∈ l
    · rw [(hrest id hmem).forwardStep_eq]
      exact hrest n hn
    cases he : g.expression? id with
    | none =>
      have hstep : ∀ k, forwardStep g k id = k := fun k => by rw [forwardStep, he]
      rw [hstep]
      exact hrest n hn
    | some e =>
      rw [(forwardStep_of_quiet he hquiet).1]
      have hc := Generation.contains_of_node? (Generation.expression?_eq.1 he)
      exact (hrest n hn).marked fun ho => hmem (hl.mem_operands hn ho hc)

/-- After a sweep without news further sweeps change nothing. -/
theorem sweep_eq_of_quiet (hacyclic : g.Acyclic)
    (hquiet : (sweep g g.topologicalOrder k).changed = false) :
    sweep g g.topologicalOrder (sweep g g.topologicalOrder k) = sweep g g.topologicalOrder k := by
  set forward := g.topologicalOrder.foldl (forwardStep g) { k with changed := false } with hforward
  have hback : sweep g g.topologicalOrder k = forward := by
    unfold sweep at hquiet ⊢
    dsimp only at hquiet ⊢
    rw [← hforward] at hquiet ⊢
    exact backward_eq_of_quiet _ hquiet
  rw [hback] at hquiet ⊢
  have hidle : ∀ id ∈ g.topologicalOrder, Idle g forward id := by
    have hall := idle_forward hacyclic hacyclic.ordered (k := { k with changed := false })
    rw [List.reverse_reverse, ← hforward] at hall
    exact fun id hid => hall hquiet id (List.mem_reverse.2 hid)
  have hclear : { forward with changed := false } = forward := by rw [← hquiet]
  have hagain : sweep g g.topologicalOrder forward =
      g.topologicalOrder.reverse.foldl (backwardStep g) forward := by
    unfold sweep
    dsimp only
    rw [hclear, Idle.forward_eq hidle]
  exact hagain.trans hback

end Knowledge

end ParameterSolver
