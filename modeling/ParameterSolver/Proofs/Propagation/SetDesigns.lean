import ParameterSolver.Proofs.Pass.Total
import ParameterSolver.Proofs.Propagation.Commensurable
import ParameterSolver.Proofs.Propagation.Contradictions
import ParameterSolver.Proofs.Propagation.SetOperators

/-! What a run knows of a graph of sets. The first sweep evaluates it from the bottom, and nothing more is
learnt, so that a contradiction is reported just if evaluation leaves a node without elements. -/

namespace ParameterSolver

open Propagation

variable {α : Type} [Scalar α] [Scalar.Ordered α] [Scalar.Reading α] {g : Generation α} {k : Family}
  {id : NodeId} {a : Set (Value ℝ)} {e : Expression}

/-- A node of a graph of sets: a literal of the family that is not empty, or an operator on sets that
nothing asserts. -/
def Node.Gathers (k : Family) (n : Node α) : Prop :=
  (∃ s u, n = .literal s u ∧ s.Canonical ∧ s.family = k ∧ s.isEmpty = false) ∨
    ∃ e, n = .expression e ∧ keepsExactness e.op ∧ e.asserted = false

/-- A graph of sets of one family. -/
def Generation.SetDesign (g : Generation α) (k : Family) : Prop :=
  ∀ id n, g.node? id = some n → n.Gathers k

namespace Generation.SetDesign

variable (h : g.SetDesign k)

include h

omit [Scalar.Ordered α] [Scalar.Reading α] in
theorem expression (hn : g.node? id = some (.expression e)) :
    keepsExactness e.op ∧ e.asserted = false := by
  rcases h id _ hn with ⟨s, u, heq, -⟩ | ⟨e', heq, hop⟩ <;> cases heq
  exact hop

omit [Scalar.Ordered α] [Scalar.Reading α] in
theorem literal {s : ValueSet α} {u : Option (MeasureUnit α)} (hn : g.node? id = some (.literal s u)) :
    s.Canonical ∧ s.family = k ∧ s.isEmpty = false := by
  rcases h id _ hn with ⟨s', u', heq, hs⟩ | ⟨e, heq, -⟩ <;> cases heq
  exact hs

omit [Scalar.Ordered α] in
/-- Every node means something. The induction is on the heights of the nodes. -/
theorem exists_means (hg : g.Sound) (hid : g.contains id) : ∃ a, g.Means .extents id a := by
  obtain ⟨height, hh⟩ := hg.acyclic.exists_heights
  induction hn : height id using Nat.strongRecOn generalizing id with
  | _ n ih =>
    subst hn
    obtain ⟨n, hn⟩ := Generation.contains_iff.1 hid
    rcases h id n hn with ⟨s, u, rfl, -⟩ | ⟨e, rfl, -⟩
    · exact ⟨_, .literal hn⟩
    · have hops : ∀ o ∈ e.operands, ∃ a, g.Means .extents o a := by
        intro o ho
        obtain ⟨hc, hlt⟩ := hg.below hh hn ho
        exact ih _ hlt hc rfl
      choose! f hf using hops
      have hall : List.Forall₂ (g.Means .extents) e.operands (e.operands.map f) := by
        rw [List.forall₂_map_right_iff, List.forall₂_same]
        exact hf
      exact ⟨_, .of_forall₂ hn hall⟩

end Generation.SetDesign

namespace Knowledge

variable {kn : Knowledge α}

/-- What is known of a node. -/
def estimate (kn : Knowledge α) (id : NodeId) : Estimate α := ⟨kn.value? id, kn.exact.contains id⟩

/-- All that is known is what evaluation from the bottom gives. -/
def Tells (g : Generation α) (k : Family) (kn : Knowledge α) : Prop :=
  ∀ id, (kn.value? id).isSome → ∃ a, g.Means .extents id a ∧ (kn.estimate id).Shows k a

omit [Scalar.Ordered α] in
theorem Tells.shows (h : kn.Tells g k) (hid : (kn.value? id).isSome) (ha : g.Means .extents id a) :
    (kn.estimate id).Shows k a := by
  obtain ⟨b, hb, hshows⟩ := h id hid
  rwa [ha.unique hb]

omit [Scalar.Ordered α] in
theorem Tells.update {kn' : Knowledge α} (h : kn.Tells g k) (ha : g.Means .extents id a)
    (hid : (kn'.value? id).isSome → (kn'.estimate id).Shows k a)
    (hoff : ∀ j ≠ id, kn'.estimate j = kn.estimate j) : kn'.Tells g k := by
  intro j hj
  by_cases heq : j = id
  · subst heq
    exact ⟨a, ha, hid hj⟩
  · have hvalue : kn'.value? j = kn.value? j := congrArg Estimate.value (hoff j heq)
    rw [hvalue] at hj
    rw [hoff j heq]
    exact h j hj

/-! The seed. -/

omit [Scalar.Ordered α] [Scalar.Reading α] in
theorem exact_seed (h : ∀ id n, g.node? id = some n → (initial? n).isSome → n.isGiven)
    (hid : ((seed g).value? id).isSome) : (seed g).exact.contains id := by
  let Inv (k : Knowledge α) : Prop := ∀ id, (k.value? id).isSome → k.exact.contains id
  have hall : Inv (seed g) := by
    have hstart : Inv ⟨.empty, .empty, .empty, [], false⟩ := by simp [Inv, value?]
    refine foldl_inv_of_mem (fun x hx k hk id hid => ?_) hstart
    obtain ⟨n, entry⟩ := x
    have hn : g.node? n = some entry.node := Generation.mem_nodes.1 (List.mem_map.2 ⟨_, hx, rfl⟩)
    have hnull := Generation.ne_null_of_contains (Generation.contains_of_node? hn)
    dsimp only [learnInitial] at hid ⊢
    cases hs : initial? entry.node with
    | none =>
      rw [hs] at hid
      exact hk id hid
    | some s =>
      rw [hs] at hid
      dsimp only at hid ⊢
      rw [if_pos (h n _ hn (hs ▸ rfl))]
      refine (NodeMap.contains_insert hnull).2 ?_
      rw [value?, NodeMap.get?_insert_of_ne hnull] at hid
      split_ifs at hid with heq
      · exact .inr heq
      · exact .inl (hk id hid)
  exact hall id hid

omit [Scalar.Ordered α] in
theorem tells_seed (hg : g.SetDesign k) : (seed g).Tells g k := by
  intro id hid
  obtain ⟨s, hs⟩ := Option.isSome_iff_exists.1 hid
  obtain ⟨n, hn, hinitial⟩ := initial?_of_seed hs
  rcases hg id n hn with ⟨s', u, rfl, hc, hfamily, -⟩ | ⟨e, rfl, -⟩
  · cases hinitial
    refine ⟨_, .literal hn, exact_seed (fun i m hm hsome => ?_) hid, s, hs, hc, hfamily, rfl⟩
    rcases hg i m hm with ⟨s', u, rfl, -⟩ | ⟨e, rfl, -⟩
    · rfl
    · cases hsome
  · cases hinitial

/-! The steps. -/

omit [Scalar.Ordered α] [Scalar.Reading α] in
theorem backwardStep_eq_self (hg : g.SetDesign k) : backwardStep g kn id = kn := by
  unfold backwardStep
  cases he : g.expression? id with
  | none => rfl
  | some e =>
    have hop := (hg.expression (Generation.expression?_eq.1 he)).1
    cases hvalue : kn.value? id with
    | none => rfl
    | some value =>
      dsimp only
      split_ifs
      · rfl
      · unfold narrowOperands
        revert hop
        cases e.op <;> intro hop <;> first | rfl | cases hop

omit [Scalar.Ordered α] [Scalar.Reading α] in
theorem foldl_backwardStep_eq_self (hg : g.SetDesign k) (l : List NodeId) :
    l.foldl (backwardStep g) kn = kn := by
  induction l with
  | nil => rfl
  | cons i l ih => rw [List.foldl_cons, backwardStep_eq_self hg, ih]

omit [Scalar.Ordered α] in
/-- What is known of an expression once it has its mark is still what evaluation gives. -/
theorem Tells.marked (h : kn.Tells g k) (hid : id ≠ .null) (ha : g.Means .extents id a)
    (hexact : (keepsExactness e.op && e.operands.all kn.exact.contains) = true) :
    (kn.marked id e).Tells g k ∧ (kn.marked id e).exact.contains id ∧
      (kn.marked id e).value? id = kn.value? id := by
  rw [Knowledge.marked, if_pos hexact]
  have hcontains : (kn.exact.insert id ()).contains id := (NodeMap.contains_insert hid).2 (.inr rfl)
  refine ⟨h.update ha (fun hvalue => ⟨hcontains, ?_⟩) fun j hj => ?_, hcontains, rfl⟩
  · exact (h.shows hvalue ha).value
  · have hsame : (kn.exact.insert id ()).contains j = kn.exact.contains j := by
      rw [Bool.eq_iff_iff, NodeMap.contains_insert hid, or_iff_left hj]
    simp only [estimate, hsame]
    rfl

theorem Tells.restrict {s : ValueSet α} {because : Provenance} (h : kn.Tells g k) (hid : id ≠ .null)
    (ha : g.Means .extents id a) (hexact : kn.exact.contains id) (hs : s.Canonical)
    (hfamily : s.family = k) (hpoints : s.points = a) :
    (restrict g because kn id s).Tells g k ∧ ((restrict g because kn id s).value? id).isSome := by
  obtain ⟨hr, current, hcurrent, -⟩ | ⟨next, emptied, hr, hnext, -⟩ := restrict_cases g because kn id s
  · rw [hr, hcurrent]
    exact ⟨h, rfl⟩
  rw [hr]
  have hvalue : (kn.values.insert id next).get? id = some next := by
    rw [NodeMap.get?_insert_self hid]
  refine ⟨h.update ha (fun _ => ⟨hexact, next, hvalue, ?_⟩) fun j hj => ?_, by rw [value?, hvalue]; rfl⟩
  · obtain ⟨-, rfl⟩ | ⟨current, hcurrent, hinter⟩ := hnext
    · exact ⟨hs, hfamily, hpoints⟩
    · have hknown : (kn.value? id).isSome := hcurrent ▸ rfl
      obtain ⟨c, hc, hcc, hcf, hcp⟩ := (h.shows hknown ha).value
      cases hcurrent.symm.trans hc
      have hmeet : ValueSet.Results .intersection current s (current.inter s) :=
        ValueSet.results_operation rfl hcc hs (hcf.trans hfamily.symm)
      obtain ⟨u, hu, huc, huf, hup⟩ := hmeet
      cases hinter.symm.trans hu
      refine ⟨huc, huf.trans hcf, hup.trans ?_⟩
      rw [hcp, hpoints]
      exact Set.inter_self a
  · simp only [estimate, value?, NodeMap.get?_insert_of_ne hid, if_neg hj]

theorem Tells.forwardStep (hg : g.SetDesign k) (h : kn.Tells g k)
    (hn : g.node? id = some (.expression e)) (hne : e.operands ≠ [])
    (hops : ∀ o ∈ e.operands, (kn.value? o).isSome) :
    (forwardStep g kn id).Tells g k ∧ ((forwardStep g kn id).value? id).isSome := by
  obtain ⟨hop, hasserted⟩ := hg.expression hn
  have hid := Generation.ne_null_of_contains (Generation.contains_of_node? hn)
  choose! f hmeans hshows using fun o ho => h o (hops o ho)
  have hall : g.Means .extents id (e.op.onFed (e.operands.map f)) := by
    refine .of_forall₂ hn ?_
    rw [List.forall₂_map_right_iff, List.forall₂_same]
    exact hmeans
  have hcombine : (Estimate.combine e.op (e.operands.map kn.estimate)).Shows k
      (e.op.onFed (e.operands.map f)) := by
    refine .combine hop (mt List.map_eq_nil_iff.1 hne) ?_
    rw [List.forall₂_map_left_iff, List.forall₂_map_right_iff, List.forall₂_same]
    exact hshows
  have hexact : (keepsExactness e.op && e.operands.all kn.exact.contains) = true := by
    rw [hop, Bool.true_and, List.all_eq_true]
    exact fun o ho => (hshows o ho).exact
  obtain ⟨s, hs, hc, hfamily, hpoints⟩ := hcombine.value
  have hvalue : kn.forwardValue? e = some s := by
    unfold forwardValue?
    rw [hasserted, ← hs]
    simp only [Estimate.combine, List.map_map]
    rfl
  obtain ⟨because, hstep⟩ := exists_forwardStep_eq (k := kn) (Generation.expression?_eq.2 hn)
  obtain ⟨htells, hmark, -⟩ := h.marked hid hall hexact
  rw [hstep, hvalue]
  exact htells.restrict hid hall hmark hc hfamily hpoints

/-- A step forward gets to know the node, if the nodes below it are known. -/
theorem Tells.step (hsound : g.Sound) (hg : g.SetDesign k) (h : kn.Tells g k)
    (hseed : (seed g).Learns g kn) (hops : ∀ o ∈ g.operands id, g.contains o → (kn.value? o).isSome) :
    (Knowledge.forwardStep g kn id).Tells g k ∧
      (g.contains id → ((Knowledge.forwardStep g kn id).value? id).isSome) := by
  cases he : g.expression? id with
  | none =>
    have hsame : Knowledge.forwardStep g kn id = kn := by
      rw [Knowledge.forwardStep, he]
    rw [hsame]
    refine ⟨h, fun hid => ?_⟩
    obtain ⟨n, hn⟩ := Generation.contains_iff.1 hid
    rcases hg id n hn with ⟨s, u, rfl, -⟩ | ⟨e, rfl, -⟩
    · refine isSome_of_learns hseed ?_
      rw [seed_of_initial? hn rfl]
      rfl
    · cases he.symm.trans (Generation.expression?_eq.2 hn)
  | some e =>
    have hn := Generation.expression?_eq.1 he
    have hne : e.operands ≠ [] := by
      intro hnil
      have harity := (hsound.node hn).arity e rfl
      have hop := (hg.expression hn).1
      rw [hnil] at harity
      revert hop harity
      cases e.op <;> decide
    rw [Generation.operands_of_node? hn] at hops
    obtain ⟨hstep, hvalue⟩ := h.forwardStep hg hn hne fun o ho => hops o ho (hsound.contains hn ho)
    exact ⟨hstep, fun _ => hvalue⟩

/-- A run forward gets to know all nodes. The induction is on the order, in which every node comes after
its operands. -/
theorem Tells.forward {l : List NodeId} (hsound : g.Sound) (hg : g.SetDesign k) (h : kn.Tells g k)
    (hseed : (seed g).Learns g kn) (hl : g.Ordered l) :
    (l.reverse.foldl (Knowledge.forwardStep g) kn).Tells g k ∧
      ∀ id ∈ l, g.contains id → ((l.reverse.foldl (Knowledge.forwardStep g) kn).value? id).isSome := by
  induction hl with
  | nil => exact ⟨h, by simp⟩
  | @cons id l _ hfirst ih =>
    obtain ⟨htells, hknown⟩ := ih
    rw [List.reverse_cons, List.foldl_append, List.foldl_cons, List.foldl_nil]
    obtain ⟨hstep, hvalue⟩ := htells.step hsound hg (hseed.trans (Learns.foldl learns_forwardStep _ _))
      fun o ho hc => hknown o (hfirst o ho hc) hc
    refine ⟨hstep, fun n hn hc => ?_⟩
    rcases List.mem_cons.1 hn with rfl | hn
    · exact hvalue hc
    · exact isSome_of_learns (learns_forwardStep _ id) (hknown n hn hc)

theorem Tells.sweep (hsound : g.Sound) (hg : g.SetDesign k) (h : kn.Tells g k)
    (hseed : (seed g).Learns g kn) :
    (kn.sweep g g.topologicalOrder).Tells g k ∧
      ∀ id, g.contains id → ((kn.sweep g g.topologicalOrder).value? id).isSome := by
  have hclear : ({ kn with changed := false } : Knowledge α).Tells g k := h
  obtain ⟨htells, hknown⟩ := hclear.forward hsound hg hseed.clear hsound.acyclic.ordered
  rw [List.reverse_reverse] at htells hknown
  unfold Knowledge.sweep
  dsimp only
  rw [foldl_backwardStep_eq_self hg]
  exact ⟨htells, fun id hid => hknown id (List.mem_reverse.2 (hsound.acyclic.mem_topologicalOrder hid)) hid⟩

end Knowledge

namespace Propagation

/-- Whatever the budget, a run knows what evaluation gives, and with one sweep of all nodes. -/
theorem tells_run (hsound : g.Sound) (hg : g.SetDesign k) (budget : ℕ) :
    (run g budget).knowledge.Tells g k ∧
      (0 < budget → ∀ id, g.contains id → ((run g budget).knowledge.value? id).isSome) := by
  let Inv (kn : Knowledge α) : Prop := kn.Tells g k ∧ (Knowledge.seed g).Learns g kn
  constructor
  · have hrun : Inv (run g budget).knowledge := by
      refine iterate_inv (fun kn hkn => ?_) budget ⟨.seed g, 0⟩ ⟨Knowledge.tells_seed hg, .refl⟩
      exact ⟨(hkn.1.sweep hsound hg hkn.2).1, hkn.2.trans (Knowledge.learns_sweep _ kn)⟩
    exact hrun.1
  · intro hbudget id hid
    obtain ⟨budget, rfl⟩ := Nat.exists_eq_succ_of_ne_zero hbudget.ne'
    have hfirst := ((Knowledge.tells_seed hg).sweep hsound hg .refl).2 id hid
    unfold run iterate
    dsimp only
    split_ifs
    · exact Knowledge.isSome_of_learns (learns_iterate _ budget _) hfirst
    · exact hfirst

end Propagation

/-- Evaluation leaves some node without elements. -/
def Generation.Hollow (g : Generation α) : Prop := ∃ id, g.Means .extents id ∅

namespace Analysis

/-- With a sweep or more, there is a contradiction just if evaluation leaves some node without elements. -/
theorem isSatisfiable_iff_not_hollow (hsound : g.Sound) (hg : g.SetDesign k) {budget : ℕ}
    (hbudget : 0 < budget) (mappings : List (NodeMap NodeId)) :
    (ofSteps g budget mappings).isSatisfiable ↔ ¬ g.Hollow := by
  obtain ⟨htells, hknown⟩ := Propagation.tells_run hsound hg budget
  rw [isSatisfiable_iff]
  constructor
  · rintro hnil ⟨id, hid⟩
    have hgrounded : g.Grounded := by
      refine ⟨fun id s u hn => (hg.literal hn).1, fun id n hn => ?_⟩
      rcases hg id n hn with ⟨s, u, rfl, -, -, hs⟩ | ⟨e, rfl, -⟩
      · exact hs
      · rfl
    have hfed := Knowledge.fed_of_emptied hsound.acyclic hgrounded (Propagation.learns_run g budget) hnil
    obtain ⟨s, hs, hcanonical, -, hpoints⟩ := (htells.shows (hknown hbudget id hid.contains) hid).value
    have hempty := hfed id s hs
    rw [(ValueSet.isEmpty_iff_points hcanonical).2 hpoints] at hempty
    cases hempty
  · intro hg'
    rw [List.eq_nil_iff_forall_not_mem]
    intro id hid
    obtain ⟨s, hs, hempty⟩ := Knowledge.isEmpty_iff.1
      (Propagation.founded_iterate hsound.validate budget (p := ⟨.seed g, 0⟩) (Knowledge.founded_seed g) id hid)
    obtain ⟨a, ha, hshows⟩ := htells id (Option.isSome_of_eq_some hs)
    obtain ⟨s', hs', hcanonical, -, hpoints⟩ := hshows.value
    cases hs.symm.trans hs'
    refine hg' ⟨id, ?_⟩
    rwa [← (ValueSet.isEmpty_iff_points hcanonical).1 hempty, hpoints]

omit [Scalar.Ordered α] [Scalar.Reading α] in
theorem isSatisfiable_zero (mappings : List (NodeMap NodeId)) :
    (ofSteps g 0 mappings).isSatisfiable :=
  isSatisfiable_iff.2 (Knowledge.emptied_seed g)

end Analysis

end ParameterSolver
