import ParameterSolver.Blueprint.Basic
import ParameterSolver.Proofs.Graph.Order
import ParameterSolver.Proofs.Graph.Orderly

/-! Graphs that are built node by node. Operands come before the expressions that use them, and what
is accepted asserts predicates only and is in order. -/

namespace ParameterSolver

variable {α : Type} [Scalar α]

/-- The graphs under construction that calls lead to. -/
inductive Blueprint.Reachable : Blueprint α → Prop
  | empty : Reachable .empty
  | parameter {b : Blueprint α} (h : Reachable b) (p : Parameter α) :
    Reachable (b.addParameter p).2
  | literal {b : Blueprint α} (h : Reachable b) (s : ValueSet α) : Reachable (b.addLiteral s).2
  | constant {b : Blueprint α} (h : Reachable b) (c : Constant α) :
    Reachable (b.addConstant c).2
  | expression {b : Blueprint α} (h : Reachable b) (op : Operator) (operands : List NodeId) :
    Reachable (b.addExpression op operands).2
  | assertion {b : Blueprint α} (h : Reachable b) (op : Operator) (operands : List NodeId) :
    Reachable (b.addAssertion op operands).2
  | label {b : Blueprint α} (h : Reachable b) (id : NodeId) (text : String) :
    Reachable (b.label id text)

/-- Operands are older than what uses them. -/
def Generation.Ascending (g : Generation α) : Prop :=
  ∀ id, ∀ o ∈ g.operands id, o.rank < id.rank

omit [Scalar α] in
theorem Generation.Ascending.acyclic {g : Generation α} (h : g.Ascending) : g.Acyclic :=
  Generation.acyclic_of_rank NodeId.rank h

/-- Only predicates are asserted. -/
def Generation.Asserts (g : Generation α) : Prop :=
  ∀ id e, g.node? id = some (.expression e) → e.asserted → e.op.isPredicate

namespace Blueprint

/-- What every call keeps. -/
structure Sane (b : Blueprint α) : Prop where
  linked : b.generation.Linked
  ascending : b.generation.Ascending
  asserts : b.faults = [] → b.generation.Asserts
  orderly : b.faults = [] → b.generation.Orderly

variable {b : Blueprint α} {g : Generation α} {n : Node α}

theorem Sane.addFaults (h : b.Sane) (faults : List (BuildError α)) :
    (b.addFaults faults).Sane :=
  ⟨h.linked, h.ascending, fun hf => h.asserts (List.append_eq_nil_iff.1 hf).1,
    fun hf => h.orderly (List.append_eq_nil_iff.1 hf).1⟩

theorem Sane.add (h : b.Sane) (hp : b.faults = [] → n.Proper)
    (hn : b.faults = [] → ∀ e, n = .expression e → e.asserted → e.op.isPredicate) :
    (b.add n).2.Sane := by
  unfold Blueprint.add
  dsimp only
  split
  · rename_i id g hg
    have hi := Generation.inserted_of_insert hg
    have hl := hi.linked h.linked
    refine ⟨⟨hl.closed, hl.users⟩, fun j o ho => ?_, fun hf j e hj ha => ?_, fun hf => ?_⟩
    · change o ∈ g.operands j at ho
      by_cases hj : j = id
      · subst hj
        rw [Generation.operands_of_node? hi.node?_self] at ho
        exact hi.rank_lt ho
      · rw [Generation.operands_congr (hi.node?_of_ne hj)] at ho
        exact h.ascending j o ho
    · change g.node? j = some (.expression e) at hj
      rw [hi.node?] at hj
      split_ifs at hj
      · exact hn hf e (Option.some.inj hj) ha
      · exact h.asserts hf j e hj ha
    · obtain ⟨_, _, hins, -, ho⟩ := (h.orderly hf).insert (hp hf)
        ⟨_, SortedSet.mem_singleton.2 rfl⟩ hi.operands
      cases hg.symm.trans hins
      exact ⟨⟨ho.closed, ho.users⟩, ho.entries⟩
  · exact h.addFaults _

theorem arity_of_faults {op : Operator} {operands : List NodeId} {faults : List (BuildError α)}
    (h : (b.addFaults (arityFaults op operands ++ faults)).faults = []) (asserted : Bool) :
    (Node.expression ⟨op, operands, asserted⟩ : Node α).Proper := by
  refine Node.proper_expression ?_
  by_contra harity
  simp [Blueprint.addFaults, arityFaults, harity] at h

theorem sane_of_reachable (h : b.Reachable) : b.Sane := by
  induction h with
  | empty =>
    have hn : ∀ id, (Blueprint.empty : Blueprint α).generation.node? id = none := fun id => by
      simp [Blueprint.empty, Generation.node?, Generation.get?, Generation.empty]
    refine ⟨Generation.linked_empty _ _, fun id o ho => ?_, fun _ id e he => ?_, fun _ =>
      .empty 0 .empty⟩
    · simp [Generation.operands_of_not_node? (hn id)] at ho
    · simp [hn] at he
  | parameter _ p ih => exact ih.add (fun _ => Node.proper_parameter p) (by simp)
  | literal _ s ih => exact ih.add (fun _ => Node.proper_literal s none) (by simp)
  | @constant b _ c ih =>
    unfold addConstant
    dsimp only
    split
    · rename_i s hs
      exact ih.add (fun _ => ⟨by simp, by rintro _ ⟨⟩; exact ⟨s, hs⟩⟩) (by simp)
    · exact (ih.addFaults _).add (fun hf => by simp [Blueprint.addFaults] at hf) (by simp)
  | expression _ op operands ih =>
    refine (ih.addFaults _).add (fun hf => ?_) (by simp)
    rw [← List.append_nil (arityFaults op operands)] at hf
    exact arity_of_faults hf false
  | @assertion b _ op operands ih =>
    refine (ih.addFaults _).add (fun hf => arity_of_faults hf true) fun hf e he _ => ?_
    cases he
    by_contra hop
    simp [Blueprint.addFaults, hop] at hf
  | label _ id text ih =>
    exact ⟨⟨ih.linked.closed, ih.linked.users⟩, ih.ascending, ih.asserts, fun hf =>
      ⟨⟨ih.linked.closed, ih.linked.users⟩, (ih.orderly hf).entries⟩⟩

/-- What is accepted has no faults, none of its units among them. -/
theorem faults_of_build (h : b.build = .ok g) :
    (b.faults = [] ∧ (checkUnits g).faults = []) ∧ g = b.generation := by
  unfold build at h
  dsimp only at h
  split_ifs at h with hf
  · cases h
  · simp only [Bool.not_eq_true', Bool.not_eq_false, List.isEmpty_iff, List.append_eq_nil_iff] at hf
    cases hv : b.generation.validate with
    | error e =>
      rw [hv] at h
      cases h
    | ok u =>
      rw [hv] at h
      cases h
      exact ⟨hf, rfl⟩

theorem of_build (h : b.build = .ok g) : b.faults = [] ∧ g = b.generation :=
  ⟨(faults_of_build h).1.1, (faults_of_build h).2⟩

end Blueprint

end ParameterSolver
