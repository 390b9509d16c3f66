import ParameterSolver.Proofs.Pass.Inventories
import ParameterSolver.Proofs.Pass.Tainted
import ParameterSolver.Proofs.Pass.Trimming

/-! What a pass has no business with comes out as it went in: a node that is not due, that no law is
for, or that is not merged is reproduced over what stands for its operands. -/

namespace ParameterSolver

open Draft Pass

variable {α : Type} {g : Generation α} {d : Draft α} {deduplicate : Bool} {journal : Journal}
  {x j : NodeId} {n m : Node α} {e : Expression}

theorem Node.eq_withOperands_of_skeleton (h : m.skeleton = n.skeleton) :
    m = n.withOperands m.operands := by
  have hm : m.skeleton.withOperands m.operands = m :=
    withOperands_withOperands.trans withOperands_operands
  have hn : n.skeleton.withOperands m.operands = n.withOperands m.operands :=
    withOperands_withOperands
  rw [← hn, ← h, hm]

namespace Draft

/-- The output node of `x` has the content `n`, over what stands for its operands. -/
def Reproduces (d : Draft α) (x : NodeId) (n : Node α) : Prop :=
  ∃ j js, d.mapping.get? x = some j ∧ d.Images n.operands js ∧
    d.output.node? j = some (n.withOperands js)

theorem reproduces_of_skeleton (hn : g.node? x = some n) (hj : d.mapping.get? x = some j)
    (hm : d.output.node? j = some m) (hsame : m.skeleton = n.skeleton)
    (himages : d.Images (g.operands x) (d.output.operands j)) : d.Reproduces x n := by
  rw [Generation.operands_of_node? hn, Generation.operands_of_node? hm] at himages
  exact ⟨j, m.operands, hj, himages, hm.trans (congrArg some (Node.eq_withOperands_of_skeleton hsame))⟩

theorem Reproduces.leaf (h : d.Reproduces x n) (hleaf : n.expression? = none) :
    ∃ j, d.mapping.get? x = some j ∧ d.output.node? j = some n := by
  obtain ⟨j, js, hj, -, hm⟩ := h
  refine ⟨j, hj, hm.trans ?_⟩
  cases n with
  | expression e => cases hleaf
  | _ => rfl

/-- The image of an expression with two operands. -/
theorem Reproduces.pair {op : Operator} {a b : NodeId} {asserted : Bool}
    (h : d.Reproduces x (.expression ⟨op, [a, b], asserted⟩)) :
    ∃ j i k, d.mapping.get? x = some j ∧ d.mapping.get? a = some i ∧ d.mapping.get? b = some k ∧
      d.output.node? j = some (.expression ⟨op, [i, k], asserted⟩) := by
  obtain ⟨j, js, hj, himages, hm⟩ := h
  obtain ⟨i, k, rfl, hi, hk⟩ := exists_pair himages
  exact ⟨j, i, k, hj, hi, hk, hm⟩

end Draft

/-- The passes that remove nothing reproduce what is not due. -/
theorem Outcome.reproduces {due : NodeId → Prop} {W C : Draft α → NodeId → Node α → Prop}
    {Q : NodeId → Node α → Prop} {E : NodeId → Draft α → Prop}
    (h : Outcome g due W C Q E deduplicate journal d)
    (hW : ∀ d i n, d.input = g → due i → W d i n → d.Images (g.operands i) n.operands)
    (hn : g.node? x = some n) (hx : ¬ due x) : d.Reproduces x n := by
  obtain ⟨j, hj⟩ := h.mapped (Generation.contains_of_node? hn)
  obtain ⟨m, hm⟩ := Generation.contains_iff.1 (h.coherent.mapped x j hj).2
  rcases h.inventory (R := fun _ _ => True) (fun _ _ _ _ => trivial) hm with
    ⟨i, n', hi, hn', -, hsame⟩ | ⟨i, hi, hdue, -⟩ | ⟨hfree, -⟩
  · obtain rfl := h.coherent.injective x i j hj hi
    cases hn.symm.trans hn'
    exact reproduces_of_skeleton hn hj hm hsame (h.images hW hj)
  · exact absurd (h.coherent.injective x i j hj hi ▸ hdue) hx
  · exact absurd hj (hfree x)

/-- The pass over the operators reproduces what is in the basis, unless it is made of something that
has no law. -/
theorem Pass.Canonized.reproduces [Scalar α] (h : Canonized g deduplicate journal d)
    (hn : g.node? x = some n) (hx : ¬ g.Foreign x) (ht : ¬ g.Tainted x) : d.Reproduces x n := by
  obtain ⟨j, hj⟩ := h.mapped (Generation.contains_of_node? hn) ht
  obtain ⟨m, hm⟩ := Generation.contains_iff.1 (h.coherent.mapped x j hj).2
  rcases h.inventory hm with ⟨i, n', hi, hn', hsame⟩ | ⟨i, e, hi, he, hforeign, -⟩ | ⟨hfree, -⟩
  · obtain rfl := h.coherent.injective x i j hj hi
    cases hn.symm.trans hn'
    exact reproduces_of_skeleton hn hj hm hsame (h.images hj hx)
  · exact absurd ⟨e, h.coherent.injective x i j hj hi ▸ he, hforeign⟩ hx
  · exact absurd hj (hfree x)

/-- The pass over nested expressions reproduces leaves, and expressions whose operator is neither
associative nor idempotent. -/
theorem Pass.Compressed.reproduces (h : Compressed g deduplicate journal d) (hg : g.Linked)
    (hn : g.node? x = some n)
    (hop : ∀ e, n = .expression e → flattens e.op = false ∧ e.op.has .idempotent = false) :
    d.Reproduces x n := by
  have habs : isAbsorbed g x = false := by
    rw [Bool.eq_false_iff]
    intro habs
    obtain ⟨p, e, c, -, -, hc⟩ := exists_of_isAbsorbed habs
    obtain ⟨hx, -, -, hflattens, -⟩ := absorbable?_eq_some.1 hc
    cases hn.symm.trans hx
    rw [(hop c rfl).1] at hflattens
    cases hflattens
  obtain ⟨j, hj⟩ := h.mapped hg (Generation.contains_of_node? hn) habs
  obtain ⟨m, hm⟩ := Generation.contains_iff.1 (h.coherent.mapped x j hj).2
  obtain ⟨i, n', hi, hn', hsame⟩ := h.inventory hg hm
  obtain rfl := h.coherent.injective x i j hj hi
  cases hn.symm.trans hn'
  obtain ⟨l, rfl | ⟨e, hover, -⟩, himages⟩ := (h.thinned hg).mirrors x j trivial hj
  · exact reproduces_of_skeleton hn hj hm hsame himages
  · cases hn.symm.trans hover.node?
    obtain ⟨hflattens, hidempotent⟩ := hop e rfl
    rcases hover.op with hop | hop
    · rw [hflattens] at hop
      cases hop
    · rw [hidempotent] at hop
      cases hop

end ParameterSolver
