import Mathlib.Algebra.Order.BigOperators.Group.List
import Mathlib.Algebra.Order.Group.Nat
import Mathlib.Algebra.Ring.Nat
import Mathlib.Data.Finset.Max
import Mathlib.Data.Prod.Lex
import ParameterSolver.Proofs.Pass.Trimming

/-! Compressing makes a graph lighter, and where it has nothing to do nothing is nested. -/

namespace ParameterSolver

open Draft

theorem eraseDups_sublist {β : Type} [BEq β] (l : List β) : l.eraseDups.Sublist l := by
  induction hk : l.length using Nat.strong_induction_on generalizing l with
  | _ k ih =>
    cases l with
    | nil => simp
    | cons x l =>
      rw [List.eraseDups_cons]
      have hle := List.length_filter_le (fun y => !y == x) l
      rw [List.length_cons] at hk
      exact ((ih _ (by omega) _ rfl).trans List.filter_sublist).cons_cons x

theorem nodup_eraseDups {β : Type} [BEq β] [LawfulBEq β] (l : List β) : l.eraseDups.Nodup := by
  induction hk : l.length using Nat.strong_induction_on generalizing l with
  | _ k ih =>
    cases l with
    | nil => simp
    | cons x l =>
      rw [List.eraseDups_cons]
      have hle := List.length_filter_le (fun y => !y == x) l
      rw [List.length_cons] at hk
      refine List.nodup_cons.2 ⟨fun hx => ?_, ih _ (by omega) _ rfl⟩
      have hmem := List.mem_filter.1 ((eraseDups_sublist _).subset hx)
      simp at hmem

variable {α : Type}

namespace Generation

variable {g g' : Generation α}

/-- The operands of all expressions, counted together. -/
def operandCount (g : Generation α) : ℕ := (g.expressions.map fun x => x.2.operands.length).sum

/-- Fewer expressions, or as many with fewer operands. -/
def Lighter (g' g : Generation α) : Prop :=
  g'.expressions.length < g.expressions.length ∨
    (g'.expressions.length = g.expressions.length ∧ g'.operandCount < g.operandCount)

theorem wellFounded_lighter : WellFounded (Lighter (α := α)) := by
  refine Subrelation.wf (fun {g' g} h => ?_) (InvImage.wf
    (fun g : Generation α => toLex (g.expressions.length, g.operandCount)) wellFounded_lt)
  exact Prod.Lex.toLex_lt_toLex.2 h

end Generation

namespace Pass

variable [Scalar α] {g : Generation α} {d : Draft α} {deduplicate : Bool} {journal : Journal}
  {id : NodeId} {e : Expression}

omit [Scalar α] in
/-- What can be merged into an expression that stays is merged. -/
theorem mem_merged (hg : g.Linked) (hn : g.node? id = some (.expression e))
    (hroot : isAbsorbed g id = false) {o : NodeId} (ho : o ∈ e.operands)
    (habs : isAbsorbed g o) : o ∈ (flattened g e).2 := by
  refine (covers_operands hg hn hroot o ho).resolve_left fun hkept => ?_
  rw [((collected_flattened hg hn).operands o hkept).1] at habs
  cases habs

omit [Scalar α] in
theorem expression_of_isAbsorbed {x : NodeId} (h : isAbsorbed g x) :
    ∃ c, g.node? x = some (.expression c) ∧ c.asserted = false := by
  obtain ⟨p, e, c, -, -, hc⟩ := exists_of_isAbsorbed h
  obtain ⟨hn, -, hasserted, -⟩ := absorbable?_eq_some.1 hc
  exact ⟨c, hn, hasserted⟩

omit [Scalar α] in
/-- If nothing is merged into an expression, some of its operands at most go. -/
theorem sublist_keptOperands (hg : g.Linked) (hn : g.node? id = some (.expression e))
    (hroot : isAbsorbed g id = false) (hnone : (flattened g e).2 = []) :
    (keptOperands g e).Sublist e.operands := by
  have hflat : flattened g e = (e.operands, []) := by
    refine flattened_of_none hn fun o ho => ?_
    by_contra hsome
    obtain ⟨c, hc⟩ := Option.ne_none_iff_exists'.1 hsome
    have hmem := mem_merged hg hn hroot ho (isAbsorbed_of_absorbable hg hn ho hc)
    rw [hnone] at hmem
    cases hmem
  unfold keptOperands
  rw [hflat]
  split_ifs
  · exact eraseDups_sublist _
  · exact List.Sublist.refl _

namespace Compressed

variable (h : Compressed g deduplicate journal d) (hg : g.Linked)

include h hg

omit [Scalar α]

/-- The node that an output node stands for. -/
theorem exists_origin : ∃ f : NodeId → NodeId, ∀ j e, d.output.node? j = some (.expression e) →
    d.mapping.get? (f j) = some j ∧ ∃ e', g.node? (f j) = some (.expression e') := by
  have hall : ∀ j, ∃ i, ∀ e, d.output.node? j = some (.expression e) →
      d.mapping.get? i = some j ∧ ∃ e', g.node? i = some (.expression e') := by
    intro j
    by_cases hj : ∃ e, d.output.node? j = some (.expression e)
    · obtain ⟨e, hj⟩ := hj
      obtain ⟨i, m, hi, hm, hsame⟩ := h.inventory hg hj
      obtain ⟨e', rfl, -⟩ := Node.expression_of_skeleton hsame.symm
      exact ⟨i, fun _ _ => ⟨hi, e', hm⟩⟩
    · exact ⟨.null, fun e he => absurd ⟨e, he⟩ hj⟩
  exact ⟨fun j => (hall j).choose, fun j => (hall j).choose_spec⟩

/-- What an output node uses is no longer than what the node it stands for used, unless something is
merged into that. -/
theorem length_operands_le {i j : NodeId} (hnone : ∀ e, Overgrown g i e → (flattened g e).2 = [])
    (hj : d.mapping.get? i = some j) :
    (d.output.operands j).length ≤ (g.operands i).length := by
  obtain ⟨l, hl, himages⟩ := (h.thinned hg).mirrors i j trivial hj
  rw [← himages.length_eq]
  rcases hl with rfl | ⟨e, hover, rfl⟩
  · exact le_rfl
  · rw [Generation.operands_of_node? hover.node?]
    exact (sublist_keptOperands hg hover.node? hover.root (hnone e hover)).length_le

/-- An expression that is left with fewer operands. -/
theorem length_operands_lt {j : NodeId} (hover : Overgrown g id e) (hnone : (flattened g e).2 = [])
    (hj : d.mapping.get? id = some j) :
    (d.output.operands j).length < (g.operands id).length := by
  obtain ⟨⟨k, hk, himages⟩, -⟩ := h.trimmed id e hover
  cases hj.symm.trans hk
  have hsub := sublist_keptOperands hg hover.node? hover.root hnone
  rw [← himages.length_eq, Generation.operands_of_node? hover.node?]
  exact lt_of_le_of_ne hsub.length_le fun heq => hover.operands (hsub.eq_of_length heq)

/-- A pass that changes something makes the graph lighter: something is merged and gone, or else each
expression has its place and one of them has fewer operands. -/
theorem lighter (hover : Overgrown g id e) : d.output.Lighter g := by
  obtain ⟨f, hf⟩ := h.exists_origin hg
  have hd := h.coherent
  have hexpr : ∀ x ∈ d.output.expressions, d.mapping.get? (f x.1) = some x.1 ∧
      ∃ e', g.node? (f x.1) = some (.expression e') := fun x hx =>
    hf x.1 x.2 (Generation.mem_expressions.1 hx)
  have hmem : ∀ {i c}, g.node? i = some (.expression c) → i ∈ g.expressions.map (·.1) :=
    fun hi => List.mem_map.2 ⟨(_, _), Generation.mem_expressions.2 hi, rfl⟩
  have hnodup : (d.output.expressions.map fun x => f x.1).Nodup := by
    have hids : (d.output.expressions.map (·.1)).Nodup := Generation.nodup_expressions
    rw [show (fun x : NodeId × Expression => f x.1) = f ∘ (·.1) from rfl, ← List.map_map]
    refine List.Nodup.map_on (fun j hj j' hj' heq => ?_) hids
    obtain ⟨x, hx, rfl⟩ := List.mem_map.1 hj
    obtain ⟨x', hx', rfl⟩ := List.mem_map.1 hj'
    have h₁ := (hexpr x hx).1
    rw [heq, (hexpr x' hx').1] at h₁
    exact (Option.some.inj h₁).symm
  have hsub : (d.output.expressions.map fun x => f x.1) ⊆ g.expressions.map (·.1) := by
    intro i hi
    obtain ⟨x, hx, rfl⟩ := List.mem_map.1 hi
    obtain ⟨e', he'⟩ := (hexpr x hx).2
    exact hmem he'
  by_cases hgone : ∃ x, d.isRemoved x
  · left
    obtain ⟨x, hx⟩ := hgone
    obtain ⟨c, hc, -⟩ := expression_of_isAbsorbed ((h.thinned hg).removed x hx).1
    have hnew : x ∉ d.output.expressions.map fun x => f x.1 := by
      intro hmem
      obtain ⟨y, hy, rfl⟩ := List.mem_map.1 hmem
      rw [hd.kept _ _ (hexpr y hy).1] at hx
      cases hx
    have hlen := (List.subperm_of_subset (List.nodup_cons.2 ⟨hnew, hnodup⟩)
      (List.cons_subset.2 ⟨hmem hc, hsub⟩)).length_le
    rw [List.length_cons, List.length_map, List.length_map] at hlen
    exact hlen
  · right
    have hnone : ∀ i e, Overgrown g i e → (flattened g e).2 = [] := fun i e hover =>
      List.eq_nil_iff_forall_not_mem.2 fun x hx => hgone ⟨x, (h.trimmed i e hover).2.2 x hx⟩
    have himage : ∀ i c, g.node? i = some (.expression c) →
        ∃ x ∈ d.output.expressions, d.mapping.get? i = some x.1 ∧ f x.1 = i := by
      intro i c hi
      obtain ⟨j, hj⟩ := (h.closed i (h.input ▸ Generation.contains_of_node? hi)).resolve_right
        fun hi => hgone ⟨i, hi⟩
      obtain ⟨n, hn⟩ := Generation.contains_iff.1 (hd.mapped i j hj).2
      obtain ⟨i', m, hi', hm, hsame⟩ := h.inventory hg hn
      obtain rfl := hd.injective i i' j hj hi'
      cases hi.symm.trans hm
      obtain ⟨c', rfl, -⟩ := Node.expression_of_skeleton hsame
      exact ⟨(j, c'), Generation.mem_expressions.2 hn, hj, hd.injective _ _ j (hf j c' hn).1 hj⟩
    have hperm : (d.output.expressions.map fun x => f x.1).Perm (g.expressions.map (·.1)) := by
      refine (List.perm_ext_iff_of_nodup hnodup Generation.nodup_expressions).2 fun i =>
        ⟨fun hi => hsub hi, fun hi => ?_⟩
      obtain ⟨x, hx, rfl⟩ := List.mem_map.1 hi
      obtain ⟨y, hy, -, hfy⟩ := himage x.1 x.2 (Generation.mem_expressions.1 hx)
      exact List.mem_map.2 ⟨y, hy, hfy⟩
    refine ⟨by simpa using hperm.length_eq, ?_⟩
    have hops : ∀ {g : Generation α}, ∀ x ∈ g.expressions, x.2.operands.length =
        (g.operands x.1).length := fun x hx => by
      rw [Generation.operands_of_node? (Generation.mem_expressions.1 hx)]
      rfl
    calc d.output.operandCount
        = (d.output.expressions.map fun x => (d.output.operands x.1).length).sum := by
          rw [Generation.operandCount, List.map_congr_left hops]
      _ < (d.output.expressions.map fun x => (g.operands (f x.1)).length).sum := by
          refine List.sum_lt_sum _ _ (fun x hx => ?_) ?_
          · exact h.length_operands_le hg (hnone _) (hexpr x hx).1
          · obtain ⟨x, hx, hmap, hfx⟩ := himage id e hover.node?
            refine ⟨x, hx, ?_⟩
            rw [hfx]
            exact h.length_operands_lt hg hover (hnone id e hover) hmap
      _ = ((d.output.expressions.map fun x => f x.1).map fun i => (g.operands i).length).sum := by
          rw [List.map_map]
          rfl
      _ = ((g.expressions.map (·.1)).map fun i => (g.operands i).length).sum :=
          (hperm.map _).sum_eq
      _ = g.operandCount := by
          rw [List.map_map, Generation.operandCount, List.map_congr_left hops]
          rfl

end Compressed

section Settled

variable (hg : g.Sound) (hnone : ∀ id e, ¬ Overgrown g id e)

include hg hnone

/-- The highest node that could be merged would have to be merged into its user. -/
theorem not_isAbsorbed_of_not_overgrown (x : NodeId) : isAbsorbed g x = false := by
  obtain ⟨height, hh⟩ := hg.acyclic.exists_heights
  by_contra hfalse
  have hx : isAbsorbed g x := by simpa using hfalse
  have hcont : ∀ {y}, isAbsorbed g y → g.contains y := fun hy => by
    obtain ⟨c, hc, -⟩ := expression_of_isAbsorbed hy
    exact Generation.contains_of_node? hc
  obtain ⟨y, hy, hmax⟩ := (g.order.filter (isAbsorbed g)).toFinset.exists_max_image height
    ⟨x, by simpa [Generation.order, NodeMap.mem_keys] using ⟨hcont hx, hx⟩⟩
  have hy' : isAbsorbed g y := by simpa using (List.mem_filter.1 (List.mem_toFinset.1 hy)).2
  obtain ⟨p, e, c, husers, hp, hc⟩ := exists_of_isAbsorbed hy'
  obtain ⟨-, hop, -, hflat, -⟩ := absorbable?_eq_some.1 hc
  have huse : y ∈ e.operands := by
    have huse := (hg.users y p).1 (by simp [husers])
    rwa [Generation.operands_of_node? hp] at huse
  by_cases hpabs : isAbsorbed g p
  · have hle := hmax p (by simpa [Generation.order, NodeMap.mem_keys] using ⟨hcont hpabs, hpabs⟩)
    have hlt := (hg.below hh hp huse).2
    omega
  · refine hnone p e ⟨hp, Or.inl (hop ▸ hflat), Bool.eq_false_iff.2 hpabs, fun hsame => ?_⟩
    rw [not_isAbsorbed_of_kept hg.toLinked hp (hsame ▸ huse)] at hy'
    cases hy'

/-- No expression that could be merged has a single user with the same operator. -/
theorem op_ne_of_not_overgrown {x p : NodeId} {c : Expression}
    (hx : g.node? x = some (.expression c)) (hasserted : c.asserted = false) (hop : flattens c.op)
    (husers : g.users x = [p]) (hp : g.node? p = some (.expression e)) : e.op ≠ c.op := by
  intro hsame
  have habs : isAbsorbed g x := by
    have hc : absorbable? g x e = some c :=
      absorbable?_eq_some.2 ⟨hx, hsame.symm, hasserted, hop, by simp [husers]⟩
    simp [isAbsorbed, husers, Generation.expression?_eq.2 hp, hc]
  rw [not_isAbsorbed_of_not_overgrown hg hnone x] at habs
  cases habs

/-- No idempotent operator lists an operand twice. -/
theorem nodup_operands_of_not_overgrown (hn : g.node? id = some (.expression e))
    (hop : e.op.has .idempotent) : e.operands.Nodup := by
  have hsame : keptOperands g e = e.operands := by
    by_contra hne
    exact hnone id e ⟨hn, Or.inr hop, not_isAbsorbed_of_not_overgrown hg hnone id, hne⟩
  rw [← hsame, keptOperands, if_pos hop]
  exact nodup_eraseDups _

end Settled

end Pass

end ParameterSolver
