import ParameterSolver.Proofs.Blueprint.Reachable
import ParameterSolver.Proofs.Propagation.Canonical
import ParameterSolver.Proofs.Propagation.Fixpoint

/-! What a larger budget adds. A run with more sweeps goes on from where one with fewer has ended, so
that it can only restrict further what that one knew; and a run that ends before its budget is used up
ends at rest, where no budget brings any more. -/

namespace ParameterSolver

open Scalar Scalar.Ordered

variable {α : Type} [Scalar α]

namespace Knowledge

variable {g : Generation α} {k k' : Knowledge α} {n : NodeId} {s : ValueSet α}

theorem evidenceOf_subset_restrict {because : Provenance} {id : NodeId} {bound : ValueSet α}
    {o : Origin} (ho : o ∈ k.evidenceOf n) : o ∈ (restrict g because k id bound).evidenceOf n := by
  obtain ⟨hr, -⟩ | ⟨next, emptied, hr, -⟩ := restrict_cases g because k id bound <;> rw [hr]
  · exact ho
  by_cases hn : n = id
  · subst hn
    have hnull : n ≠ .null := by
      rintro rfl
      exact absurd ho (SortedSet.not_mem_empty o)
    rw [evidenceOf, NodeMap.get?_insert_self hnull]
    exact SortedSet.mem_union.2 (Or.inl ho)
  · rwa [evidenceOf, NodeMap.get?_insert_other hn]

theorem Learns.mem_evidenceOf (h : Learns g k k') {o : Origin} (ho : o ∈ k.evidenceOf n) :
    o ∈ k'.evidenceOf n := by
  induction h with
  | refl => exact ho
  | restrict _ because id bound ih => exact evidenceOf_subset_restrict ih
  | exact _ _ ih => exact ih
  | clear _ ih => exact ih

theorem Learns.emptied_prefix (h : Learns g k k') : k.emptied <+: k'.emptied := by
  induction h with
  | refl => exact List.prefix_refl _
  | @restrict k' _ because id bound ih =>
    obtain ⟨hr, -⟩ | ⟨next, emptied, hr, -, rfl | ⟨rfl, -⟩⟩ := restrict_cases g because k' id bound <;>
      rw [hr]
    · exact ih
    · exact ih
    · exact ih.trans (List.prefix_append _ _)
  | exact _ _ ih => exact ih
  | clear _ ih => exact ih

variable [Ordered α] [Scalar.Reading α]

/-- What is known in `k'` is at least as sharp as in `k`: sets are parts of what they were, and nothing
is dropped of the reasons and of the nodes that were found to be without values. -/
structure Sharpens (k k' : Knowledge α) : Prop where
  values : ∀ id s, k.value? id = some s →
    ∃ t, k'.value? id = some t ∧ t.isSubset s = .ok true ∧ t.points ⊆ s.points
  evidence : ∀ id, ∀ o ∈ k.evidenceOf id, o ∈ k'.evidenceOf id
  emptied : k.emptied <+: k'.emptied

theorem Learns.sharpens (h : Learns g k k') (hk : k.Canonical) : Sharpens k k' where
  values id s hs := by
    obtain ⟨t, ht, hc, hfamily, hsub⟩ := h.shrinks hs (hk id s hs)
    obtain ⟨b, hb, hiff⟩ := ValueSet.isSubset_eq hc (hk id s hs) hfamily
    obtain rfl : b = true := hiff.2 hsub
    exact ⟨t, ht, hb, hsub⟩
  evidence _ _ := h.mem_evidenceOf
  emptied := h.emptied_prefix

end Knowledge

namespace Propagation

variable {g : Generation α} {order : List NodeId} {n m : ℕ} {p : Propagation α}

theorem learns_iterate_of_le (hnm : n ≤ m) (p : Propagation α) :
    (iterate g order n p).knowledge.Learns g (iterate g order m p).knowledge := by
  induction n generalizing m p with
  | zero => exact learns_iterate order m p
  | succ n ih =>
    obtain ⟨m, rfl⟩ : ∃ j, m = j + 1 := ⟨m - 1, by omega⟩
    unfold iterate
    dsimp only
    split_ifs
    · exact ih (by omega) ⟨_, p.rounds + 1⟩
    · exact .refl

/-- A run that ends early has ended with a sweep without news, as any longer run does. -/
theorem iterate_of_stopped (hnm : n ≤ m) (p : Propagation α)
    (h : (iterate g order n p).rounds < p.rounds + n) :
    iterate g order m p = iterate g order n p ∧ ∃ k : Knowledge α,
      (iterate g order n p).knowledge = k.sweep g order ∧ (k.sweep g order).changed = false := by
  induction n generalizing m p with
  | zero => exact absurd h (by simp [iterate])
  | succ n ih =>
    obtain ⟨m, rfl⟩ : ∃ j, m = j + 1 := ⟨m - 1, by omega⟩
    unfold iterate at h ⊢
    dsimp only at h ⊢
    split_ifs at h ⊢ with hchanged
    · exact ih (by omega) ⟨_, p.rounds + 1⟩ (by dsimp only; omega)
    · exact ⟨rfl, p.knowledge, rfl, Bool.eq_false_iff.2 hchanged⟩

/-- A larger budget only sharpens what is known; and if a run has not used up its budget, then a larger
one gives the same run, and a further sweep changes nothing. Literals are in normal form, as all sets
are that can be made. -/
theorem sharpens_run [Ordered α] [Scalar.Reading α] (hsin : SineBounded α) (hacyclic : g.Acyclic)
    (hliterals : ∀ id s source, g.node? id = some (.literal s source) → s.Canonical) (hnm : n ≤ m) :
    (run g n).knowledge.Sharpens (run g m).knowledge ∧
      ((run g n).rounds < n → run g m = run g n ∧
        (run g n).knowledge.sweep g g.topologicalOrder = (run g n).knowledge) := by
  have hcanonical : (run g n).knowledge.Canonical :=
    canonical_iterate hsin _ n ⟨.seed g, 0⟩ (Knowledge.canonical_seed hliterals)
  refine ⟨(learns_iterate_of_le hnm _).sharpens hcanonical, fun hrounds => ?_⟩
  have hstopped : (iterate g g.topologicalOrder n ⟨.seed g, 0⟩).rounds < 0 + n := by
    rwa [Nat.zero_add]
  obtain ⟨hsame, k, hk, hquiet⟩ := iterate_of_stopped hnm ⟨.seed g, 0⟩ hstopped
  refine ⟨hsame, ?_⟩
  have hrest := Knowledge.sweep_eq_of_quiet hacyclic hquiet
  rw [run, hk]
  exact hrest

end Propagation

/-- A number that is at least five, and another one that equals it and hears of the five a sweep
later. -/
def Sample.relay : Blueprint Machine.Damped :=
  let b := (Blueprint.empty.addParameter .real).2
  let b := (b.addParameter .real).2
  let b := (b.addLiteral (.number 5)).2
  let b := (b.addAssertion .greaterOrEqual [.nth 0, .nth 2]).2
  (b.addAssertion .is [.nth 0, .nth 1]).2

theorem Sample.relay_acyclic : Sample.relay.generation.Acyclic :=
  (Blueprint.sane_of_reachable (.assertion (.assertion (.literal (.parameter (.parameter .empty _) _)
    _) _ _) _ _)).ascending.acyclic

theorem Sample.relay_literals (id : NodeId) (s : ValueSet Machine.Damped)
    (source : Option (MeasureUnit Machine.Damped))
    (h : Sample.relay.generation.node? id = some (.literal s source)) : s.Canonical := by
  have hliterals : Sample.relay.generation.nodes.filterMap (·.2.literal?) = [.number 5] := rfl
  have hs : s ∈ Sample.relay.generation.nodes.filterMap (·.2.literal?) :=
    List.mem_filterMap.2 ⟨_, Generation.mem_nodes.2 h, rfl⟩
  rw [hliterals, List.mem_singleton] at hs
  rw [hs]
  exact canonical_number _

/-- The second sweep tells of the other number what the first does not, and the third brings no news. -/
theorem Propagation.sharpens_run_relay :
    (run Sample.relay.generation 1).knowledge.Sharpens (run Sample.relay.generation 2).knowledge ∧
      ((run Sample.relay.generation 1).knowledge.value? (.nth 1) ==
        (run Sample.relay.generation 2).knowledge.value? (.nth 1)) = false ∧
      run Sample.relay.generation 9 = run Sample.relay.generation 4 ∧
        (run Sample.relay.generation 4).rounds = 3 := by
  have h {n m : ℕ} (hnm : n ≤ m) := sharpens_run Machine.sineBounded_damped Sample.relay_acyclic
    Sample.relay_literals hnm
  have hrounds : (run Sample.relay.generation 4).rounds = 3 := by
    decide +kernel
  refine ⟨(h (by omega)).1, by decide +kernel, ((h (by omega)).2 ?_).1, hrounds⟩
  rw [hrounds]
  omega

end ParameterSolver
