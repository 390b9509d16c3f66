import ParameterSolver.Proofs.Pass.TotalLaws
import ParameterSolver.Proofs.Pass.Trees
import ParameterSolver.Proofs.Propagation.SetOperators

/-! The laws of sets and evaluation. The tree for a difference is evaluated like the difference. In the
tree for an intersection a set is united with the intersection of those before it, and that without their
symmetric difference is what they share; if they are equal the symmetric difference has no elements, and
evaluation makes nothing of that. -/

namespace ParameterSolver

open scoped symmDiff

namespace Operator

variable {β : Type} {op : Operator} {a b : Set β} {l : List (Set β)} {x : β}

theorem mem_foldl_union : x ∈ l.foldl union.onSets a ↔ x ∈ a ∨ ∃ b ∈ l, x ∈ b := by
  induction l generalizing a with
  | nil => simp
  | cons b l ih =>
    rw [List.foldl_cons, ih]
    simp [onSets, or_assoc]

theorem mem_foldl_difference : x ∈ l.foldl difference.onSets a ↔ x ∈ a ∧ ∀ b ∈ l, x ∉ b := by
  induction l generalizing a with
  | nil => simp
  | cons b l ih =>
    rw [List.foldl_cons, ih]
    simp [onSets, and_assoc]

theorem mem_overSets_union : x ∈ union.overSets l ↔ ∃ b ∈ l, x ∈ b := by
  cases l with
  | nil => simp [overSets]
  | cons a l => simp [overSets, mem_foldl_union]

theorem overSets_union_ne_empty (hne : l ≠ []) (h : ∅ ∉ l) : union.overSets l ≠ ∅ := by
  obtain ⟨a, l, rfl⟩ := List.exists_cons_of_ne_nil hne
  obtain ⟨x, hx⟩ := Set.nonempty_iff_ne_empty.2 fun ha : a = ∅ => h (ha ▸ List.mem_cons_self)
  exact Set.nonempty_iff_ne_empty.1 ⟨x, mem_overSets_union.2 ⟨a, List.mem_cons_self, hx⟩⟩

/-- One of the sets is what those before it have in common. -/
def Coincides (l : List (Set β)) : Prop :=
  ∃ m b, m ≠ [] ∧ m ++ [b] <+: l ∧ intersection.overSets m = b

theorem not_coincides_singleton : ¬ Coincides [a] := by
  rintro ⟨m, b, hne, hm, -⟩
  have hlen : (m ++ [b]).length ≤ 1 := hm.length_le
  rw [List.length_append, List.length_singleton] at hlen
  exact hne (List.length_eq_zero_iff.1 (by omega))

theorem coincides_cons_cons : Coincides (a :: b :: l) ↔ a = b ∨ Coincides (a ∩ b :: l) := by
  constructor
  · rintro ⟨m, c, hne, hm, hc⟩
    obtain ⟨a', m, rfl⟩ := List.exists_cons_of_ne_nil hne
    rw [List.cons_append, List.cons_prefix_cons] at hm
    obtain ⟨rfl, hm⟩ := hm
    cases m with
    | nil =>
      rw [List.nil_append, List.cons_prefix_cons] at hm
      exact .inl (hc.trans hm.1)
    | cons b' m =>
      rw [List.cons_append, List.cons_prefix_cons] at hm
      obtain ⟨rfl, hm⟩ := hm
      exact .inr ⟨a' ∩ b' :: m, c, by simp, List.cons_prefix_cons.2 ⟨rfl, hm⟩, hc⟩
  · rintro (rfl | ⟨m, c, hne, hm, hc⟩)
    · exact ⟨[a], a, by simp, by simp, rfl⟩
    · obtain ⟨a', m, rfl⟩ := List.exists_cons_of_ne_nil hne
      obtain ⟨rfl, hm⟩ := List.cons_prefix_cons.1 hm
      exact ⟨a :: b :: m, c, by simp, by simpa using hm, hc⟩

theorem overSets_pair : op.overSets [a, b] = op.onSets a b := rfl

/-- An operator that leaves a part of the first of two or more sets and is not of the basis. -/
structure Sifts (op : Operator) : Prop where
  encodes : op.encodes
  foreign : op.isCanonical = false
  set : op.has .set
  exact : Propagation.keepsExactness op
  arity (n : ℕ) : op.arity.accepts n ↔ 2 ≤ n

theorem sifts (hop : op = .intersection ∨ op = .difference) : op.Sifts := by
  rcases hop with rfl | rfl <;> exact ⟨rfl, rfl, rfl, rfl, fun _ => decide_eq_true_iff⟩

end Operator

namespace Interpretation

variable {α : Type} [Scalar α] [Scalar.Reading α]

variable {a b : Set (Value ℝ)} {l : List (Set (Value ℝ))}

theorem encoded_difference (hlen : 2 ≤ l.length) (h : ∅ ∉ l) :
    (extents (α := α)).encoded .difference l = Operator.difference.overSets l := by
  obtain ⟨a, l, rfl⟩ := List.exists_cons_of_ne_nil (List.ne_nil_of_length_pos (by omega : 0 < l.length))
  have hne : l ≠ [] := by
    rintro rfl
    simp at hlen
  have hrest : ∅ ∉ l := fun hmem => h (.tail _ hmem)
  change Operator.symmetricDifference.onFed [Operator.union.onFed (a :: l), Operator.union.onFed l] = _
  rw [Operator.onFed_of_notMem h, Operator.onFed_of_notMem hrest, Operator.onFed_of_notMem]
  · ext x
    rw [Operator.overSets_pair, Operator.onSets, Set.mem_symmDiff, Operator.mem_overSets_union,
      Operator.mem_overSets_union, Operator.overSets, Operator.mem_foldl_difference]
    simp
    tauto
  · simpa using ⟨(Operator.overSets_union_ne_empty (by simp) h).symm,
      (Operator.overSets_union_ne_empty hne hrest).symm⟩

theorem meet_self : (extents (α := α)).meet a a = ∅ := by
  refine Operator.onFed_of_mem (.tail _ (List.mem_singleton.2 ?_))
  refine (Set.eq_empty_of_forall_notMem fun x hx => ?_).symm
  have hmem : x ∈ a ∆ a := hx.2
  rw [symmDiff_self] at hmem
  exact hmem

theorem meet_empty_left : (extents (α := α)).meet ∅ b = ∅ := by
  refine Operator.onFed_of_mem ?_
  have hunion : (extents (α := α)).node .union [∅, b] = ∅ := Operator.onFed_of_mem (by simp)
  rw [hunion]
  exact List.mem_cons_self

theorem meet_of_ne (hb : b ≠ ∅) (hab : a ≠ b) : (extents (α := α)).meet a b = a ∩ b := by
  by_cases ha : a = ∅
  · rw [ha, meet_empty_left, Set.empty_inter]
  have hfed : ∅ ∉ [a, b] := by simp [Ne.symm ha, Ne.symm hb]
  have hdelta : a ∆ b ≠ ∅ := fun h => hab (symmDiff_eq_bot.1 h)
  have hunion : a ∪ b ≠ ∅ := fun h => ha (Set.union_empty_iff.1 h).1
  change Operator.symmetricDifference.onFed [Operator.union.onFed [a, b],
    Operator.symmetricDifference.onFed [a, b]] = _
  rw [Operator.onFed_of_notMem hfed, Operator.onFed_of_notMem hfed, Operator.onFed_of_notMem]
  · ext x
    simp only [Operator.overSets_pair, Operator.onSets, Set.mem_symmDiff, Set.mem_union, Set.mem_inter_iff]
    tauto
  · simpa [Operator.overSets_pair, Operator.onSets] using ⟨hunion.symm, hdelta.symm⟩

theorem foldl_meet_empty : l.foldl (extents (α := α)).meet ∅ = ∅ := by
  induction l with
  | nil => rfl
  | cons b l ih => rw [List.foldl_cons, meet_empty_left, ih]

/-- The tree for an intersection. The induction is on the sets that are still to come. -/
theorem foldl_meet (h : ∅ ∉ l) :
    (¬ Operator.Coincides (a :: l) →
      l.foldl (extents (α := α)).meet a = l.foldl Operator.intersection.onSets a) ∧
    (Operator.Coincides (a :: l) → l.foldl (extents (α := α)).meet a = ∅) := by
  induction l generalizing a with
  | nil => exact ⟨fun _ => rfl, fun hc => absurd hc Operator.not_coincides_singleton⟩
  | cons b l ih =>
    obtain ⟨hb, hl⟩ := not_or.1 (mt List.mem_cons.2 h)
    rw [Operator.coincides_cons_cons, List.foldl_cons, List.foldl_cons]
    by_cases hab : a = b
    · subst hab
      rw [meet_self, foldl_meet_empty]
      exact ⟨fun hc => absurd (.inl rfl) hc, fun _ => rfl⟩
    · rw [meet_of_ne (Ne.symm hb) hab]
      obtain ⟨hsame, hnone⟩ := ih (a := a ∩ b) hl
      exact ⟨fun hc => hsame fun h => hc (.inr h), fun hc => hnone (hc.resolve_left hab)⟩

theorem encoded_intersection (hlen : 2 ≤ l.length) (h : ∅ ∉ l) :
    (¬ Operator.Coincides l →
      (extents (α := α)).encoded .intersection l = Operator.intersection.overSets l) ∧
    (Operator.Coincides l → (extents (α := α)).encoded .intersection l = ∅) := by
  obtain ⟨a, l, rfl⟩ := List.exists_cons_of_ne_nil (List.ne_nil_of_length_pos (by omega : 0 < l.length))
  exact foldl_meet fun hmem => h (.tail _ hmem)

end Interpretation

namespace Estimate

open Propagation

variable {α : Type} [Scalar α] [Scalar.Ordered α] [Scalar.Reading α] {k : Family} {op : Operator}
  {r r' : Estimate α} {rs : List (Estimate α)} {a : Set (Value ℝ)} {l : List (Set (Value ℝ))}

theorem Shows.encoded (hop : op = .intersection ∨ op = .difference)
    (harity : op.arity.accepts rs.length) (h : List.Forall₂ (Shows k) rs l) :
    (interpretation.encoded op rs).Shows k ((Interpretation.extents (α := α)).encoded op l) := by
  have hsifts := Operator.sifts hop
  refine Interpretation.encoded_related (fun op' rs l hbasis _ hkind harity h => ?_) hsifts.encodes harity h
  rw [hsifts.set] at hkind
  have hkeeps : keepsExactness op' ∧ op'.arity.accepts 0 = false := by
    revert hbasis hkind
    cases op' <;> decide
  refine Shows.combine hkeeps.1 (fun hnil => ?_) h
  rw [hnil, List.length_nil, hkeeps.2] at harity
  cases harity

end Estimate

end ParameterSolver
