import ParameterSolver.Proofs.Pass.Witness

/-! The pass over all operators outside the basis keeps the models. -/

namespace ParameterSolver

open Exact ParameterSolver.Valuation Operand Draft

namespace Pass

variable {g : Generation Exact} {T : Set NodeId} {d d' : Draft Exact} {id a b : NodeId}
  {e : Expression} {asserted : Bool} {r : Option Unit}

theorem compares_flip_iff {s t : Set (Value ℚ)} {x : Value ℚ} :
    Compares (· ≤ ·) s t x ↔ Compares (· ≥ ·) t s x := ⟨Compares.flip, Compares.flip⟩

theorem settled_relax (hg : g.Tame) (h : Simulates g ∅ T (fun _ => True) ∅ d) (hT : id ∉ T)
    {op : Operator} (hn : g.node? id = some (.expression ⟨op, [a, b], asserted⟩)) {a' b' : NodeId}
    (hl : ∀ o ∈ [a', b'], o = a ∨ o = b) (hu : op ≠ .union)
    (hiff : ∀ (read : NodeId → Reading) x, op.relaxed.Denotes [read a, read b] x ↔
      Operator.greaterOrEqual.Denotes [read a', read b'] x)
    (hr : LawRuns (relax id a' b') d r d') : Settled g T id r d' := by
  unfold relax at hr
  rw [lawRuns_get_bind] at hr
  obtain ⟨_, d₁, hal, hr₁⟩ := hr.step (Q := fun _ d₁ => Alike d d₁) fun r d₁ hr => by
    obtain ⟨x, hx, rfl⟩ := lawRuns_lift.1 hr
    exact ⟨x, rfl, runs_log hx⟩
  exact settled_relation hg (h.alike hal) hT hn .greaterOrEqual hl hu (by decide) (by decide) hiff hr₁

/-- The law of an operator outside the basis. -/
theorem settled_applyLaw (hg : g.Tame) (hga : g.Arranged)
    (h : Simulates g ∅ T (fun _ => True) ∅ d) (hT : id ∉ T)
    (hn : g.node? id = some (.expression e)) (hop : e.op.isCanonical = false)
    (hr : LawRuns (applyLaw id e) d r d') : Settled g T id r d' := by
  obtain ⟨op, operands, asserted⟩ := e
  have harity := hga id _ hn
  have hmeant := (hg.admits id _ hn _ rfl).1
  dsimp only at hop harity hmeant
  cases op
  case subtract =>
    obtain ⟨first, rest, rfl⟩ := Arity.eq_cons harity
    exact settled_subtract hg h hT hn hr
  case divide =>
    obtain ⟨a, b, rfl⟩ := Arity.eq_pair harity
    exact settled_divide hg h hT hn hr
  case floor =>
    obtain ⟨a, rfl⟩ := Arity.eq_singleton harity
    exact settled_floor hg h hT hn hr
  case ceil =>
    obtain ⟨a, rfl⟩ := Arity.eq_singleton harity
    exact settled_ceil hg h hT hn hr
  case min => exact settled_witness hg h hT true hn hr
  case max => exact settled_witness hg h hT false hn hr
  case and => exact settled_and hg h hT hn hr
  case implies =>
    obtain ⟨first, rest, rfl⟩ := Arity.eq_cons harity
    exact settled_implies hg h hT hn hr
  case xor => exact settled_xor hg h hT hn hr
  case lessOrEqual =>
    obtain ⟨a, b, rfl⟩ := Arity.eq_pair harity
    exact settled_relation hg h hT (l := [b, a]) hn .greaterOrEqual (by simp) (by decide) (by decide)
      (by decide) (fun _ _ => compares_flip_iff) hr
  case isSuperset =>
    obtain ⟨a, b, rfl⟩ := Arity.eq_pair harity
    exact settled_relation hg h hT (l := [b, a]) hn .isSubset (by simp) (by decide) (by decide)
      (by decide) (fun _ _ => Iff.rfl) hr
  case greaterThan =>
    obtain ⟨a, b, rfl⟩ := Arity.eq_pair harity
    exact settled_relax hg h hT hn (by simp) (by decide) (fun _ _ => Iff.rfl) hr
  case lessThan =>
    obtain ⟨a, b, rfl⟩ := Arity.eq_pair harity
    exact settled_relax hg h hT hn (by simp) (by decide) (fun _ _ => compares_flip_iff) hr
  -- the others are in the basis or have no meaning
  all_goals simp_all [Operator.isCanonical, Operator.has, Operator.having, Operator.meant]

theorem simulates_canonize (hg : g.Tame) (hga : g.Arranged) {r : PUnit}
    (h : Simulates g ∅ T (fun _ => True) ∅ d) (hT : id ∉ T)
    (hn : g.node? id = some (.expression e)) (hr : Runs (canonize id e) d r d') :
    Simulates g ∅ (T ∪ {id}) (fun _ => True) ∅ d' := by
  unfold canonize at hr
  rw [runs_get_bind] at hr
  split_ifs at hr with hskip
  · obtain ⟨-, rfl⟩ := runs_pure.1 hr
    exact h.mono Set.subset_union_left
  · simp only [Bool.or_eq_true, not_or, Bool.not_eq_true] at hskip
    obtain ⟨r', d₁, hlaw, hr₁⟩ := runs_bind.1 hr
    obtain ⟨rfl, h'⟩ := settled_applyLaw hg hga h hT hn hskip.1 hlaw
    obtain ⟨-, rfl⟩ := runs_pure.1 hr₁
    exact h'

theorem refines_operators (hg : g.Tame) (hga : g.Arranged) {deduplicate : Bool}
    {journal journal' : Journal} {rev : Revision Exact}
    (h : operators.apply deduplicate journal g = .ok (rev, journal')) :
    Refines g rev.generation rev.mapping := by
  refine refines_of_apply hg (fun d d' hd hr => ?_) h
  unfold operators at hr
  dsimp only at hr
  rw [runs_get_bind, hd.input] at hr
  refine hd.forM Generation.nodup_expressions (fun x hx T d d' r hT h hr => ?_) hr
  exact simulates_canonize hg hga h hT (Generation.mem_expressions.1 hx) hr

end Pass

end ParameterSolver
