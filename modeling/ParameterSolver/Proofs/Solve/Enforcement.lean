import ParameterSolver.Proofs.Blueprint.Inference
import ParameterSolver.Proofs.Pass.Enforcement
import ParameterSolver.Proofs.Solve.NormalForm

/-! Declared domains and bounds hold in every generation of a solve. Each pass goes on enforcing them, so
that in each generation a parameter has become one that is restricted to what was declared of it, and
one sweep is enough to see it. -/

namespace ParameterSolver

open Pass

variable {α : Type} [Scalar α] {deduplicate : Bool} {x j : NodeId} {q r : Parameter α}
  {g g' : Generation α} {steps : List (NodeMap NodeId)} {rev : Revision α}

namespace Pass

/-- Every pass goes on enforcing what parameters have to lie in. -/
theorem maintains_pipeline (hg : g.Sound) {pass : Pass α} (hpass : pass ∈ pipeline)
    (h : pass.apply deduplicate journal g = .ok (rev, journal')) : rev.Maintains g := by
  simp only [pipeline, List.mem_cons, List.not_mem_nil, or_false] at hpass
  rcases hpass with rfl | rfl | rfl | rfl | rfl
  · exact maintains_domains hg.acyclic h
  · exact maintains_assertions hg.acyclic h
  · exact maintains_leaves hg.acyclic h
  · exact maintains_operators hg h
  · exact maintains_nesting hg h

end Pass

namespace Progress

variable {p p' : Progress α}

/-- In the graph that the steps lead to, `x` has become a parameter with the domain of `q`, and what `q`
had to lie in is enforced there. -/
structure Stage (x : NodeId) (q : Parameter α) (g : Generation α) (steps : List (NodeMap NodeId)) :
    Prop where
  acyclic : g.Acyclic
  parameter : ∃ j r, resolveThrough? steps x = some j ∧ g.node? j = some (.parameter r) ∧
    r.domain = q.domain ∧ ∀ w, q.within = some w → g.Enforces j r w

/-- All graphs so far guard the parameter, each after the steps that led to it. -/
abbrev Guards (x : NodeId) (q : Parameter α) (p : Progress α) : Prop := Stages (Stage x q) p

theorem guards_start (hg : g.Acyclic) (hx : g.node? x = some (.parameter q))
    (hw : ∀ w, q.within = some w → w.family = q.values.family) :
    Guards x q ⟨g, [], [], .empty⟩ :=
  stages_start ⟨hg, x, q, rfl, hx, rfl, fun w h => .within h ⟨hw w h, rfl⟩⟩

theorem Guards.advance {pass : Pass α} (h : Guards x q p) (hp : Healthy p) (hp' : Healthy p')
    (hpass : pass ∈ Pass.pipeline) (hadv : Advance deduplicate pass p p' rev) : Guards x q p' := by
  refine Stages.advance h hadv fun hdirty => ?_
  obtain ⟨_, happly⟩ := hadv.apply
  obtain ⟨hcurrent, -, -⟩ := hadv.published hdirty
  obtain ⟨k, m, hk, hm, hdomain, henforces⟩ := h.current.parameter
  obtain ⟨j, r, hj, hr, hdomain', henforces'⟩ := maintains_pipeline hp.current hpass happly k m hm
  refine ⟨hp'.current.acyclic, j, r, ?_, hcurrent ▸ hr, hdomain'.trans hdomain,
    fun w hw => hcurrent ▸ henforces' w (henforces w hw)⟩
  rw [resolveThrough?_append, hk]
  exact hj

theorem Course.guards {dirty : Bool} (h : Course deduplicate Pass.pipeline p p' dirty)
    (hguards : Guards x q p) : Guards x q p' :=
  h.invariant hguards fun _ hpass _ _ _ hp hp' hadv hguards => hguards.advance hp hp' hpass hadv

end Progress

section Points

variable [Scalar.Ordered α] [Scalar.Reading α]

omit [Scalar.Ordered α] in
/-- The values of a domain, in base units, are the same whatever unit they are written in. -/
theorem Parameter.points_values (h : r.domain = q.domain) : r.values.points = q.values.points := by
  unfold Parameter.values
  rw [h]
  rcases q.domain with ⟨_ | _, _ | _, _⟩ | _ | _ | _ <;> rfl

omit [Scalar.Ordered α] in
theorem Analysis.exists_superset {a : Analysis α} {s : ValueSet α}
    (hj : a.generation.node? j = some (.parameter r)) (hs : a.value? j = some s) :
    ∃ t, a.superset j = .ok t ∧ t.points = s.points := by
  unfold Analysis.superset
  rw [hj, hs]
  cases s <;> exact ⟨_, rfl, rfl⟩

/-- What is known of a parameter at a stage of a solve. -/
theorem Progress.Stage.superset (h : Stage x q g steps) {budget : ℕ} (hbudget : 0 < budget)
    (hw : ∀ w, q.within = some w → w.Canonical ∧ w.isEmpty = false) :
    ∃ j t, (Analysis.ofSteps g budget steps).resolve? x = some j ∧
      (Analysis.ofSteps g budget steps).superset j = .ok t ∧ t.points ⊆ q.values.points ∧
      ((Analysis.ofSteps g budget steps).isSatisfiable →
        ∀ w, q.within = some w → t.points ⊆ w.points) := by
  obtain ⟨j, r, hj, hr, hdomain, henforces⟩ := h.parameter
  obtain ⟨s, hs, hbounds⟩ := Propagation.bounds_run hr budget
  obtain ⟨t, ht, htpoints⟩ :=
    Analysis.exists_superset (a := Analysis.ofSteps g budget steps) hr hs
  refine ⟨j, t, ?_, ht, ?_, fun hsat w hqw => ?_⟩
  · exact Option.filter_eq_some_iff.2 ⟨hj, Generation.contains_of_node? hr⟩
  · rw [htpoints, ← Parameter.points_values hdomain]
    exact hbounds.values
  · obtain ⟨hcanonical, hne⟩ := hw w hqw
    rw [htpoints]
    exact (henforces w hqw).subset h.acyclic hr hcanonical hne hbudget
      (Analysis.isSatisfiable_iff.1 hsat) hs

end Points

/-! A graph to look at: a number that is not negative and has to lie between minus five and ten. -/

namespace Sample

def filling : Parameter Float :=
  { domain := .nonNegative, unit := .one, within := some (.interval (-5) 10 .one) }

def tank : Blueprint Float := (Blueprint.empty.addParameter filling).2

theorem filling_admits (w : ValueSet Float) (h : filling.within = some w) : filling.Admits w := by
  cases h
  exact ⟨canonical_ofUnits (canonical_ofBounds? _ _) .one, by decide +kernel, rfl, by rintro _ _ ⟨⟩⟩

/-- The parameter is restricted by itself, by two assertions, and by two that say that those hold. -/
theorem tank_solved : ∃ s, solve {} tank.generation = .ok s ∧ s.generations.length = 3 ∧
    ∀ i stage, s.generations[i]? = some stage →
      (Analysis.ofSteps stage 1 (s.mappings.take i)).isSatisfiable := by
  have hok : ((solve {} tank.generation).toOption.any fun s => s.generations.length == 3 &&
      s.generations.zipIdx.all fun (stage, i) =>
        (Analysis.ofSteps stage 1 (s.mappings.take i)).isSatisfiable) := by
    decide +kernel
  cases hs : solve {} tank.generation with
  | error e =>
    rw [hs] at hok
    cases hok
  | ok s =>
    rw [hs] at hok
    obtain ⟨hlength, hall⟩ := Bool.and_eq_true_iff.1 hok
    refine ⟨s, rfl, eq_of_beq hlength, fun i stage hi => ?_⟩
    exact List.all_eq_true.1 hall (stage, i) (List.mk_mem_zipIdx_iff_getElem?.2 hi)

end Sample

/-- In every generation of a solve a parameter of the first one has become a parameter all of whose
values, in base units, are in its domain and, unless a contradiction is reported there, in the bound
that was declared for it. -/
theorem superset_of_solve {b : Blueprint Float} {g : Generation Float} (hb : b.Reachable)
    (h : b.build = .ok g) {config : Config} {s : Solution Float} (hs : solve config g = .ok s)
    {i : ℕ} {stage : Generation Float} (hi : s.generations[i]? = some stage) {x : NodeId}
    {p : Parameter Float} (hp : g.node? x = some (.parameter p))
    (hw : ∀ w, p.within = some w → p.Admits w) {budget : ℕ} (hbudget : 0 < budget) :
    ∃ j t, (Analysis.ofSteps stage budget (s.mappings.take i)).resolve? x = some j ∧
      (Analysis.ofSteps stage budget (s.mappings.take i)).superset j = .ok t ∧
      t.points ⊆ p.values.points ∧
      ((Analysis.ofSteps stage budget (s.mappings.take i)).isSatisfiable →
        ∀ w, p.within = some w → t.points ⊆ w.points) := by
  obtain ⟨q, n, hr, -, hgenerations, hmaps⟩ := runRounds_of_solve hs
  have hg := hb.sound h
  have hstart : Progress.Healthy (⟨g, [], [], .empty⟩ : Progress Float) := ⟨hg, by simp⟩
  obtain ⟨q₁, hcourse, hguards⟩ := hstart.of_runRounds (I := Progress.Guards x p)
    (Progress.guards_start hg.acyclic hp fun w hpw => (hw w hpw).family hg.acyclic h hp hpw)
    (fun hcourse hguards => hcourse.guards hguards) hr
  rw [hgenerations] at hi
  rw [hmaps]
  exact ((hcourse.guards hguards).stages i stage hi).superset hbudget
    fun w hpw => ⟨(hw w hpw).canonical, (hw w hpw).nonempty⟩

theorem superset_of_solve_tank : Sample.tank.build = .ok Sample.tank.generation ∧
    ∃ s, solve {} Sample.tank.generation = .ok s ∧ s.generations.length = 3 ∧
      ∀ i stage, s.generations[i]? = some stage → ∃ j t,
        (Analysis.ofSteps stage 1 (s.mappings.take i)).resolve? (.nth 0) = some j ∧
        (Analysis.ofSteps stage 1 (s.mappings.take i)).superset j = .ok t ∧
        t.points ⊆ Sample.filling.values.points ∧
        t.points ⊆ (ValueSet.interval (-5) 10 .one : ValueSet Float).points := by
  have hbuild : Sample.tank.build = .ok Sample.tank.generation := by
    rfl
  obtain ⟨s, hs, hlength, hsat⟩ := Sample.tank_solved
  refine ⟨hbuild, s, hs, hlength, fun i stage hi => ?_⟩
  obtain ⟨j, t, hj, ht, hvalues, hbound⟩ := superset_of_solve (.parameter .empty _) hbuild hs hi
    (x := .nth 0) rfl Sample.filling_admits Nat.one_pos
  exact ⟨j, t, hj, ht, hvalues, hbound (hsat i stage hi) _ rfl⟩

end ParameterSolver
