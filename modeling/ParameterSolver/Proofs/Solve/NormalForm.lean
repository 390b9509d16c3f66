import ParameterSolver.Proofs.Scalar.Machine
import ParameterSolver.Proofs.Solve.Convergence

/-! The graph that a solve ends with. Its last round changes nothing, so no pass finds anything that
is not as it leaves it. -/

namespace ParameterSolver

open Pass

variable {α : Type} [Scalar α] {g : Generation α}

namespace Generation

/-- There is nothing to do for any pass. -/
structure Settled (g : Generation α) : Prop extends g.Tidy where
  trim : ∀ id e, ¬ Overgrown g id e

/-- What a finished graph looks like. -/
structure NormalForm (g : Generation α) : Prop where
  constants : ∀ id c, g.node? id ≠ some (.constant c)
  operators : ∀ id e, g.node? id = some (.expression e) → e.op.isCanonical
  assertions : ∀ id e, g.node? id = some (.expression e) → e.asserted →
    e.op = .is ∧ ∃ o ∈ e.operands, ∃ u, g.node? o = some (.literal (.truth true) u)
  parameters : ∀ id p, g.node? id = some (.parameter p) →
    p.domainApplied ∧ p.within = none ∧ p.unit.isOne
  literals : ∀ id q u, g.node? id = some (.literal (.numeric q) u) → q.unit.isOne
  flat : ∀ id e, g.node? id = some (.expression e) → e.asserted = false →
    e.op ∈ [Operator.add, .multiply, .or, .union] → ∀ user e', g.users id = [user] →
    g.node? user = some (.expression e') → e'.op ≠ e.op
  distinct : ∀ id e, g.node? id = some (.expression e) → e.op ∈ [Operator.or, .union] →
    e.operands.Nodup

end Generation

/-- A round that changes nothing has found nothing to change. -/
theorem Progress.Course.settled {p p' : Progress α} {deduplicate : Bool}
    (h : Course deduplicate Pass.pipeline p p' false) (hassert : p.current.All Node.Assertable) :
    p'.current.Settled := by
  generalize hdirty : false = dirty at h
  rcases h with _ | ⟨h₁, a₁, _ | ⟨h₂, a₂, _ | ⟨h₃, a₃, _ | ⟨h₄, a₄, _ | ⟨h₅, a₅, ⟨-⟩⟩⟩⟩⟩⟩
  obtain ⟨_, r₁⟩ := a₁.apply
  obtain ⟨_, r₂⟩ := a₂.apply
  obtain ⟨_, r₃⟩ := a₃.apply
  obtain ⟨_, r₄⟩ := a₄.apply
  obtain ⟨_, r₅⟩ := a₅.apply
  obtain ⟨hd₁, hd₂, hd₃, hd₄, hd₅⟩ := by simpa using hdirty.symm
  -- every pass has left the graph as it was
  obtain ⟨hc₁, -⟩ := a₁.idle hd₁
  obtain ⟨hc₂, -⟩ := a₂.idle hd₂
  obtain ⟨hc₃, -⟩ := a₃.idle hd₃
  obtain ⟨hc₄, -⟩ := a₄.idle hd₄
  obtain ⟨hc₅, -⟩ := a₅.idle hd₅
  have hassert' : p'.current.All Node.Assertable := by rwa [hc₅, hc₄, hc₃, hc₂, hc₁]
  have happlied : p'.current.All Node.Applied := by
    rw [hc₅, hc₄, hc₃, hc₂, a₁.current]
    exact applied_domains h₁.current.acyclic r₁
  have hworded : p'.current.Worded := by
    rw [hc₅, hc₄, hc₃, a₂.current]
    exact worded_assertions h₂.current.acyclic (hc₁ ▸ hassert) r₂
  have hplain : p'.current.All Node.Plain := by
    rw [hc₅, hc₄, hc₃]
    exact plain_of_clean h₃.current.acyclic hd₃ r₃
  have hbasis : p'.current.All Node.InBasis := by
    rw [hc₅, a₄.current]
    exact inBasis_operators h₄.current r₄
  refine ⟨⟨(hassert'.and happlied).and (hplain.and hbasis), hworded⟩, fun id e hover => ?_⟩
  obtain ⟨d, hd, rfl⟩ := exists_compressed h₅.current r₅
  rw [hc₅] at hover
  rw [(hd.trimmed id e hover).2.1] at hd₅
  cases hd₅

/-- A parameter that stays as it is has the plain unit: if its unit were another one, the plain one
would be equal to it. -/
theorem isOne_of_plain [Scalar.Lawful α] {p : Parameter α} (h : (Node.parameter p).Plain) :
    p.unit.isOne := by
  by_contra hunit
  have hunits := one_beq_unit_of_retouched? h (Bool.eq_false_iff.2 hunit)
  obtain ⟨hexponents, hscale⟩ := Bool.and_eq_true_iff.1 hunits
  exact hunit (Bool.and_eq_true_iff.2 ⟨beq_iff_eq.2 (beq_iff_eq.1 hexponents).symm,
    Scalar.Lawful.symm hscale⟩)

theorem Generation.Settled.normalForm [Scalar.Lawful α] (h : g.Settled) (hg : g.Sound) :
    g.NormalForm where
  constants id c hc := by
    obtain ⟨s, hs⟩ := (hg.node hc).constant c rfl
    have hplain : retouched? (Node.constant c) = none := (h.nodes id _ hc).2.1
    rw [retouched?, hs] at hplain
    cases hplain
  operators id e he := op_of_inBasis (h.nodes.mono fun _ hn => hn.2.2) he
  assertions id e he hasserted := by
    obtain ⟨hop, o, ho, s, u, hn, htrue⟩ := saysTrue_iff.1 (h.worded id e he hasserted)
    refine ⟨hop, o, ho, u, ?_⟩
    cases s with
    | boolean b => rw [hn, eq_of_beq htrue]; rfl
    | _ => cases htrue
  parameters id p hp := by
    have happlied : isApplied p := (h.nodes id _ hp).1.2 p rfl
    have hplain : (Node.parameter p).Plain := (h.nodes id _ hp).2.1
    simp only [isApplied, Bool.and_eq_true, Option.isNone_iff_eq_none] at happlied
    exact ⟨happlied.1, happlied.2, isOne_of_plain hplain⟩
  literals id q u hq := by
    have hplain : retouched? (Node.literal (.numeric q) u) = none := (h.nodes id _ hq).2.1
    by_contra hunit
    simp [retouched?, carriedUnit?, ValueSet.unit?, ValueSet.quantities?, hunit] at hplain
  flat id e he hasserted hop user e' husers huser := by
    refine op_ne_of_not_overgrown hg h.trim he hasserted ?_ husers huser
    simp only [List.mem_cons, List.not_mem_nil, or_false] at hop
    rcases hop with hop | hop | hop | hop <;> rw [hop] <;> rfl
  distinct id e he hop := by
    refine nodup_operands_of_not_overgrown hg h.trim he ?_
    simp only [List.mem_cons, List.not_mem_nil, or_false] at hop
    rcases hop with hop | hop <;> rw [hop] <;> rfl

/-- Every solve of a graph that was built ends with a graph in normal form. -/
theorem normalForm_of_solve {b : Blueprint Float} {g : Generation Float} (hb : b.Reachable)
    (h : b.build = .ok g) {config : Config} {s : Solution Float} (hs : solve config g = .ok s) :
    s.last.NormalForm := by
  obtain ⟨p, n, hr, hlast, -, -⟩ := runRounds_of_solve hs
  have hstart : Progress.Healthy (⟨g, [], [], .empty⟩ : Progress Float) := ⟨hb.sound h, by simp⟩
  obtain ⟨p₁, hcourse, hassert⟩ := hstart.of_runRounds (I := fun p => p.current.All Node.Assertable)
    (hb.assertable h) (fun hcourse hassert => hcourse.assertable hassert) hr
  rw [hlast]
  exact (hcourse.settled hassert).normalForm hcourse.healthy.current

theorem Sample.overlap_solved : ∃ s, solve {} Sample.overlap.generation = .ok s := by
  have hok : (solve {} Sample.overlap.generation).isOk := by
    decide +kernel
  cases hs : solve {} Sample.overlap.generation with
  | error e =>
    rw [hs] at hok
    cases hok
  | ok s => exact ⟨s, rfl⟩

theorem normalForm_of_solve_overlap : Sample.overlap.build = .ok Sample.overlap.generation ∧
    ∃ s, solve {} Sample.overlap.generation = .ok s ∧ s.last.NormalForm := by
  have hbuild : Sample.overlap.build = .ok Sample.overlap.generation := by
    rfl
  obtain ⟨s, hs⟩ := Sample.overlap_solved
  exact ⟨hbuild, s, hs, normalForm_of_solve Sample.overlap_reachable hbuild hs⟩

end ParameterSolver
