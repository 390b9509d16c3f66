import ParameterSolver.Proofs.Pass.Ascending
import ParameterSolver.Proofs.Solve.Convergence

/-! The warnings of a solve. The first round comes to the pass over the operators with operands before
their users and with as many reported operators as there were in the beginning; after that pass there
are none, and no round brings them back. -/

namespace ParameterSolver

open Draft Pass

variable {α : Type} [Scalar α] {g : Generation α} {deduplicate : Bool} {journal journal' : Journal}
  {rev : Revision α}

namespace Pass

omit [Scalar α] in
theorem reported_eq_zero (hbasis : g.All Node.InBasis) : g.reported = 0 := by
  refine List.countP_eq_zero.2 fun x hx hop => ?_
  have hcanon := op_of_inBasis hbasis (Generation.mem_expressions.1 hx)
  rw [Operator.isCanonical_of_isReported hop] at hcanon
  cases hcanon

/-- What the first three passes keep. -/
structure Prepared (g g' : Generation α) : Prop where
  reported : g'.reported = g.reported
  ascending : g.Ascending → g'.Ascending
  inBasis : g.All Node.InBasis → g'.All Node.InBasis

omit [Scalar α] in
theorem Prepared.trans {g' g'' : Generation α} (h : Prepared g g') (h' : Prepared g' g'') :
    Prepared g g'' :=
  ⟨h'.reported.trans h.reported, h'.ascending ∘ h.ascending, h'.inBasis ∘ h.inBasis⟩

omit [Scalar α] in
theorem Prepared.of_next {g' : Generation α} {dirty : Bool} {mapping : NodeMap NodeId}
    (hreported : g'.reported = g.reported) (hasc : g'.Ascending)
    (hbasis : g.All Node.InBasis → (Revision.next ⟨g', dirty, mapping⟩ g).All Node.InBasis) :
    Prepared g (Revision.next ⟨g', dirty, mapping⟩ g) := by
  refine ⟨?_, fun h => ?_, hbasis⟩ <;> unfold Revision.next <;> split_ifs
  · exact hreported
  · rfl
  · exact hasc
  · exact h

theorem prepared_domains (hg : g.Acyclic)
    (h : (domains : Pass α).apply deduplicate journal g = .ok (rev, journal')) :
    Prepared g (rev.next g) := by
  have hbasis := fun hb : g.All Node.InBasis =>
    all_domains hg h (fun i m hm _ => hb i m hm) (fun _ _ _ _ => by simp [Node.InBasis])
      fun _ _ _ _ _ _ => ⟨by simp [Node.InBasis], by rintro e ⟨⟩; rfl⟩
  obtain ⟨d, hd, rfl⟩ := outcome_domains hg h
  refine .of_next (hd.reported_eq (R := fun _ n => n.isReported = false) ?_ ?_ fun _ _ hn => hn)
    (hd.ascending images_domains) hbasis
  · rintro d i n ⟨p, s, -, -, rfl | ⟨js, rfl⟩⟩ <;> rfl
  · rintro i m n hm ⟨p, hp, rfl⟩
    cases hm.symm.trans hp
    rfl

theorem prepared_assertions (hg : g.Acyclic)
    (h : (assertions : Pass α).apply deduplicate journal g = .ok (rev, journal')) :
    Prepared g (rev.next g) := by
  have hbasis := fun hb : g.All Node.InBasis => inBasis_assertions hg hb h
  obtain ⟨d, hd, rfl⟩ := outcome_assertions hg h
  refine .of_next (hd.reported_eq (R := fun _ n => n.isReported = false) ?_ ?_ fun _ _ hn => hn)
    (hd.ascending images_assertions) hbasis
  · rintro d i n (rfl | ⟨inner, k, rfl, -⟩) <;> rfl
  · rintro i m n hm ⟨e, he, rfl⟩
    cases hm.symm.trans he
    rfl

theorem prepared_leaves (hg : g.Acyclic)
    (h : (leaves : Pass α).apply deduplicate journal g = .ok (rev, journal')) :
    Prepared g (rev.next g) := by
  have hleaf : ∀ {n m : Node α}, retouched? n = some m → n.isReported = false ∧ m.isReported = false := by
    intro n m hm
    refine ⟨?_, by rw [Node.isReported, expression?_of_retouched? hm]; rfl⟩
    cases n with
    | expression e => cases hm
    | _ => rfl
  have hbasis := fun hb : g.All Node.InBasis =>
    all_leaves hg h (fun i m hm _ => hb i m hm) fun _ _ m _ hm e he => by
      have hnone := expression?_of_retouched? hm
      rw [he] at hnone
      cases hnone
  obtain ⟨d, hd, rfl⟩ := outcome_leaves hg h
  refine .of_next (hd.reported_eq (R := fun _ _ => False) (fun _ _ _ h => h) ?_ fun _ _ hn => hn.elim)
    (hd.ascending images_leaves) hbasis
  rintro i m n hm ⟨n', hn', hret⟩
  cases hm.symm.trans hn'
  rw [(hleaf hret).1, (hleaf hret).2]

/-- The pass over the operators has nothing to warn of on a graph over the basis. -/
theorem warnings_operators_of_inBasis (hbasis : g.All Node.InBasis)
    (h : (operators : Pass α).apply deduplicate journal g = .ok (rev, journal')) :
    journal'.count .warn = journal.count .warn := by
  obtain ⟨d, d', hr, hclose, rfl⟩ := runs_of_apply_journal h
  obtain ⟨-, rfl⟩ := hr.unique (runs_operators_of_inBasis hbasis)
  exact (minds_close _ d' hclose).warnings

end Pass

namespace Progress

variable {p p' : Progress α} {dirty : Bool}

/-- What a pass reports is what its edits report. -/
theorem Advance.warnings {pass : Pass α} (h : Advance deduplicate pass p p' rev) :
    ∃ journal', pass.apply deduplicate p.journal p.current = .ok (rev, journal') ∧
      p'.journal.count .warn = journal'.count .warn := by
  have hrun := h.runPass
  unfold Progress.runPass at hrun
  obtain ⟨⟨rev', journal'⟩, happly, hrest⟩ := bind_eq_ok.1 hrun
  obtain ⟨_, happly'⟩ := h.apply
  cases happly.symm.trans happly'
  refine ⟨journal', happly, ?_⟩
  dsimp only at hrest
  split_ifs at hrest
  · obtain ⟨rfl, -⟩ := Prod.mk.inj (Except.ok.inj hrest)
    rfl
  · obtain ⟨_, -, hrest⟩ := bind_eq_ok.1 hrest
    obtain ⟨rfl, -⟩ := Prod.mk.inj (Except.ok.inj hrest)
    exact Journal.count_add_of_ne (by decide) _ _

theorem Advance.quiet {pass : Pass α} (h : Advance deduplicate pass p p' rev)
    (hpass : ∀ d : Draft α, Minds Set.univ pass.run d) :
    p'.journal.count .warn = p.journal.count .warn := by
  obtain ⟨journal', happly, hcount⟩ := h.warnings
  exact hcount.trans (warnings_of_minds hpass happly)

/-- The warnings that are still to come are those of the reported operators that are still there. -/
structure Forewarned (k : ℕ) (p : Progress α) : Prop where
  warnings : p.journal.count .warn + p.current.reported = k
  order : p.current.Ascending ∨ p.current.All Node.InBasis

/-- A round warns of all reported operators and leaves none. -/
theorem Course.warnings {k : ℕ} (h : Course deduplicate Pass.pipeline p p' dirty)
    (hp : Forewarned k p) : p'.journal.count .warn = k ∧ p'.current.All Node.InBasis := by
  rcases h with _ | ⟨h₁, a₁, _ | ⟨h₂, a₂, _ | ⟨h₃, a₃, _ | ⟨h₄, a₄, _ | ⟨h₅, a₅, ⟨-⟩⟩⟩⟩⟩⟩
  obtain ⟨_, r₁⟩ := a₁.apply
  obtain ⟨_, r₂⟩ := a₂.apply
  obtain ⟨_, r₃⟩ := a₃.apply
  obtain ⟨_, r₄, hcount₄⟩ := a₄.warnings
  obtain ⟨_, r₅⟩ := a₅.apply
  have hprepared := ((a₁.current ▸ prepared_domains h₁.current.acyclic r₁).trans
    (a₂.current ▸ prepared_assertions h₂.current.acyclic r₂)).trans
    (a₃.current ▸ prepared_leaves h₃.current.acyclic r₃)
  have hbasis₄ := a₄.current ▸ inBasis_operators h₄.current r₄
  refine ⟨?_, a₅.current ▸ all_nesting h₅.current r₅ hbasis₄⟩
  rw [a₅.quiet minds_nesting, hcount₄, ← hp.warnings]
  have hquiet := (a₃.quiet minds_leaves).trans ((a₂.quiet minds_assertions).trans (a₁.quiet minds_domains))
  rcases hp.order with hasc | hbasis
  · rw [warnings_operators h₄.current (hprepared.ascending hasc) r₄, hquiet, hprepared.reported]
  · rw [warnings_operators_of_inBasis (hprepared.inBasis hbasis) r₄, hquiet, reported_eq_zero hbasis]
    rfl

theorem Course.forewarned {k : ℕ} (h : Course deduplicate Pass.pipeline p p' dirty)
    (hp : Forewarned k p) : Forewarned k p' := by
  obtain ⟨hcount, hbasis⟩ := h.warnings hp
  exact ⟨by rw [reported_eq_zero hbasis, hcount]; rfl, Or.inr hbasis⟩

end Progress

/-- A solve reports what its rounds report, and that it is done. -/
theorem journal_of_solve {config : Config} {s : Solution α} (h : solve config g = .ok s) :
    ∃ p n, Progress.runRounds config.deduplicate config.maxRounds 0 ⟨g, [], [], .empty⟩ = .ok (p, n) ∧
      s.journal.count .warn = p.journal.count .warn := by
  unfold solve at h
  obtain ⟨_, -, h₁⟩ := Progress.bind_eq_ok.1 h
  obtain ⟨⟨p, n⟩, hr, h₂⟩ := Progress.bind_eq_ok.1 h₁
  refine ⟨p, n, hr, ?_⟩
  dsimp only at h₂
  split at h₂
  · cases h₂
  · cases h₂
    exact Journal.count_add_of_ne (by decide) _ _

/-- A solve warns once for every strict comparison and for every operator without a law of the graph
that was built, whether or not it goes with an operand, in however many rounds. -/
theorem warnings_of_solve {b : Blueprint α} (hb : b.Reachable) (h : b.build = .ok g)
    {config : Config} {s : Solution α} (hs : solve config g = .ok s) :
    s.journal.count .warn = g.countOp .greaterThan + g.countOp .lessThan + g.countOp .cardinality
      + g.countOp .differentiate + g.countOp .integrate := by
  obtain ⟨p, n, hr, hcount⟩ := journal_of_solve hs
  have hstart : Progress.Healthy (⟨g, [], [], .empty⟩ : Progress α) := ⟨hb.sound h, by simp⟩
  have hasc : g.Ascending := (Blueprint.of_build h).2 ▸ (Blueprint.sane_of_reachable hb).ascending
  obtain ⟨p₁, hlast, hfore⟩ := hstart.of_runRounds (I := Progress.Forewarned g.reported)
    ⟨Nat.zero_add _, Or.inl hasc⟩ (fun hcourse hp => hcourse.forewarned hp) hr
  rw [hcount, (hlast.warnings hfore).1, g.reported_eq]

/-! A graph to look at: the size of `x` is to be greater than `y`, and `x` less than `y`. The first
comparison goes with its operand. -/

namespace Sample

def strict : Blueprint Float :=
  let b := (Blueprint.empty.addParameter .real).2
  let b := (b.addParameter .real).2
  let b := (b.addExpression .cardinality [.nth 0]).2
  let b := (b.addAssertion .greaterThan [.nth 2, .nth 1]).2
  (b.addAssertion .lessThan [.nth 0, .nth 1]).2

theorem strict_reachable : strict.Reachable :=
  .assertion (.assertion (.expression (.parameter (.parameter .empty _) _) _ _) _ _) _ _

end Sample

theorem warnings_of_solve_strict : Sample.strict.build = .ok Sample.strict.generation ∧
    ∃ s, solve {} Sample.strict.generation = .ok s ∧ s.journal.count .warn = 3 := by
  have hbuild : Sample.strict.build = .ok Sample.strict.generation := by
    rfl
  have hok : (solve {} Sample.strict.generation).isOk := by
    decide +kernel
  cases hs : solve {} Sample.strict.generation with
  | error e =>
    rw [hs] at hok
    cases hok
  | ok s =>
    exact ⟨hbuild, s, rfl, (warnings_of_solve Sample.strict_reachable hbuild hs).trans (by decide)⟩

end ParameterSolver
