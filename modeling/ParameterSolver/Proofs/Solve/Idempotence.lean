import ParameterSolver.Proofs.Solve.NormalForm

/-! Solving what a solve has come to. No pass finds anything to do there, so a single round goes by
that publishes nothing and has nothing to report, under any configuration. -/

namespace ParameterSolver

open Draft Pass

variable {α : Type} [Scalar α] {g : Generation α} {d d' : Draft α} {deduplicate : Bool}
  {journal : Journal}

omit [Scalar α] in
/-- Copying is all that happens where nothing is gone. -/
theorem Moves.untouched (h : Moves (fun _ a => ∃ i, a = .copy i ∨ a = .drop i) d d')
    (hd : d.Coherent) (hkept : ∀ i, d.isRemoved i = false) :
    d'.dirty = d.dirty ∧ d'.journal = d.journal := by
  refine ((h.invariant (I := fun d' => (∀ i, d'.isRemoved i = false) ∧ d'.dirty = d.dirty ∧
    d'.journal = d.journal) hd ⟨hkept, rfl, rfl⟩ fun d₁ a d₂ _ ha hmove hI => ?_).1).2
  obtain ⟨hkept₁, hsame⟩ := hI
  obtain ⟨i, rfl | rfl⟩ := ha
  · cases hmove with
    | copy => exact ⟨hkept₁, hsame⟩
  · cases hmove with
    | @drop _ _ o _ _ _ _ hremoved =>
      rw [hkept₁ o] at hremoved
      cases hremoved

namespace Pass

/-- The pass publishes nothing and reports nothing. -/
def Rests (pass : Pass α) (g : Generation α) : Prop :=
  ∀ deduplicate journal, ∃ rev, pass.apply deduplicate journal g = .ok (rev, journal) ∧
    rev.dirty = false

variable {pass : Pass α} {Q : Revision α → Prop}

theorem Gives.rests (h : pass.Gives g Q) (hg : g.Acyclic)
    (hrun : ∀ deduplicate journal d, Runs pass.run (start g deduplicate journal) ⟨⟩ d →
      Moves (fun _ a => ∃ i, a = .copy i ∨ a = .drop i) (start g deduplicate journal) d) :
    pass.Rests g := by
  intro deduplicate journal
  have hstart := coherent_start g deduplicate journal
  obtain ⟨rev, journal', happly, -⟩ := h deduplicate journal
  obtain ⟨d, d', hr, hclose, rfl⟩ := runs_of_apply_journal happly
  have hbody := hrun deduplicate journal d hr
  obtain ⟨hcopies, -, rfl⟩ := moves_close hg (hbody.coherent hstart) hbody.input hclose
  obtain ⟨hdirty, hjournal⟩ := (hbody.trans hcopies).untouched hstart
    (kept_start g deduplicate journal)
  rw [hjournal] at happly
  exact ⟨_, happly, hdirty⟩

theorem Gives.rests_of_idle (h : pass.Gives g Q) (hg : g.Acyclic)
    (hidle : ∀ deduplicate journal, Runs pass.run (start g deduplicate journal) ⟨⟩
      (start g deduplicate journal)) : pass.Rests g :=
  h.rests hg fun deduplicate journal d hr => by
    obtain ⟨-, rfl⟩ := hr.unique (hidle deduplicate journal)
    exact .refl _

theorem rests_domains (hg : g.Sound) (happlied : g.All Node.Applied) :
    (domains : Pass α).Rests g := by
  refine (gives_domains hg).rests_of_idle hg.acyclic fun deduplicate journal =>
    runs_get_bind.2 (runs_forM_idle fun x hx => ?_)
  have hx : (x.2.domainApplied && x.2.within.isNone) = true :=
    happlied x.1 _ (Generation.mem_parameters.1 hx) x.2 rfl
  change Runs (constrainParameter x.1 x.2) _ _ _
  unfold constrainParameter
  rw [if_pos hx]
  exact runs_pure.2 ⟨rfl, rfl⟩

theorem rests_assertions (hg : g.Sound) (hworded : g.Worded) :
    (assertions : Pass α).Rests g := by
  refine (gives_assertions hg).rests_of_idle hg.acyclic fun deduplicate journal =>
    runs_get_bind.2 (runs_forM_idle fun x hx => ?_)
  have htrue := hworded x.1 x.2 (Generation.mem_expressions.1 hx)
  change Runs (wrapAssertion x.1 x.2) _ _ _
  unfold wrapAssertion
  rw [runs_get_bind, if_pos]
  · exact runs_pure.2 ⟨rfl, rfl⟩
  · change (!x.2.asserted || !x.2.op.isPredicate || saysTrue g x.2) = true
    cases hasserted : x.2.asserted with
    | false => rfl
    | true => simp [htrue hasserted]

/-- A leaf with a unit that is as good as none is copied, so that this pass is not idle. -/
theorem rests_leaves (hg : g.Sound) (hplain : g.All Node.Plain) : (leaves : Pass α).Rests g := by
  refine (gives_leaves hg).rests hg.acyclic fun deduplicate journal d hr => ?_
  have hstart := coherent_start g deduplicate journal
  refine runs_forM (l := g.toList) (P := fun _ d => Moves (fun _ a => ∃ i, a = .copy i ∨ a = .drop i)
    (start g deduplicate journal) d) (fun done x rest hl d₁ d₂ _ hmoves hr => ?_)
    (List.nil_append _) (.refl _) (runs_get_bind.1 hr)
  have hn : g.node? x.1 = some x.2.node := by
    rw [Generation.node?, Generation.mem_toList.1 (hl ▸ by simp : x ∈ g.toList)]
    rfl
  have hgentle : Moves (Act.Gentle (fun _ => False) (fun _ _ _ => False) fun _ _ _ => False)
      (start g deduplicate journal) d₁ := hmoves.mono fun _ a ha => by
    obtain ⟨i, rfl | rfl⟩ := ha <;> trivial
  have hintact : Intact x.1 d₁ :=
    (hmoves.shaped (W := fun _ _ => False) (C := fun _ => True) (fun _ a ha => by
      obtain ⟨i, rfl | rfl⟩ := ha <;> trivial) hstart (shaped_start _ _)).intact
      (hmoves.coherent hstart) fun _ => id
  obtain ⟨hstep, -⟩ := moves_stripLeaf hg.acyclic (hmoves.coherent hstart) hmoves.input
    (hgentle.kept hstart (kept_start g deduplicate journal)) hn hintact hr
  have hunplain : ¬ Unplain g x.1 := by
    rintro ⟨n, hn', hsome⟩
    cases hn.symm.trans hn'
    have hnone : retouched? x.2.node.skeleton = none := hplain x.1 _ hn
    rw [← retouched?_skeleton, hnone] at hsome
    cases hsome
  refine hmoves.trans (hstep.mono fun _ a ha => ?_)
  cases a with
  | copy i => exact ⟨i, Or.inl rfl⟩
  | drop i => exact ⟨i, Or.inr rfl⟩
  | write | create => exact absurd (ha.1.1 ▸ ha.1.2) hunplain
  | note => exact absurd (ha.1 ▸ ha.2) hunplain
  | credit =>
    obtain ⟨i, ⟨rfl, hi⟩, -⟩ := ha
    exact absurd hi hunplain
  | erase | redirect => exact ha.elim

theorem rests_operators (hg : g.Sound) (hbasis : g.All Node.InBasis) :
    (operators : Pass α).Rests g :=
  (gives_operators hg).rests_of_idle hg.acyclic fun _ _ => runs_operators_of_inBasis hbasis

theorem rests_nesting (hg : g.Sound) (hbasis : ∀ id, ¬ g.Foreign id)
    (htrim : ∀ id e, ¬ Overgrown g id e) : (nesting : Pass α).Rests g :=
  (gives_nesting hg hbasis).rests_of_idle hg.acyclic fun _ _ => runs_nesting_of_not_overgrown htrim

end Pass

/-- No pass has anything to do where there is nothing to do. -/
theorem Generation.Settled.rests (h : g.Settled) (hg : g.Sound) :
    ∀ pass ∈ (Pass.pipeline : List (Pass α)), pass.Rests g := by
  have hbasis : g.All Node.InBasis := h.nodes.mono fun _ hn => hn.2.2
  simp only [Pass.pipeline, List.forall_mem_cons, List.not_mem_nil, false_implies, implies_true,
    and_true]
  refine ⟨rests_domains hg (h.nodes.mono fun _ hn => hn.1.2), rests_assertions hg h.worded,
    rests_leaves hg (h.nodes.mono fun _ hn => hn.2.1), rests_operators hg hbasis,
    rests_nesting hg ?_ h.trim⟩
  rintro id ⟨e, he, hforeign⟩
  rw [op_of_inBasis hbasis he] at hforeign
  cases hforeign

namespace Progress

variable {p : Progress α}

theorem runPass_of_rests {pass : Pass α} (h : pass.Rests p.current) :
    p.runPass deduplicate pass = .ok (p, false) := by
  obtain ⟨rev, happly, hdirty⟩ := h deduplicate p.journal
  unfold runPass
  rw [happly]
  simp [bind, Except.bind, hdirty, pure, Except.pure]

theorem runRound_of_rests (h : ∀ pass ∈ Pass.pipeline, pass.Rests p.current) :
    p.runRound deduplicate = .ok (p, false) := by
  have hpass : ∀ pass ∈ Pass.pipeline, p.runPass deduplicate pass = .ok (p, false) :=
    fun pass hmem => runPass_of_rests (h pass hmem)
  simp only [Pass.pipeline, List.forall_mem_cons] at hpass
  obtain ⟨h₁, h₂, h₃, h₄, h₅, -⟩ := hpass
  exact runRound_of_passes h₁ h₂ h₃ h₄ h₅

end Progress

/-- A solve of a graph on which all passes rest is over after one round. -/
theorem solve_of_rests {config : Config} (hg : g.Sound) (hrounds : 1 ≤ config.maxRounds)
    (h : ∀ pass ∈ Pass.pipeline, pass.Rests g) (hcanon : g.firstNonCanonical? = none) :
    solve config g = .ok ⟨[g], g, [], Journal.empty.add .info Progress.source
      ("canonical after " ++ toString 1 ++ " rounds and " ++ toString 1 ++ " generations"), 1,
      config.maxSweeps⟩ := by
  obtain ⟨budget, hbudget⟩ := Nat.exists_eq_add_of_le' hrounds
  have hround : Progress.runRound config.deduplicate ⟨g, [], [], .empty⟩ =
      .ok (⟨g, [], [], .empty⟩, false) := Progress.runRound_of_rests h
  have hrun : Progress.runRounds config.deduplicate config.maxRounds 0 ⟨g, [], [], .empty⟩ =
      .ok (⟨g, [], [], .empty⟩, 1) := by
    rw [hbudget, Progress.runRounds, hround]
    rfl
  unfold solve
  rw [hg.validate]
  simp only [bind, Except.bind, hrun, hcanon]
  rfl

/-- Solving again what a solve has come to changes nothing, under any configuration that allows a
round. -/
theorem solve_last_of_solve {b : Blueprint Float} {g : Generation Float} (hb : b.Reachable)
    (h : b.build = .ok g) {config : Config} {s : Solution Float} (hs : solve config g = .ok s)
    (config' : Config) (hrounds : 1 ≤ config'.maxRounds) :
    ∃ s', solve config' s.last = .ok s' ∧ s'.rounds = 1 ∧ s'.generations = [s.last] ∧
      s'.last = s.last ∧ s'.mappings = [] ∧ (∀ id, s'.resolve? id = some id) ∧
      s'.journal.warnings = [] := by
  obtain ⟨p, n, hr, hlast, -, -⟩ := runRounds_of_solve hs
  have hstart : Progress.Healthy (⟨g, [], [], .empty⟩ : Progress Float) := ⟨hb.sound h, by simp⟩
  obtain ⟨p₁, hcourse, hassert⟩ := hstart.of_runRounds (I := fun p => p.current.All Node.Assertable)
    (hb.assertable h) (fun hcourse hassert => hcourse.assertable hassert) hr
  have hsettled : s.last.Settled := hlast ▸ hcourse.settled hassert
  have hsound : s.last.Sound := hlast ▸ hcourse.healthy.current
  have hnormal := hsettled.normalForm hsound
  have hcanon : s.last.firstNonCanonical? = none := by
    refine Generation.firstNonCanonical?_eq_none ?_ hnormal.constants
    rintro id ⟨e, he, hforeign⟩
    rw [hnormal.operators id e he] at hforeign
    cases hforeign
  exact ⟨_, solve_of_rests hsound hrounds (hsettled.rests hsound) hcanon, rfl, rfl, rfl, rfl,
    fun _ => rfl, rfl⟩

theorem solve_last_of_solve_overlap : Sample.overlap.build = .ok Sample.overlap.generation ∧
    (∃ s, solve {} Sample.overlap.generation = .ok s) ∧
    ∀ s, solve {} Sample.overlap.generation = .ok s →
      ∃ s', solve { deduplicate := true, maxRounds := 1 } s.last = .ok s' ∧ s'.rounds = 1 ∧
        s'.generations = [s.last] ∧ s'.last = s.last ∧ s'.mappings = [] ∧
        (∀ id, s'.resolve? id = some id) ∧ s'.journal.warnings = [] := by
  have hbuild : Sample.overlap.build = .ok Sample.overlap.generation := by
    rfl
  exact ⟨hbuild, Sample.overlap_solved, fun s hs =>
    solve_last_of_solve Sample.overlap_reachable hbuild hs _ (by decide)⟩

end ParameterSolver
