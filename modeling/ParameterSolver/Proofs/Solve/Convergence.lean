import ParameterSolver.Proofs.Solve.Courses

/-! Every solve of a graph that was built comes to an end: the rounds after the second make the graph
lighter or are the last. -/

namespace ParameterSolver

variable {α : Type} [Scalar α]

namespace Progress

variable {p p' : Progress α} {deduplicate dirty : Bool}

/-- However many more rounds than `k` are allowed, `k` are enough. -/
def Settles (deduplicate : Bool) (k : ℕ) (p : Progress α) : Prop :=
  ∀ budget rounds, k ≤ budget → ∃ p' n, runRounds deduplicate budget rounds p = .ok (p', n) ∧
    n ≤ rounds + k ∧ Healthy p' ∧ p'.current.firstNonCanonical? = none

/-- A round more. -/
theorem Healthy.settles {k : ℕ} (h : Healthy p) (hr : p.runRound deduplicate = .ok (p', dirty))
    (hrest : dirty → Settles deduplicate k p') : Settles deduplicate (k + 1) p := by
  intro budget rounds hbudget
  obtain ⟨budget, rfl⟩ : ∃ b, budget = b + 1 := ⟨budget - 1, by omega⟩
  obtain ⟨p₁, dirty₁, hr₁, h₁, hclean⟩ := h.runRound deduplicate
  cases hr.symm.trans hr₁
  rw [Progress.runRounds, hr]
  cases dirty with
  | false => exact ⟨p', rounds + 1, rfl, by omega, h₁, hclean rfl⟩
  | true =>
    obtain ⟨p₂, n, hr₂, hn, h₂⟩ := hrest rfl budget (rounds + 1) (by omega)
    exact ⟨p₂, n, hr₂, by omega, h₂⟩

/-- The induction is on the weight of the graph. -/
theorem Healthy.exists_settles (h : Healthy p) (htidy : p.current.Tidy) (deduplicate : Bool) :
    ∃ k, Settles deduplicate k p := by
  induction hg : p.current using Generation.wellFounded_lighter.induction generalizing p with
  | _ g ih =>
    subst hg
    obtain ⟨p', dirty, hr, hcourse⟩ := h.course deduplicate
    obtain ⟨htidy', _, _, _, _, -, -, -, -, -, hlighter⟩ := hcourse.lighter htidy
    cases dirty with
    | false => exact ⟨0 + 1, h.settles hr (by simp)⟩
    | true =>
      obtain ⟨k, hk⟩ := ih p'.current (hlighter rfl).2 hcourse.healthy htidy' rfl
      exact ⟨k + 1, h.settles hr fun _ => hk⟩

theorem after_succ {n : ℕ} (h : Healthy p) (hr : p.after deduplicate (n + 1) = .ok p') :
    ∃ p₁ dirty, Course deduplicate Pass.pipeline p p₁ dirty ∧ p₁.after deduplicate n = .ok p' := by
  obtain ⟨p₁, dirty, hr₁, hcourse⟩ := h.course deduplicate
  rw [Progress.after, hr₁] at hr
  exact ⟨p₁, dirty, hcourse, hr⟩

theorem Healthy.tidy_of_after {n : ℕ} (h : Healthy p) (htidy : p.current.Tidy)
    (hr : p.after deduplicate n = .ok p') : Healthy p' ∧ p'.current.Tidy := by
  induction n generalizing p with
  | zero =>
    cases hr
    exact ⟨h, htidy⟩
  | succ n ih =>
    obtain ⟨p₁, dirty, hcourse, hr₁⟩ := after_succ h hr
    exact ih hcourse.healthy (hcourse.lighter htidy).1 hr₁

/-- Two rounds are enough for the first four passes. -/
theorem Healthy.tidy_of_after_two (hone : ((1 : α) == 1) = true) (h : Healthy p)
    (hassert : p.current.All Node.Assertable) {n : ℕ} (hr : p.after deduplicate (n + 2) = .ok p') :
    Healthy p' ∧ p'.current.Tidy := by
  obtain ⟨p₁, _, hfirst, hr₁⟩ := after_succ h hr
  obtain ⟨p₂, _, hsecond, hr₂⟩ := after_succ hfirst.healthy hr₁
  exact hsecond.healthy.tidy_of_after (hsecond.tidy hone (hfirst.readied hone hassert)) hr₂

end Progress

/-- What a solve is given by its rounds. -/
theorem solve_of_runRounds {config : Config} {g : Generation α} {p : Progress α} {n : ℕ}
    (hg : g.Sound)
    (hr : Progress.runRounds config.deduplicate config.maxRounds 0 ⟨g, [], [], .empty⟩ = .ok (p, n))
    (hcanon : p.current.firstNonCanonical? = none) :
    ∃ s, solve config g = .ok s ∧ s.rounds = n := by
  unfold solve
  rw [hg.validate]
  simp only [bind, Except.bind, hr, hcanon]
  exact ⟨_, rfl, rfl⟩

theorem Blueprint.Reachable.assertable {b : Blueprint α} {g : Generation α} (hb : b.Reachable)
    (h : b.build = .ok g) : g.All Node.Assertable := by
  obtain ⟨hf, rfl⟩ := Blueprint.of_build h
  intro id n hn e he
  cases n with
  | expression e' =>
    cases he
    exact (Blueprint.sane_of_reachable hb).asserts hf id e' hn
  | _ => cases he

/-- Every solve of a graph that was built succeeds if it is given enough rounds. From the third round
on only the last pass publishes graphs, each lighter than the one before. -/
theorem exists_rounds_of_build {b : Blueprint Float} {g : Generation Float} (hb : b.Reachable)
    (h : b.build = .ok g) (deduplicate : Bool) :
    (∃ R, ∀ config : Config, config.deduplicate = deduplicate → R ≤ config.maxRounds →
      ∃ s, solve config g = .ok s ∧ s.rounds ≤ R) ∧
    ∀ n ≥ 2, ∀ p, Progress.after deduplicate n ⟨g, [], [], .empty⟩ = .ok p →
      ∃ p₁ p₂ p₃ p₄ p' published, p.runPass deduplicate .domains = .ok (p₁, false) ∧
        p₁.runPass deduplicate .assertions = .ok (p₂, false) ∧
        p₂.runPass deduplicate .leaves = .ok (p₃, false) ∧
        p₃.runPass deduplicate .operators = .ok (p₄, false) ∧
        p₄.runPass deduplicate .nesting = .ok (p', published) ∧
        p.runRound deduplicate = .ok (p', published) ∧
        (published → p'.earlier = p.current :: p.earlier ∧ p'.current.Lighter p.current) := by
  have hone : ((1 : Float) == 1) = true := by decide
  have hg := hb.sound h
  have hassert := hb.assertable h
  have hstart : Progress.Healthy (⟨g, [], [], .empty⟩ : Progress Float) := ⟨hg, by simp⟩
  refine ⟨?_, fun n hn p hp => ?_⟩
  · obtain ⟨p₁, _, hr₁, hfirst⟩ := hstart.course deduplicate
    obtain ⟨p₂, _, hr₂, hsecond⟩ := hfirst.healthy.course deduplicate
    obtain ⟨k, hk⟩ := hsecond.healthy.exists_settles
      (hsecond.tidy hone (hfirst.readied hone hassert)) deduplicate
    refine ⟨k + 2, fun config hconfig hle => ?_⟩
    subst hconfig
    have hsettles := hstart.settles hr₁ fun _ => hfirst.healthy.settles hr₂ fun _ => hk
    obtain ⟨p, n, hr, hn, -, hcanon⟩ := hsettles config.maxRounds 0 hle
    obtain ⟨s, hs, rfl⟩ := solve_of_runRounds hg hr hcanon
    exact ⟨s, hs, by omega⟩
  · obtain ⟨n, rfl⟩ : ∃ m, n = m + 2 := ⟨n - 2, by omega⟩
    obtain ⟨hhealthy, htidy⟩ := hstart.tidy_of_after_two hone hassert hp
    obtain ⟨p', dirty, hr, hcourse⟩ := hhealthy.course deduplicate
    obtain ⟨-, p₁, p₂, p₃, p₄, h₁, h₂, h₃, h₄, h₅, hlighter⟩ := hcourse.lighter htidy
    exact ⟨p₁, p₂, p₃, p₄, p', dirty, h₁, h₂, h₃, h₄, h₅, hr, hlighter⟩

theorem exists_rounds_of_build_overlap :
    Sample.overlap.build = .ok Sample.overlap.generation ∧
    ∃ R, ∀ config : Config, config.deduplicate = false → R ≤ config.maxRounds →
      ∃ s, solve config Sample.overlap.generation = .ok s ∧ s.rounds ≤ R := by
  have hbuild : Sample.overlap.build = .ok Sample.overlap.generation := by
    rfl
  exact ⟨hbuild, (exists_rounds_of_build Sample.overlap_reachable hbuild false).1⟩

end ParameterSolver
