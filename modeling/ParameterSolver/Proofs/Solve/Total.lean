import ParameterSolver.Proofs.Blueprint.Reachable
import ParameterSolver.Proofs.Pass.TotalLaws
import ParameterSolver.Scalar.Machine
import ParameterSolver.Solve

/-! A solve of a graph that was built ends with a solution or at the end of its rounds, and nothing
else can stop it. -/

namespace ParameterSolver

variable {α : Type} [Scalar α]

/-- How many operands the law of an operator takes by their places. -/
def Operator.taken : Operator → ℕ
  | subtract | implies | floor | ceil | cos | sqrt | difference | intersection => 1
  | divide | lessOrEqual | isSuperset | greaterThan | lessThan => 2
  | _ => 0

/-- A law that lacks an operand does nothing. -/
theorem Pass.applyLaw_of_short {id : NodeId} {e : Expression} (h : e.operands.length < e.op.taken) :
    Pass.applyLaw (α := α) id e = pure () := by
  obtain ⟨op, operands, asserted⟩ := e
  rcases operands with _ | ⟨a, _ | ⟨b, rest⟩⟩
  · cases op <;> first | rfl | simp [Operator.taken] at h
  · cases op <;> first | rfl | simp [Operator.taken] at h
  · have hle : op.taken ≤ 2 := by cases op <;> decide
    simp only [List.length_cons] at h
    omega

theorem Generation.Orderly.taken_le {g : Generation α} (hg : g.Orderly) :
    ∀ x ∈ g.expressions, x.2.op.taken ≤ x.2.operands.length := by
  intro x hx
  have harity := (hg.node (mem_expressions.1 hx)).arity x.2 rfl
  generalize x.2.operands.length = n at harity
  generalize x.2.op = op at harity
  cases op <;> simp [Operator.arity, Arity.accepts, Operator.taken] at harity ⊢ <;> omega

omit [Scalar α] in
theorem Generation.firstNonCanonical?_eq_none {g : Generation α} (hf : ∀ id, ¬ g.Foreign id)
    (hc : ∀ id c, g.node? id ≠ some (.constant c)) : g.firstNonCanonical? = none := by
  refine List.findSome?_eq_none_iff.2 ?_
  rintro ⟨id, e⟩ he
  have hn : g.node? id = some e.node := by
    rw [node?, mem_toList.1 he]
    rfl
  change nonCanonicalEntry? id e = none
  unfold nonCanonicalEntry?
  split
  · rename_i x hx
    split_ifs with hop
    · rfl
    · exact absurd ⟨x, hx ▸ hn, Bool.eq_false_iff.2 hop⟩ (hf id)
  · rename_i c hx
    exact absurd (hx ▸ hn) (hc id c)
  · rfl

namespace Progress

variable {p : Progress α}

/-- All graphs so far are in order. -/
structure Healthy (p : Progress α) : Prop where
  current : p.current.Sound
  earlier : ∀ g ∈ p.earlier, g.Orderly

/-- What one pass does. -/
theorem Healthy.runPass (h : Healthy p) (deduplicate : Bool) {pass : Pass α} {Q : Revision α → Prop}
    (hpass : pass.Gives p.current Q) :
    ∃ p' rev, p.runPass deduplicate pass = .ok (p', rev.dirty) ∧ Healthy p' ∧ Q rev ∧
      p'.current = if rev.dirty then rev.generation else p.current := by
  obtain ⟨rev, journal, happly, hsound, hQ⟩ := hpass deduplicate p.journal
  unfold Progress.runPass
  rw [happly]
  cases hdirty : rev.dirty with
  | false =>
    refine ⟨{ p with journal }, rev, ?_, ⟨h.current, h.earlier⟩, hQ, by simp [hdirty]⟩
    simp [bind, Except.bind, hdirty, pure, Except.pure]
  | true =>
    refine ⟨⟨rev.generation, p.current :: p.earlier, rev.mapping :: p.steps,
      journal.add .debug source (pass.name ++ " produced generation "
        ++ toString rev.generation.index ++ " (" ++ toString rev.generation.size ++ " nodes)")⟩, rev,
      ?_, ⟨hsound, ?_⟩, hQ, by simp [hdirty]⟩
    · simp only [bind, Except.bind, hdirty, Bool.not_true, Bool.false_eq_true, if_false,
        hsound.validate, pure, Except.pure]
    · rintro g (_ | ⟨_, hg⟩)
      · exact h.current.toOrderly
      · exact h.earlier g hg

/-- A round is its passes, one after the other. -/
theorem runRound_of_passes {deduplicate b₁ b₂ b₃ b₄ b₅ : Bool} {p₁ p₂ p₃ p₄ p₅ : Progress α}
    (h₁ : p.runPass deduplicate .domains = .ok (p₁, b₁))
    (h₂ : p₁.runPass deduplicate .assertions = .ok (p₂, b₂))
    (h₃ : p₂.runPass deduplicate .leaves = .ok (p₃, b₃))
    (h₄ : p₃.runPass deduplicate .operators = .ok (p₄, b₄))
    (h₅ : p₄.runPass deduplicate .nesting = .ok (p₅, b₅)) :
    p.runRound deduplicate = .ok (p₅, b₁ || b₂ || b₃ || b₄ || b₅) := by
  unfold Progress.runRound Pass.pipeline
  simp [bind, Except.bind, pure, Except.pure, h₁, h₂, h₃, h₄, h₅]

/-- What a round does. After the pass over the operators nothing stands outside the basis, also if it
did nothing. -/
theorem Healthy.runRound (h : Healthy p) (deduplicate : Bool) :
    ∃ p' dirty, p.runRound deduplicate = .ok (p', dirty) ∧ Healthy p' ∧
      (dirty = false → p'.current.firstNonCanonical? = none) := by
  obtain ⟨p₁, rev₁, hr₁, h₁, -, hc₁⟩ := h.runPass deduplicate
    (Pass.gives_domains h.current)
  obtain ⟨p₂, rev₂, hr₂, h₂, -, hc₂⟩ := h₁.runPass deduplicate
    (Pass.gives_assertions h₁.current)
  obtain ⟨p₃, rev₃, hr₃, h₃, hleaves, hc₃⟩ := h₂.runPass deduplicate
    (Pass.gives_leaves h₂.current)
  obtain ⟨p₄, rev₄, hr₄, h₄, ⟨hops, hops'⟩, hc₄⟩ := h₃.runPass deduplicate
    (Pass.gives_operators h₃.current)
  have hcanon : ∀ id, ¬ p₄.current.Foreign id := by
    rw [hc₄]
    cases hdirty : rev₄.dirty with
    | false => exact hops' hdirty
    | true => exact hops
  obtain ⟨p₅, rev₅, hr₅, h₅, -, hc₅⟩ := h₄.runPass deduplicate
    (Pass.gives_nesting h₄.current hcanon)
  refine ⟨p₅, _, runRound_of_passes hr₁ hr₂ hr₃ hr₄ hr₅, h₅, fun hclean => ?_⟩
  simp only [Bool.or_eq_false_iff] at hclean
  obtain ⟨⟨⟨⟨-, -⟩, hd₃⟩, hd₄⟩, hd₅⟩ := hclean
  rw [hd₃] at hc₃
  rw [hd₄] at hc₄
  rw [hd₅] at hc₅
  refine Generation.firstNonCanonical?_eq_none ?_ ?_
  · rw [hc₅]
    exact hcanon
  · rw [hc₅, if_neg (by simp), hc₄, if_neg (by simp), hc₃, if_neg (by simp)]
    exact hleaves hd₃

/-- The rounds of a solve, up to a number of them. -/
def after (deduplicate : Bool) : ℕ → Progress α → Except (SolveError α) (Progress α)
  | 0, p => .ok p
  | n + 1, p => do
    let (p, _) ← p.runRound deduplicate
    after deduplicate n p

theorem Healthy.after (h : Healthy p) (deduplicate : Bool) (n : ℕ) :
    ∃ p', p.after deduplicate n = .ok p' ∧ Healthy p' := by
  induction n generalizing p with
  | zero => exact ⟨p, rfl, h⟩
  | succ n ih =>
    obtain ⟨p₁, dirty, hr, h₁, -⟩ := h.runRound deduplicate
    obtain ⟨p₂, hr₂, h₂⟩ := ih h₁
    refine ⟨p₂, ?_, h₂⟩
    rw [Progress.after, hr]
    exact hr₂

theorem Healthy.runRounds (h : Healthy p) (deduplicate : Bool) (budget rounds : ℕ) :
    (∃ p' n, runRounds deduplicate budget rounds p = .ok (p', n) ∧ Healthy p' ∧
      p'.current.firstNonCanonical? = none) ∨
    runRounds deduplicate budget rounds p = .error (.budgetExceeded (rounds + budget)) := by
  induction budget generalizing rounds p with
  | zero => exact Or.inr rfl
  | succ budget ih =>
    obtain ⟨p₁, dirty, hr, h₁, hclean⟩ := h.runRound deduplicate
    rw [Progress.runRounds, hr]
    cases dirty with
    | false => exact Or.inl ⟨p₁, rounds + 1, rfl, h₁, hclean rfl⟩
    | true =>
      have := ih h₁ (rounds + 1)
      rwa [Nat.add_right_comm, Nat.add_assoc] at this

end Progress

theorem Blueprint.Reachable.sound {b : Blueprint α} {g : Generation α} (hb : b.Reachable)
    (h : b.build = .ok g) : g.Sound := by
  obtain ⟨hf, rfl⟩ := Blueprint.of_build h
  have hsane := Blueprint.sane_of_reachable hb
  exact ⟨hsane.orderly hf, hsane.ascending.acyclic⟩

/-- A solve of a graph that was built finds a solution or runs out of rounds. However many rounds are
run, every graph that comes up is valid, and every law finds the operands that it takes. -/
theorem solve_of_build {b : Blueprint α} {g : Generation α} (hb : b.Reachable)
    (h : b.build = .ok g) (config : Config) :
    ((∃ s, solve config g = .ok s ∧ ∀ g' ∈ s.generations, g'.validate = .ok ()) ∨
      solve config g = .error (.budgetExceeded config.maxRounds)) ∧
    ∀ n, ∃ p, Progress.after config.deduplicate n ⟨g, [], [], .empty⟩ = .ok p ∧
      ∀ g' ∈ p.current :: p.earlier, g'.validate = .ok () ∧
        ∀ x ∈ g'.expressions, x.2.op.taken ≤ x.2.operands.length := by
  have hg := hb.sound h
  have hstart : Progress.Healthy (⟨g, [], [], .empty⟩ : Progress α) := ⟨hg, by simp⟩
  have hall : ∀ {p : Progress α}, p.Healthy → ∀ g' ∈ p.current :: p.earlier, g'.Orderly :=
    fun hp => List.forall_mem_cons.2 ⟨hp.current.toOrderly, hp.earlier⟩
  refine ⟨?_, fun n => ?_⟩
  · unfold solve
    rw [hg.validate]
    rcases hstart.runRounds config.deduplicate config.maxRounds 0 with
      ⟨p, rounds, hr, hp, hcanon⟩ | hr
    · refine Or.inl ⟨⟨(p.current :: p.earlier).reverse, p.current, p.steps.reverse,
        p.journal.add .info Progress.source ("canonical after " ++ toString rounds ++ " rounds and "
          ++ toString (p.current :: p.earlier).reverse.length ++ " generations"), rounds,
        config.maxSweeps⟩, ?_, fun g' hg' => (hall hp g' (List.mem_reverse.1 hg')).validate⟩
      simp only [bind, Except.bind, hr, hcanon]
      rfl
    · refine Or.inr ?_
      simp only [bind, Except.bind, hr, Nat.zero_add]
  · obtain ⟨p, hr, hp⟩ := hstart.after config.deduplicate n
    exact ⟨p, hr, fun g' hg' => ⟨(hall hp g' hg').validate, (hall hp g' hg').taken_le⟩⟩

/-! A graph to look at: the smaller of `x` and a constant is at most both of two sets. -/

namespace Sample

def overlap : Blueprint Float :=
  let b := (Blueprint.empty.addParameter .real).2
  let b := (b.addConstant (.range 1 2 .one)).2
  let b := (b.addExpression .min [.nth 0, .nth 1]).2
  let b := (b.addLiteral (.interval 0 4 .one)).2
  let b := (b.addExpression .intersection [.nth 1, .nth 3]).2
  (b.addAssertion .isSuperset [.nth 4, .nth 2]).2

theorem overlap_reachable : overlap.Reachable :=
  .assertion (.expression (.literal (.expression (.constant (.parameter .empty _) _) _ _) _) _ _) _ _

end Sample

theorem solve_of_build_overlap : Sample.overlap.build = .ok Sample.overlap.generation ∧
    ∃ s, solve {} Sample.overlap.generation = .ok s ∧ ∀ g' ∈ s.generations, g'.validate = .ok () := by
  have hbuild : Sample.overlap.build = .ok Sample.overlap.generation := by
    rfl
  have hok : (solve {} Sample.overlap.generation).isOk := by
    decide +kernel
  refine ⟨hbuild, (solve_of_build Sample.overlap_reachable hbuild {}).1.resolve_right fun hout => ?_⟩
  rw [hout] at hok
  cases hok

end ParameterSolver
