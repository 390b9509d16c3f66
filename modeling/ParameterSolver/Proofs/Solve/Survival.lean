import ParameterSolver.Proofs.Draft.Sparing
import ParameterSolver.Proofs.Solve.NormalForm

/-! What becomes of the leaves of a graph in a solve. Every pass copies a leaf, or writes it anew with
its unit stripped or its domain marked as asserted, and no pass removes one. So what was declared of a
leaf can be read off what it is resolved to. -/

namespace ParameterSolver

open Draft Pass

variable {α : Type} [Scalar α] {g : Generation α} {d : Draft α} {deduplicate : Bool}
  {journal journal' : Journal} {rev : Revision α} {x : NodeId} {n m k : Node α} {p : Provenance}

/-- What a parameter keeps: all but the unit that its numbers are in and what is asserted of it. -/
structure Parameter.Persists (q r : Parameter α) : Prop where
  name : r.name = q.name
  domain : r.domain = q.domain
  displayUnit : r.displayUnit = q.displayUnit
  soft : r.soft.map ValueSet.stripped = q.soft.map ValueSet.stripped
  guess : r.guess.map ValueSet.stripped = q.guess.map ValueSet.stripped
  constrained : q.constrained → r.constrained
  mustResolve : q.mustResolve → r.mustResolve
  domainApplied : q.domainApplied → r.domainApplied

namespace Parameter.Persists

variable {q r s : Parameter α}

theorem refl (q : Parameter α) : q.Persists q := ⟨rfl, rfl, rfl, rfl, rfl, id, id, id⟩

theorem trans (h : q.Persists r) (h' : r.Persists s) : q.Persists s where
  name := h'.name.trans h.name
  domain := h'.domain.trans h.domain
  displayUnit := h'.displayUnit.trans h.displayUnit
  soft := h'.soft.trans h.soft
  guess := h'.guess.trans h.guess
  constrained hq := h'.constrained (h.constrained hq)
  mustResolve hq := h'.mustResolve (h.mustResolve hq)
  domainApplied hq := h'.domainApplied (h.domainApplied hq)

theorem applied (q : Parameter α) : q.Persists (applied q) where
  name := rfl
  domain := rfl
  displayUnit := rfl
  soft := rfl
  guess := rfl
  constrained h := by simp [Pass.applied, h]
  mustResolve := id
  domainApplied _ := rfl

/-- The unit that is taken away is the one that values are written in from then on. -/
theorem stripParameter (q : Parameter α) : q.Persists (stripParameter q) where
  name := rfl
  domain := rfl
  displayUnit := by
    unfold Parameter.displayUnit Pass.stripParameter
    split_ifs
    · rfl
    · cases q.sourceUnit <;> rfl
  soft := by
    change (q.soft.map _).map _ = _
    rw [Option.map_map]
    exact congrArg (q.soft.map ·) (funext ValueSet.stripped_stripped)
  guess := by
    change (q.guess.map _).map _ = _
    rw [Option.map_map]
    exact congrArg (q.guess.map ·) (funext ValueSet.stripped_stripped)
  constrained := id
  mustResolve := id
  domainApplied := id

end Parameter.Persists

namespace Node

/-- The values of a literal or a constant, in base units. -/
def stated? : Node α → Option (ValueSet α)
  | literal s _ => some s.stripped
  | constant c => c.toSet.toOption.map ValueSet.stripped
  | _ => none

/-- The leaf stands for what it stood for. -/
inductive Persists : Node α → Node α → Prop
  | parameter {q r : Parameter α} (h : q.Persists r) : Persists (.parameter q) (.parameter r)
  | given {n m : Node α} {s : ValueSet α} (hn : n.stated? = some s) (hm : m.stated? = some s) :
    Persists n m

theorem Persists.refl (h : n.expression? = none) (hn : n.Proper) : n.Persists n := by
  cases n with
  | parameter q => exact .parameter (.refl q)
  | literal s u => exact .given rfl rfl
  | constant c =>
    obtain ⟨s, hs⟩ := hn.constant c rfl
    exact .given (s := s.stripped) (by rw [stated?, hs]; rfl) (by rw [stated?, hs]; rfl)
  | expression e => cases h

theorem Persists.trans (h : n.Persists m) (h' : m.Persists k) : n.Persists k := by
  cases h with
  | parameter h =>
    cases h' with
    | parameter h' => exact .parameter (h.trans h')
    | given hm => cases hm
  | given hn hm =>
    cases h' with
    | parameter => cases hm
    | given hm' hk =>
      cases hm.symm.trans hm'
      exact .given hn hk

theorem Persists.leaf (h : n.Persists m) : m.expression? = none := by
  cases h with
  | parameter => rfl
  | given _ hm =>
    cases m with
    | expression e => cases hm
    | _ => rfl

theorem persists_retouched (h : retouched? n = some m) : n.Persists m := by
  cases n with
  | constant c =>
    obtain ⟨s, hs, rfl⟩ := Option.map_eq_some_iff.1 h
    exact .given (s := s.stripped) (by rw [stated?, hs]; rfl)
      (congrArg some (ValueSet.stripped_stripped s))
  | literal s u =>
    obtain ⟨v, -, rfl⟩ := Option.map_eq_some_iff.1 h
    exact .given rfl (congrArg some (ValueSet.stripped_stripped s))
  | parameter q =>
    rw [retouched?] at h
    split_ifs at h
    cases h
    exact .parameter (.stripParameter q)
  | expression e => cases h

end Node

/-- The draft has an output node for every leaf, with the origins of the leaf, that stands for the
same. -/
def Draft.Retold (d : Draft α) : Prop :=
  ∀ x n p, d.input.node? x = some n → n.expression? = none → d.input.provenance? x = some p →
    ∃ j m, d.mapping.get? x = some j ∧ d.output.node? j = some m ∧ n.Persists m ∧
      d.output.provenance? j = some p

/-- The revision is that of a draft that has an output node for every leaf. -/
def Revision.Retells (rev : Revision α) (g : Generation α) : Prop :=
  ∃ d : Draft α, rev = ⟨d.output, d.dirty, d.mapping⟩ ∧ d.input = g ∧ d.Coherent ∧ d.Retold

/-- Moves that spare the leaves leave a draft that has them. -/
theorem Moves.retold {P : Draft α → Act α → Prop} (hg : g.Sound)
    (h : Moves P (start g deduplicate journal) d) (hclosed : d.Closed)
    (hP : ∀ x n, g.node? x = some n → n.expression? = none → n.Persists n →
      ∀ d a, P d a → a.Spares x n.Persists) : d.Retold := by
  intro x n p hn hleaf hp
  rw [h.input] at hn hp
  have hself : n.Persists n := .refl hleaf (hg.node hn)
  exact (h.spared hn hp hleaf (fun _ hm => hm.leaf) hself (hP x n hn hleaf hself)).exists_image
    h.input hclosed hn

/-- What is to be written for a leaf that is due has to stand for the same. -/
theorem Outcome.retold {due : NodeId → Prop} {W C : Draft α → NodeId → Node α → Prop}
    {Q : NodeId → Node α → Prop} {E : NodeId → Draft α → Prop} (hg : g.Sound)
    (h : Outcome g due W C Q E deduplicate journal d)
    (hW : ∀ d x n m, g.node? x = some n → n.expression? = none → W d x m → n.Persists m) :
    d.Retold := by
  refine h.moves.retold hg h.closed fun x n hn hleaf _ d a ha => ?_
  cases a with
  | write id m =>
    rintro rfl
    exact hW d _ n m hn hleaf ha.2
  | erase | redirect => exact ha.elim
  | _ => trivial

namespace Pass

theorem retold_domains (hg : g.Sound)
    (h : (domains : Pass α).apply deduplicate journal g = .ok (rev, journal')) :
    rev.Retells g := by
  obtain ⟨d, hd, rfl⟩ := outcome_domains hg.acyclic h
  refine ⟨d, rfl, hd.input, hd.coherent, hd.retold hg ?_⟩
  rintro - x n m hn - ⟨q, hq, rfl⟩
  cases hn.symm.trans hq
  exact .parameter (.applied q)

theorem retold_assertions (hg : g.Sound)
    (h : (assertions : Pass α).apply deduplicate journal g = .ok (rev, journal')) :
    rev.Retells g := by
  obtain ⟨d, hd, rfl⟩ := outcome_assertions hg.acyclic h
  refine ⟨d, rfl, hd.input, hd.coherent, hd.retold hg ?_⟩
  rintro - x n m hn hleaf ⟨e, js, he, -, -⟩
  cases hn.symm.trans he
  cases hleaf

theorem retold_leaves (hg : g.Sound)
    (h : (leaves : Pass α).apply deduplicate journal g = .ok (rev, journal')) :
    rev.Retells g := by
  obtain ⟨d, hd, rfl⟩ := outcome_leaves hg.acyclic h
  refine ⟨d, rfl, hd.input, hd.coherent, hd.retold hg ?_⟩
  rintro - x n m hn - ⟨n', hn', hm⟩
  cases hn.symm.trans hn'
  exact Node.persists_retouched hm

/-- Laws write, remove and redirect expressions only. -/
theorem retold_operators (hg : g.Sound)
    (h : (operators : Pass α).apply deduplicate journal g = .ok (rev, journal')) :
    rev.Retells g := by
  obtain ⟨d, hd, rfl⟩ := exists_canonized hg h
  refine ⟨d, rfl, hd.input, hd.coherent, hd.moves.retold hg hd.closed
    fun x n hn hleaf _ d a ha => ?_⟩
  have hnot : ∀ e, g.node? x ≠ some (.expression e) := fun e he => by
    cases hn.symm.trans he
    cases hleaf
  cases a with
  | write id m =>
    rintro rfl
    obtain ⟨-, -, e, -, -, he, -⟩ := ha
    exact absurd he (hnot e)
  | erase id =>
    rintro rfl
    obtain ⟨-, -, ⟨e, he, -⟩ | ⟨o, ho, -⟩⟩ := ha
    · exact hnot e he
    · rw [Generation.operands_of_node? hn, Node.operands_of_leaf hleaf] at ho
      cases ho
  | redirect id t =>
    rintro rfl
    obtain ⟨-, ⟨e, he, -⟩, -⟩ := ha
    exact hnot e he
  | _ => trivial

/-- Only expressions are merged or get other operands. -/
theorem retold_nesting (hg : g.Sound)
    (h : (nesting : Pass α).apply deduplicate journal g = .ok (rev, journal')) :
    rev.Retells g := by
  obtain ⟨d, hd, rfl⟩ := exists_compressed hg h
  refine ⟨d, rfl, hd.input, hd.coherent, hd.moves.retold hg hd.closed
    fun x n hn hleaf _ d a ha => ?_⟩
  have hnot : ∀ e, g.node? x ≠ some (.expression e) := fun e he => by
    cases hn.symm.trans he
    cases hleaf
  cases a with
  | write id m =>
    rintro rfl
    obtain ⟨-, e, -, hover, -⟩ := ha
    exact absurd hover.node? (hnot e)
  | erase id =>
    rintro rfl
    obtain ⟨e, he, -⟩ := expression_of_isAbsorbed ha.1
    exact hnot e he
  | redirect id t => exact ha.elim
  | _ => trivial

/-- Every pass has an output node for every leaf. -/
theorem retold_pipeline (hg : g.Sound) {pass : Pass α} (hpass : pass ∈ pipeline)
    (h : pass.apply deduplicate journal g = .ok (rev, journal')) :
    rev.Retells g := by
  simp only [pipeline, List.mem_cons, List.not_mem_nil, or_false] at hpass
  rcases hpass with rfl | rfl | rfl | rfl | rfl
  · exact retold_domains hg h
  · exact retold_assertions hg h
  · exact retold_leaves hg h
  · exact retold_operators hg h
  · exact retold_nesting hg h

end Pass

namespace Progress

variable {p p' : Progress α}

/-- Every leaf of the first graph is resolved to a leaf with its origins that stands for the same, and
no two nodes are resolved to one. -/
structure Retells (g : Generation α) (p : Progress α) : Prop where
  leaves : ∀ x n q, g.node? x = some n → n.expression? = none → g.provenance? x = some q →
    ∃ j m, resolveThrough? p.steps.reverse x = some j ∧ p.current.node? j = some m ∧ n.Persists m ∧
      p.current.provenance? j = some q
  injective : ∀ x y j, resolveThrough? p.steps.reverse x = some j →
    resolveThrough? p.steps.reverse y = some j → x = y

theorem retells_start (hg : g.Sound) : Retells g ⟨g, [], [], .empty⟩ := by
  refine ⟨fun x n q hn hleaf hq => ⟨x, n, rfl, hn, .refl hleaf (hg.node hn), hq⟩, ?_⟩
  intro x y j hx hy
  cases hx
  cases hy
  rfl

/-- What one pass does to leaves. -/
theorem Retells.advance {pass : Pass α} (h : Retells g p) (hp : Healthy p)
    (hpass : pass ∈ Pass.pipeline) (hadv : Advance deduplicate pass p p' rev) : p'.Retells g := by
  obtain ⟨_, happly⟩ := hadv.apply
  obtain ⟨d, rfl, hin, hd, hretold⟩ := retold_pipeline hp.current hpass happly
  cases hdirty : d.dirty with
  | false =>
    obtain ⟨hc, -, hsteps⟩ := hadv.idle hdirty
    exact ⟨by rw [hc, hsteps]; exact h.leaves, by rw [hsteps]; exact h.injective⟩
  | true =>
    obtain ⟨hc, -, hsteps⟩ := hadv.published hdirty
    refine ⟨fun x n q hn hleaf hq => ?_, fun x y j hx hy => ?_⟩
    · obtain ⟨i, m, hi, hm, hpersists, hq'⟩ := h.leaves x n q hn hleaf hq
      obtain ⟨j, k, hj, hk, hpersists', hq''⟩ :=
        hretold i m q (hin ▸ hm) hpersists.leaf (hin ▸ hq')
      refine ⟨j, k, ?_, hc ▸ hk, hpersists.trans hpersists', hc ▸ hq''⟩
      rw [hsteps, List.reverse_cons, resolveThrough?_append, hi]
      exact hj
    · rw [hsteps, List.reverse_cons, resolveThrough?_append] at hx hy
      obtain ⟨i, hi, hij⟩ := Option.bind_eq_some_iff.1 hx
      obtain ⟨i', hi', hij'⟩ := Option.bind_eq_some_iff.1 hy
      cases hd.injective i i' j hij hij'
      exact h.injective x y i hi hi'

/-- What is given becomes a literal, where no constants are left. -/
theorem Retells.given {t : ValueSet α} (h : p.Retells g)
    (hconstants : ∀ id c, p.current.node? id ≠ some (.constant c)) (hn : g.node? x = some n)
    (ht : n.stated? = some t) :
    ∃ j t' u', resolveThrough? p.steps.reverse x = some j ∧
      p.current.node? j = some (.literal t' u') ∧ t'.stripped = t := by
  have hleaf : n.expression? = none := by
    cases n with
    | expression e => cases ht
    | _ => rfl
  obtain ⟨q, hq⟩ := Generation.exists_provenance? (Generation.contains_of_node? hn)
  obtain ⟨j, m, hj, hm, hpersists, -⟩ := h.leaves x n q hn hleaf hq
  cases hpersists with
  | parameter => cases ht
  | given hn' hm' =>
    cases ht.symm.trans hn'
    cases m with
    | literal t' u' => exact ⟨j, t', u', hj, hm, Option.some.inj hm'⟩
    | constant c => exact absurd hm (hconstants j c)
    | _ => cases hm'

theorem Course.retells {dirty : Bool} (h : Course deduplicate Pass.pipeline p p' dirty)
    (hr : p.Retells g) : p'.Retells g :=
  h.invariant hr fun _ hpass _ _ _ hp _ hadv hr => hr.advance hp hpass hadv

end Progress

/-- The leaves of a graph that was built come through every solve: parameters as parameters with all
that was declared of them, and what is given as literals with the same values. -/
theorem leaves_of_solve {b : Blueprint Float} {g : Generation Float} (hb : b.Reachable)
    (h : b.build = .ok g) {config : Config} {s : Solution Float} (hs : solve config g = .ok s) :
    (∀ x q, g.node? x = some (.parameter q) → ∃ j r, s.resolve? x = some j ∧
      s.last.node? j = some (.parameter r) ∧ q.Persists r ∧
      s.last.provenance? j = g.provenance? x) ∧
    (∀ x t u, g.node? x = some (.literal t u) → ∃ j t' u', s.resolve? x = some j ∧
      s.last.node? j = some (.literal t' u') ∧ t'.stripped = t.stripped) ∧
    (∀ x c, g.node? x = some (.constant c) → ∃ j t t' u', s.resolve? x = some j ∧
      c.toSet = .ok t ∧ s.last.node? j = some (.literal t' u') ∧ t'.stripped = t.stripped) ∧
    ∀ x y j, s.resolve? x = some j → s.resolve? y = some j → x = y := by
  obtain ⟨p, n, hr, hlast, -, hmaps⟩ := runRounds_of_solve hs
  have hg := hb.sound h
  have hstart : Progress.Healthy (⟨g, [], [], .empty⟩ : Progress Float) := ⟨hg, by simp⟩
  obtain ⟨p₁, hcourse, hassert, hretells⟩ := hstart.of_runRounds
    (I := fun p => p.current.All Node.Assertable ∧ p.Retells g)
    ⟨hb.assertable h, Progress.retells_start hg⟩
    (fun hcourse hI => ⟨hcourse.assertable hI.1, hcourse.retells hI.2⟩) hr
  have hretells := hcourse.retells hretells
  have hnormal := (hcourse.settled hassert).normalForm hcourse.healthy.current
  rw [← hlast] at hnormal
  simp only [Solution.resolve?, hmaps, hlast]
  have hconstants : ∀ id c, p.current.node? id ≠ some (.constant c) := hlast ▸ hnormal.constants
  refine ⟨fun x q hq => ?_, fun x t u ht => hretells.given hconstants ht rfl, fun x c hc => ?_,
    hretells.injective⟩
  · obtain ⟨r, hr⟩ := Generation.exists_provenance? (Generation.contains_of_node? hq)
    obtain ⟨j, m, hj, hm, hpersists, hprov⟩ := hretells.leaves x _ r hq rfl hr
    cases hpersists with
    | parameter hpersists => exact ⟨j, _, hj, hm, hpersists, hprov.trans hr.symm⟩
    | given hq' => cases hq'
  · obtain ⟨t, ht⟩ := (hg.node hc).constant c rfl
    obtain ⟨j, t', u', hj, hnode, hsame⟩ :=
      hretells.given (t := t.stripped) hconstants hc (by rw [Node.stated?, ht]; rfl)
    exact ⟨j, t, t', u', hj, ht, hnode, hsame⟩

theorem leaves_of_solve_overlap : Sample.overlap.build = .ok Sample.overlap.generation ∧
    ∃ s, solve {} Sample.overlap.generation = .ok s ∧
      (∃ j r, s.resolve? (.nth 0) = some j ∧ s.last.node? j = some (.parameter r) ∧
        Parameter.Persists .real r ∧ s.last.provenance? j = some (.singleton 0)) ∧
      ∃ j t u, s.resolve? (.nth 1) = some j ∧ s.last.node? j = some (.literal t u) ∧
        t.stripped = (ValueSet.interval 1 2 .one).stripped := by
  have hbuild : Sample.overlap.build = .ok Sample.overlap.generation := by
    rfl
  obtain ⟨s, hs⟩ := Sample.overlap_solved
  obtain ⟨hparameters, -, hconstants, -⟩ := leaves_of_solve Sample.overlap_reachable hbuild hs
  refine ⟨hbuild, s, hs, hparameters (.nth 0) .real rfl, ?_⟩
  obtain ⟨j, t, t', u', hj, ht, hnode, hsame⟩ := hconstants (.nth 1) (.range 1 2 .one) rfl
  cases ht
  exact ⟨j, t', u', hj, hnode, hsame⟩

end ParameterSolver
