import ParameterSolver.Proofs.Solve.Rounds
import ParameterSolver.Proofs.Solve.Tidy

/-! The passes of a round, one after the other. After one round the first four passes can only have
to do with parameters that are new, after two they have nothing left to do, and the last one keeps
it so. -/

namespace ParameterSolver

open Pass

variable {α : Type} [Scalar α]

namespace Generation

/-- What one round leaves: all but new parameters and assertions is as it is to be. -/
def Readied (g : Generation α) : Prop :=
  g.All fun n => (n.Assertable ∧ n.Free) ∧ n.Plain ∧ n.InBasis

/-- There is nothing to do for the first four passes. -/
structure Tidy (g : Generation α) : Prop where
  nodes : g.All fun n => (n.Assertable ∧ n.Applied) ∧ n.Plain ∧ n.InBasis
  worded : g.Worded

end Generation

namespace Pass

variable {g : Generation α} {deduplicate : Bool} {journal journal' : Journal} {rev : Revision α}

omit [Scalar α] in
@[simp] theorem skeleton_expression (e : Expression) :
    (Node.expression e : Node α).skeleton = .expression ⟨e.op, [], e.asserted⟩ := rfl

/-- Every pass of a round leaves only predicates asserted. -/
theorem assertable_pipeline (hg : g.Sound) (hassert : g.All Node.Assertable) {pass : Pass α}
    (hpass : pass ∈ pipeline) (h : pass.apply deduplicate journal g = .ok (rev, journal')) :
    (rev.next g).All Node.Assertable := by
  simp only [pipeline, List.mem_cons, List.not_mem_nil, or_false] at hpass
  rcases hpass with rfl | rfl | rfl | rfl | rfl
  · refine all_domains hg.acyclic h (fun i m hm _ => hassert i m hm) (fun _ _ _ _ => by simp [Node.Assertable])
      fun _ _ _ _ _ _ => ⟨by simp [Node.Assertable], ?_⟩
    rintro e ⟨⟩ -
    rfl
  · refine all_assertions hg.acyclic h hassert (fun i e he => ?_) (by simp [Node.Assertable, theTruth]) ?_
    · rintro e' ⟨⟩ ⟨⟩
    · rintro e ⟨⟩ -
      rfl
  · refine all_leaves hg.acyclic h (fun i m hm _ => hassert i m hm) fun i n m hn hm e he => ?_
    have hleaf := expression?_of_retouched? hm
    rw [he] at hleaf
    cases hleaf
  · refine all_operators hg h hassert (fun n hn => ?_) fun i e op he hop => ?_
    · rcases hn with ⟨x, rfl⟩ | rfl | ⟨e, rfl, -, hasserted⟩
      · simp [Node.Assertable, Node.skeleton, Node.withOperands]
      · simp [Node.Assertable, Node.skeleton, Node.withOperands]
      · rintro e' ⟨⟩
        exact hasserted
    · rintro e' ⟨⟩ hasserted
      exact (Operator.supplants_iff.1 hop).2 (hassert i _ he ⟨e.op, [], e.asserted⟩ rfl hasserted)
  · exact all_nesting hg h hassert

/-- The first pass asserts all domains. -/
theorem applied_domains (hg : g.Acyclic)
    (h : (domains : Pass α).apply deduplicate journal g = .ok (rev, journal')) :
    (rev.next g).All Node.Applied := by
  refine all_domains hg h (fun i m hm hi p hp => ?_) (fun i p _ _ p' hp => ?_) fun _ _ _ _ _ _ =>
    ⟨by simp [Node.Applied], by simp [Node.Applied]⟩
  · cases m with
    | parameter p' =>
      cases hp
      by_contra hunapplied
      exact hi ⟨p, hm, Bool.eq_false_iff.2 hunapplied⟩
    | _ => cases hp
  · cases hp
    rfl

theorem applied_assertions (hg : g.Acyclic) (happlied : g.All Node.Applied)
    (h : (assertions : Pass α).apply deduplicate journal g = .ok (rev, journal')) :
    (rev.next g).All Node.Applied :=
  all_assertions hg h happlied (by simp [Node.Applied]) (by simp [Node.Applied, theTruth])
    (by simp [Node.Applied])

/-- Leaves lose their units and nothing else. -/
theorem applied_leaves (hg : g.Acyclic) (happlied : g.All Node.Applied)
    (h : (leaves : Pass α).apply deduplicate journal g = .ok (rev, journal')) :
    (rev.next g).All Node.Applied := by
  refine all_leaves hg h (fun i m hm _ => happlied i m hm) fun i n m hn hm p hp => ?_
  subst hp
  cases n with
  | parameter p' =>
    have hp' : isApplied p' := happlied i _ hn p' rfl
    rw [retouched?] at hm
    split_ifs at hm
    cases hm
    simpa [isApplied, stripParameter] using hp'
  | constant c =>
    obtain ⟨s, -, hs⟩ := Option.map_eq_some_iff.1 hm
    cases hs
  | literal s u =>
    obtain ⟨v, -, hv⟩ := Option.map_eq_some_iff.1 hm
    cases hv
  | expression e => cases hm

/-- New parameters are plain numbers. -/
theorem free_operators (hg : g.Sound) (happlied : g.All Node.Applied)
    (h : (operators : Pass α).apply deduplicate journal g = .ok (rev, journal')) :
    (rev.next g).All Node.Free := by
  refine all_operators hg h (happlied.mono fun n hn p hp => Or.inl (hn p hp)) (fun n hn => ?_)
    (by simp [Node.Free])
  rcases hn with ⟨x, rfl⟩ | rfl | ⟨e, rfl, -⟩
  · simp [Node.Free, Node.skeleton, Node.withOperands]
  · rintro p ⟨⟩
    exact Or.inr rfl
  · simp [Node.Free]

theorem inBasis_assertions (hg : g.Acyclic) (hbasis : g.All Node.InBasis)
    (h : (assertions : Pass α).apply deduplicate journal g = .ok (rev, journal')) :
    (rev.next g).All Node.InBasis := by
  refine all_assertions hg h hbasis (fun i e he => ?_) (by simp [Node.InBasis, theTruth]) ?_
  · have hop := op_of_inBasis hbasis he
    rintro e' ⟨⟩
    exact hop
  · rintro e ⟨⟩
    rfl

/-- Plain leaves are left alone. -/
theorem dirty_leaves_of_plain (hg : g.Acyclic) (hplain : g.All Node.Plain)
    (h : (leaves : Pass α).apply deduplicate journal g = .ok (rev, journal')) :
    rev.dirty = false := by
  refine Bool.eq_false_iff.2 fun hdirty => ?_
  obtain ⟨i, n, hn, hsome⟩ := (dirty_leaves_iff hg h).1 hdirty
  have hnone : retouched? n.skeleton = none := hplain i n hn
  rw [← retouched?_skeleton, hnone] at hsome
  cases hsome

/-- If the leaves are left alone they are plain. -/
theorem plain_of_clean (hg : g.Acyclic) (hclean : rev.dirty = false)
    (h : (leaves : Pass α).apply deduplicate journal g = .ok (rev, journal')) :
    g.All Node.Plain := by
  intro i n hn
  by_contra hne
  have hsome : (retouched? n).isSome := by
    rw [← retouched?_skeleton]
    exact Option.isSome_iff_ne_none.2 hne
  rw [(dirty_leaves_iff hg h).2 ⟨i, n, hn, hsome⟩] at hclean
  cases hclean

theorem plain_assertions (hg : g.Acyclic) (hplain : g.All Node.Plain)
    (h : (assertions : Pass α).apply deduplicate journal g = .ok (rev, journal')) :
    (rev.next g).All Node.Plain :=
  all_assertions hg h hplain (fun _ _ _ => rfl) rfl rfl

section One

variable (hone : ((1 : α) == 1) = true)

include hone

theorem plain_leaves (hg : g.Acyclic)
    (h : (leaves : Pass α).apply deduplicate journal g = .ok (rev, journal')) :
    (rev.next g).All Node.Plain :=
  all_leaves hg h (fun _ m _ hplain => (retouched?_skeleton m).trans hplain) fun _ _ _ _ hm =>
    plain_retouched hone hm

theorem plain_operators (hg : g.Sound) (hplain : g.All Node.Plain)
    (h : (operators : Pass α).apply deduplicate journal g = .ok (rev, journal')) :
    (rev.next g).All Node.Plain :=
  all_operators hg h hplain (fun _ => plain_sprout hone) fun _ _ _ _ _ => rfl

/-- On a graph that has been through a round the first pass only marks the new parameters. -/
theorem marks_domains (hg : g.Sound) (hready : g.Readied)
    (h : (domains : Pass α).apply deduplicate journal g = .ok (rev, journal')) :
    (rev.next g).All fun n => n.Plain ∧ n.InBasis := by
  have hreal : ∀ {i p}, g.node? i = some (.parameter p) → isApplied p = false → p = .real := by
    intro i p hp hunapplied
    refine ((hready i _ hp).1.2 p rfl).resolve_left ?_
    simp [hunapplied]
  refine all_domains hg.acyclic h (fun i m hm _ => (hready i m hm).2) (fun i p hp hunapplied => ?_)
    fun i p hp hunapplied s hs => ?_
  · rw [hreal hp hunapplied]
    exact ⟨plain_real hone rfl rfl rfl rfl, by simp [Node.InBasis]⟩
  · rw [hreal hp hunapplied] at hs
    cases hs

end One

end Pass

namespace Progress

variable {p p' : Progress α} {deduplicate dirty : Bool}

/-- One pass of a solve, with the revision that it gives. -/
structure Advance (deduplicate : Bool) (pass : Pass α) (p p' : Progress α) (rev : Revision α) :
    Prop where
  runPass : p.runPass deduplicate pass = .ok (p', rev.dirty)
  apply : ∃ journal, pass.apply deduplicate p.journal p.current = .ok (rev, journal)
  current : p'.current = rev.next p.current
  earlier : p'.earlier = if rev.dirty then p.current :: p.earlier else p.earlier
  steps : p'.steps = if rev.dirty then rev.mapping :: p.steps else p.steps

theorem advance_of_runPass {pass : Pass α} {published : Bool}
    (h : p.runPass deduplicate pass = .ok (p', published)) :
    ∃ rev, Advance deduplicate pass p p' rev ∧ published = rev.dirty := by
  have h₀ := h
  unfold Progress.runPass at h₀
  obtain ⟨⟨rev, journal⟩, happly, h₁⟩ := bind_eq_ok.1 h₀
  dsimp only at h₁
  refine ⟨rev, ?_⟩
  cases hdirty : rev.dirty with
  | false =>
    rw [hdirty] at h₁
    cases h₁
    exact ⟨⟨hdirty ▸ h, ⟨journal, happly⟩, by simp [Revision.next, hdirty], by simp [hdirty],
      by simp [hdirty]⟩, rfl⟩
  | true =>
    rw [hdirty] at h₁
    obtain ⟨_, -, h₂⟩ := bind_eq_ok.1 h₁
    cases h₂
    exact ⟨⟨hdirty ▸ h, ⟨journal, happly⟩, by simp [Revision.next, hdirty], by simp [hdirty],
      by simp [hdirty]⟩, rfl⟩

/-- A pass that changes nothing. -/
theorem Advance.idle {pass : Pass α} {rev : Revision α} (h : Advance deduplicate pass p p' rev)
    (hclean : rev.dirty = false) :
    p'.current = p.current ∧ p'.earlier = p.earlier ∧ p'.steps = p.steps := by
  refine ⟨h.current.trans ?_, h.earlier.trans ?_, h.steps.trans ?_⟩ <;> simp [Revision.next, hclean]

/-- A pass that publishes a graph of its own. -/
theorem Advance.published {pass : Pass α} {rev : Revision α} (h : Advance deduplicate pass p p' rev)
    (hdirty : rev.dirty = true) :
    p'.current = rev.generation ∧ p'.earlier = p.current :: p.earlier ∧
      p'.steps = rev.mapping :: p.steps := by
  refine ⟨h.current.trans ?_, h.earlier.trans ?_, h.steps.trans ?_⟩ <;> simp [Revision.next, hdirty]

/-- `S` holds of every graph so far with the steps that led to it. -/
structure Stages (S : Generation α → List (NodeMap NodeId) → Prop) (p : Progress α) : Prop where
  length : p.steps.length = p.earlier.length
  stages : ∀ i g, (p.current :: p.earlier).reverse[i]? = some g → S g (p.steps.reverse.take i)

section Stages

variable {S : Generation α → List (NodeMap NodeId) → Prop}

omit [Scalar α] in
theorem stages_start {g : Generation α} (h : S g []) : Stages S ⟨g, [], [], .empty⟩ := by
  refine ⟨rfl, fun i g' hi => ?_⟩
  cases i with
  | succ i => cases hi
  | zero =>
    cases hi
    exact h

omit [Scalar α] in
theorem Stages.current (h : Stages S p) : S p.current p.steps.reverse := by
  have hlast : (p.current :: p.earlier).reverse[p.earlier.length]? = some p.current := by simp
  have hstage := h.stages _ _ hlast
  rwa [← h.length, ← List.length_reverse, List.take_length] at hstage

/-- A pass either leaves the graphs as they are, or adds one at the end. -/
theorem Stages.advance {pass : Pass α} {rev : Revision α} (h : Stages S p)
    (hadv : Advance deduplicate pass p p' rev)
    (hnew : rev.dirty = true → S p'.current (p.steps.reverse ++ [rev.mapping])) : Stages S p' := by
  cases hdirty : rev.dirty with
  | false =>
    obtain ⟨hcurrent, hearlier, hsteps⟩ := hadv.idle hdirty
    exact ⟨by rw [hsteps, hearlier, h.length], by rw [hcurrent, hearlier, hsteps]; exact h.stages⟩
  | true =>
    obtain ⟨-, hearlier, hsteps⟩ := hadv.published hdirty
    have hlength : (p.current :: p.earlier).reverse.length = p.steps.length + 1 := by simp [h.length]
    refine ⟨by simp [hsteps, hearlier, h.length], fun i g hi => ?_⟩
    rw [hearlier, List.reverse_cons, List.getElem?_append] at hi
    rw [hsteps, List.reverse_cons]
    split_ifs at hi with hlt
    · rw [List.take_append_of_le_length (by rw [List.length_reverse]; omega)]
      exact h.stages i g hi
    · obtain rfl : g = p'.current := List.mem_singleton.1 (List.mem_of_getElem? hi)
      rw [List.take_of_length_le (by simp; omega)]
      exact hnew hdirty

end Stages

/-- Passes one after the other, over graphs that are in order. -/
inductive Course (deduplicate : Bool) : List (Pass α) → Progress α → Progress α → Bool → Prop
  | nil {p : Progress α} (h : Healthy p) : Course deduplicate [] p p false
  | cons {pass : Pass α} {passes : List (Pass α)} {p p₁ p' : Progress α} {rev : Revision α}
    {dirty : Bool} (h : Healthy p) (hpass : Advance deduplicate pass p p₁ rev)
    (hrest : Course deduplicate passes p₁ p' dirty) :
    Course deduplicate (pass :: passes) p p' (rev.dirty || dirty)

theorem Healthy.course (h : Healthy p) (deduplicate : Bool) :
    ∃ p' dirty, p.runRound deduplicate = .ok (p', dirty) ∧
      Course deduplicate Pass.pipeline p p' dirty := by
  obtain ⟨p₁, rev₁, hr₁, h₁, -, -⟩ := h.runPass deduplicate (Pass.gives_domains h.current)
  obtain ⟨p₂, rev₂, hr₂, h₂, -, -⟩ := h₁.runPass deduplicate (Pass.gives_assertions h₁.current)
  obtain ⟨p₃, rev₃, hr₃, h₃, -, -⟩ := h₂.runPass deduplicate (Pass.gives_leaves h₂.current)
  obtain ⟨p₄, rev₄, hr₄, h₄, ⟨hops, hops'⟩, hc₄⟩ := h₃.runPass deduplicate
    (Pass.gives_operators h₃.current)
  have hcanon : ∀ id, ¬ p₄.current.Foreign id := by
    rw [hc₄]
    split_ifs with hdirty
    · exact hops
    · exact hops' (Bool.eq_false_iff.2 hdirty)
  obtain ⟨p₅, rev₅, hr₅, h₅, -, -⟩ := h₄.runPass deduplicate (Pass.gives_nesting h₄.current hcanon)
  obtain ⟨_, a₁, e₁⟩ := advance_of_runPass hr₁
  obtain ⟨_, a₂, e₂⟩ := advance_of_runPass hr₂
  obtain ⟨_, a₃, e₃⟩ := advance_of_runPass hr₃
  obtain ⟨_, a₄, e₄⟩ := advance_of_runPass hr₄
  obtain ⟨_, a₅, e₅⟩ := advance_of_runPass hr₅
  refine ⟨p₅, _, runRound_of_passes hr₁ hr₂ hr₃ hr₄ hr₅, ?_⟩
  have hcourse := Course.cons h a₁ (.cons h₁ a₂ (.cons h₂ a₃ (.cons h₃ a₄ (.cons h₄ a₅ (.nil h₅)))))
  rw [e₁, e₂, e₃, e₄, e₅]
  simpa [Pass.pipeline, Bool.or_assoc] using hcourse

namespace Course

variable {passes : List (Pass α)}

theorem healthy (h : Course deduplicate passes p p' dirty) : Healthy p' := by
  induction h with
  | nil h => exact h
  | cons _ _ _ ih => exact ih

theorem start (h : Course deduplicate passes p p' dirty) : Healthy p := by
  cases h with
  | nil h => exact h
  | cons h _ _ => exact h

/-- What every pass keeps is kept by all of them. -/
theorem invariant {I : Progress α → Prop} (h : Course deduplicate passes p p' dirty) (hI : I p)
    (hstep : ∀ pass ∈ passes, ∀ {p p' rev}, Healthy p → Healthy p' →
      Advance deduplicate pass p p' rev → I p → I p') : I p' := by
  induction h with
  | nil => exact hI
  | cons hp hpass hrest ih =>
    exact ih (hstep _ (by simp) hp hrest.start hpass hI) fun pass hmem => hstep pass (.tail _ hmem)

theorem assertable (h : Course deduplicate Pass.pipeline p p' dirty)
    (hassert : p.current.All Node.Assertable) : p'.current.All Node.Assertable := by
  refine h.invariant (I := fun p => p.current.All Node.Assertable) hassert ?_
  intro pass hmem p p' rev hp _ hpass hassert
  obtain ⟨journal, happly⟩ := hpass.apply
  rw [hpass.current]
  exact assertable_pipeline hp.current hassert hmem happly

section Rounds

variable (hone : ((1 : α) == 1) = true) (h : Course deduplicate Pass.pipeline p p' dirty)

include hone h

/-- The first round. -/
theorem readied (hassert : p.current.All Node.Assertable) : p'.current.Readied := by
  have hassert' := h.assertable hassert
  rcases h with _ | ⟨h₁, a₁, _ | ⟨h₂, a₂, _ | ⟨h₃, a₃, _ | ⟨h₄, a₄, _ | ⟨h₅, a₅, ⟨-⟩⟩⟩⟩⟩⟩
  obtain ⟨_, r₁⟩ := a₁.apply
  obtain ⟨_, r₂⟩ := a₂.apply
  obtain ⟨_, r₃⟩ := a₃.apply
  obtain ⟨_, r₄⟩ := a₄.apply
  obtain ⟨_, r₅⟩ := a₅.apply
  have happlied₁ := a₁.current ▸ applied_domains h₁.current.acyclic r₁
  have happlied₂ := a₂.current ▸ applied_assertions h₂.current.acyclic happlied₁ r₂
  have happlied₃ := a₃.current ▸ applied_leaves h₃.current.acyclic happlied₂ r₃
  have hplain₃ := a₃.current ▸ plain_leaves hone h₃.current.acyclic r₃
  have hfree₄ := a₄.current ▸ free_operators h₄.current happlied₃ r₄
  have hplain₄ := a₄.current ▸ plain_operators hone h₄.current hplain₃ r₄
  have hbasis₄ := a₄.current ▸ inBasis_operators h₄.current r₄
  have hall := a₅.current ▸ all_nesting h₅.current r₅ (hfree₄.and (hplain₄.and hbasis₄))
  exact fun id n hn => ⟨⟨hassert' id n hn, (hall id n hn).1⟩, (hall id n hn).2⟩

/-- The second round. -/
theorem tidy (hready : p.current.Readied) : p'.current.Tidy := by
  have hassert := h.assertable (hready.mono fun _ hn => hn.1.1)
  rcases h with _ | ⟨h₁, a₁, _ | ⟨h₂, a₂, _ | ⟨h₃, a₃, _ | ⟨h₄, a₄, _ | ⟨h₅, a₅, ⟨-⟩⟩⟩⟩⟩⟩
  obtain ⟨_, r₁⟩ := a₁.apply
  obtain ⟨_, r₂⟩ := a₂.apply
  obtain ⟨_, r₃⟩ := a₃.apply
  obtain ⟨_, r₄⟩ := a₄.apply
  obtain ⟨_, r₅⟩ := a₅.apply
  have hassert₁ := a₁.current ▸
    assertable_pipeline h₁.current (hready.mono fun _ hn => hn.1.1) (by simp [Pass.pipeline]) r₁
  have happlied₁ := a₁.current ▸ applied_domains h₁.current.acyclic r₁
  have hplain₁ := a₁.current ▸ marks_domains hone h₁.current hready r₁
  have happlied₂ := a₂.current ▸ applied_assertions h₂.current.acyclic happlied₁ r₂
  have hplain₂ := a₂.current ▸ plain_assertions h₂.current.acyclic (hplain₁.mono fun _ hn => hn.1) r₂
  have hbasis₂ := a₂.current ▸
    inBasis_assertions h₂.current.acyclic (hplain₁.mono fun _ hn => hn.2) r₂
  have hworded₂ := a₂.current ▸ worded_assertions h₂.current.acyclic hassert₁ r₂
  obtain ⟨hc₃, -⟩ := a₃.idle (dirty_leaves_of_plain h₃.current.acyclic hplain₂ r₃)
  rw [← hc₃] at happlied₂ hplain₂ hbasis₂ hworded₂
  obtain ⟨hc₄, -⟩ := a₄.idle (dirty_operators_of_inBasis hbasis₂ r₄)
  rw [← hc₄] at happlied₂ hplain₂ hbasis₂ hworded₂
  have hall := a₅.current ▸ all_nesting h₅.current r₅ (happlied₂.and (hplain₂.and hbasis₂))
  exact ⟨fun id n hn => ⟨⟨hassert id n hn, (hall id n hn).1⟩, (hall id n hn).2⟩,
    a₅.current ▸ worded_nesting h₅.current hworded₂ r₅⟩

end Rounds

/-- From the third round on: only the last pass can change something, and if it does the graph is
lighter. -/
theorem lighter (h : Course deduplicate Pass.pipeline p p' dirty) (htidy : p.current.Tidy) :
    p'.current.Tidy ∧ ∃ p₁ p₂ p₃ p₄, p.runPass deduplicate .domains = .ok (p₁, false) ∧
      p₁.runPass deduplicate .assertions = .ok (p₂, false) ∧
      p₂.runPass deduplicate .leaves = .ok (p₃, false) ∧
      p₃.runPass deduplicate .operators = .ok (p₄, false) ∧
      p₄.runPass deduplicate .nesting = .ok (p', dirty) ∧
      (dirty → p'.earlier = p.current :: p.earlier ∧ p'.current.Lighter p.current) := by
  rcases h with _ | ⟨h₁, a₁, _ | ⟨h₂, a₂, _ | ⟨h₃, a₃, _ | ⟨h₄, a₄, _ | ⟨h₅, a₅, ⟨-⟩⟩⟩⟩⟩⟩
  rename_i p₁ rev₁ p₂ rev₂ p₃ rev₃ p₄ rev₄ rev₅
  obtain ⟨_, r₁⟩ := a₁.apply
  obtain ⟨_, r₂⟩ := a₂.apply
  obtain ⟨_, r₃⟩ := a₃.apply
  obtain ⟨_, r₄⟩ := a₄.apply
  obtain ⟨_, r₅⟩ := a₅.apply
  have hclean₁ : rev₁.dirty = false := by
    refine Bool.eq_false_iff.2 fun hdirty => ?_
    obtain ⟨i, q, hq, hunapplied⟩ := (dirty_domains_iff h₁.current.acyclic r₁).1 hdirty
    rw [(htidy.nodes i _ hq).1.2 q rfl] at hunapplied
    cases hunapplied
  obtain ⟨hc₁, he₁, -⟩ := a₁.idle hclean₁
  rw [← hc₁] at htidy
  have hclean₂ : rev₂.dirty = false := by
    refine Bool.eq_false_iff.2 fun hdirty => ?_
    obtain ⟨i, e, he, hasserted, -, hsays⟩ := (dirty_assertions_iff h₂.current.acyclic r₂).1 hdirty
    rw [htidy.worded i e he hasserted] at hsays
    cases hsays
  obtain ⟨hc₂, he₂, -⟩ := a₂.idle hclean₂
  rw [← hc₂] at htidy
  have hclean₃ := dirty_leaves_of_plain h₃.current.acyclic (htidy.nodes.mono fun _ hn => hn.2.1) r₃
  obtain ⟨hc₃, he₃, -⟩ := a₃.idle hclean₃
  rw [← hc₃] at htidy
  have hclean₄ := dirty_operators_of_inBasis (htidy.nodes.mono fun _ hn => hn.2.2) r₄
  obtain ⟨hc₄, he₄, -⟩ := a₄.idle hclean₄
  rw [← hc₄] at htidy
  refine ⟨⟨a₅.current ▸ all_nesting h₅.current r₅ htidy.nodes,
    a₅.current ▸ worded_nesting h₅.current htidy.worded r₅⟩, p₁, p₂, p₃, p₄, hclean₁ ▸ a₁.runPass,
    hclean₂ ▸ a₂.runPass, hclean₃ ▸ a₃.runPass, hclean₄ ▸ a₄.runPass, ?_, fun hdirty => ?_⟩
  · simpa [hclean₁, hclean₂, hclean₃, hclean₄] using a₅.runPass
  · have hdirty₅ : rev₅.dirty := by simpa [hclean₁, hclean₂, hclean₃, hclean₄] using hdirty
    rw [← hc₁, ← hc₂, ← hc₃, ← hc₄, ← he₁, ← he₂, ← he₃, ← he₄]
    refine ⟨a₅.earlier.trans (if_pos hdirty₅), ?_⟩
    obtain ⟨d, hd, rfl⟩ := exists_compressed h₅.current r₅
    rw [a₅.current, Revision.next, if_pos hdirty₅]
    by_cases hover : ∃ id e, Overgrown p₄.current id e
    · obtain ⟨id, e, hover⟩ := hover
      exact hd.lighter h₅.current.toLinked hover
    · simp only [not_exists] at hover
      rw [dirty_of_not_overgrown hover r₅] at hdirty₅
      cases hdirty₅

end Course

/-- The rounds of a solve end with one that changes nothing, and what every round keeps holds then. -/
theorem Healthy.of_runRounds {I : Progress α → Prop} {budget rounds n : ℕ} (h : Healthy p) (hI : I p)
    (hround : ∀ {p p' dirty}, Course deduplicate Pass.pipeline p p' dirty → I p → I p')
    (hr : p.runRounds deduplicate budget rounds = .ok (p', n)) :
    ∃ p₁, Course deduplicate Pass.pipeline p₁ p' false ∧ I p₁ := by
  induction budget generalizing rounds p with
  | zero => cases hr
  | succ budget ih =>
    obtain ⟨q, dirty, hq, hcourse⟩ := h.course deduplicate
    rw [Progress.runRounds, hq] at hr
    cases dirty with
    | false =>
      cases hr
      exact ⟨p, hcourse, hI⟩
    | true => exact ih hcourse.healthy (hround hcourse hI) hr

end Progress

/-- A solve is its rounds. -/
theorem runRounds_of_solve {config : Config} {g : Generation α} {s : Solution α}
    (h : solve config g = .ok s) : ∃ p n,
      Progress.runRounds config.deduplicate config.maxRounds 0 ⟨g, [], [], .empty⟩ = .ok (p, n) ∧
      s.last = p.current ∧ s.generations = (p.current :: p.earlier).reverse ∧
      s.mappings = p.steps.reverse := by
  unfold solve at h
  obtain ⟨_, -, h₁⟩ := Progress.bind_eq_ok.1 h
  obtain ⟨⟨p, n⟩, hr, h₂⟩ := Progress.bind_eq_ok.1 h₁
  refine ⟨p, n, hr, ?_⟩
  dsimp only at h₂
  split at h₂
  · cases h₂
  · cases h₂
    exact ⟨rfl, rfl, rfl⟩

end ParameterSolver
