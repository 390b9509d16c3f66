import ParameterSolver.Proofs.Blueprint.Origins
import ParameterSolver.Proofs.Solve.NormalForm

/-! Where the nodes of a solve come from. Every pass hands the origins of a node on to what stands
for it and brings in no others, and no assertion is lost but those that depend on an operator without
a law. -/

namespace ParameterSolver

open Draft Pass

variable {α : Type} [Scalar α] {g : Generation α} {d : Draft α} {deduplicate : Bool}
  {journal journal' : Journal} {rev : Revision α} {o : Origin}

/-! Origins. -/

/-- Every pass is a draft that keeps track of origins. -/
theorem sourced_pipeline (hg : g.Sound) {pass : Pass α} (hpass : pass ∈ Pass.pipeline)
    (h : pass.apply deduplicate journal g = .ok (rev, journal')) :
    ∃ d, rev = ⟨d.output, d.dirty, d.mapping⟩ ∧ d.input = g ∧ d.Coherent ∧ Sourced d := by
  simp only [pipeline, List.mem_cons, List.not_mem_nil, or_false] at hpass
  rcases hpass with rfl | rfl | rfl | rfl | rfl
  · obtain ⟨d, hd, hrev⟩ := outcome_domains hg.acyclic h
    exact ⟨d, hrev, hd.input, hd.coherent, hd.sourced⟩
  · obtain ⟨d, hd, hrev⟩ := outcome_assertions hg.acyclic h
    exact ⟨d, hrev, hd.input, hd.coherent, hd.sourced⟩
  · obtain ⟨d, hd, hrev⟩ := outcome_leaves hg.acyclic h
    exact ⟨d, hrev, hd.input, hd.coherent, hd.sourced⟩
  · obtain ⟨d, hd, hrev⟩ := exists_canonized hg h
    exact ⟨d, hrev, hd.input, hd.coherent, hd.sourced⟩
  · obtain ⟨d, hd, hrev⟩ := exists_compressed hg h
    exact ⟨d, hrev, hd.input, hd.coherent, hd.sourced⟩

namespace Progress

variable {p p' : Progress α}

/-- Nodes have the origins of what they have become of, and no graph so far has others. -/
structure Traces (g : Generation α) (p : Progress α) : Prop where
  credited : ∀ i j q, resolveThrough? p.steps.reverse i = some j → g.provenance? i = some q →
    ∃ r, p.current.provenance? j = some r ∧ ∀ o ∈ q, o ∈ r
  drawn : ∀ g' ∈ p.current :: p.earlier, g'.origins = g.origins ∧
    ∀ j q, g'.provenance? j = some q → ∀ o ∈ q, ∃ i r, g.provenance? i = some r ∧ o ∈ r

omit [Scalar α] in
theorem traces_start (g : Generation α) : Traces g ⟨g, [], [], .empty⟩ := by
  refine ⟨fun i j q hj hq => ?_, fun g' hg' => ?_⟩
  · cases hj
    exact ⟨q, hq, fun _ h => h⟩
  · obtain rfl : g' = g := by simpa using hg'
    exact ⟨rfl, fun j q hq o ho => ⟨j, q, hq, ho⟩⟩

/-- What one pass does to origins. -/
theorem Traces.advance {pass : Pass α} (h : Traces g p) (hp : Healthy p)
    (hpass : pass ∈ Pass.pipeline) (hadv : Advance deduplicate pass p p' rev) : p'.Traces g := by
  obtain ⟨_, happly⟩ := hadv.apply
  obtain ⟨d, rfl, hin, hd, hs⟩ := sourced_pipeline hp.current hpass happly
  cases hdirty : d.dirty with
  | false =>
    obtain ⟨hc, he, hsteps⟩ := hadv.idle hdirty
    refine ⟨?_, ?_⟩
    · rw [hc, hsteps]
      exact h.credited
    · rw [hc, he]
      exact h.drawn
  | true =>
    obtain ⟨hc, he, hsteps⟩ := hadv.published hdirty
    refine ⟨fun i j q hj hq => ?_, fun g' hg' => ?_⟩
    · rw [hsteps, List.reverse_cons, resolveThrough?_append] at hj
      obtain ⟨k, hk, hkj⟩ := Option.bind_eq_some_iff.1 hj
      obtain ⟨r, hr, hsub⟩ := h.credited i k q hk hq
      obtain ⟨r', hr', hsub'⟩ := hs.credited k j r hkj (hin ▸ hr)
      exact ⟨r', hc ▸ hr', fun o ho => hsub' o (hsub o ho)⟩
    · rw [hc, he, List.mem_cons] at hg'
      rcases hg' with rfl | hg'
      · obtain ⟨horigins, hdrawn⟩ := h.drawn p.current (by simp)
        refine ⟨hd.origins.trans (hin ▸ horigins), fun j q hq o ho => ?_⟩
        obtain ⟨i, r, hr, hor⟩ := hs.drawn j q hq o ho
        exact hdrawn i r (hin ▸ hr) o hor
      · exact h.drawn g' hg'

end Progress

/-! Assertions. -/

omit [Scalar α] in
/-- What is under an output node comes from under the node it stands for. -/
theorem Generation.Tainted.of_image {i j : NodeId} (h : d.output.Tainted j)
    (hops : ∀ i j k, d.mapping.get? i = some j → k ∈ d.output.operands j →
      ∃ x, d.mapping.get? x = some k ∧ Relation.ReflTransGen g.Uses i x)
    (hop : ∀ i j, d.mapping.get? i = some j → d.output.Unsupported j → g.Unsupported i)
    (hj : d.mapping.get? i = some j) : g.Tainted i := by
  obtain ⟨x, hx, hun⟩ := h
  induction hx using Relation.ReflTransGen.head_induction_on generalizing i with
  | refl => exact (hop i x hj hun).tainted
  | head hk _ ih =>
    obtain ⟨y, hy, hreach⟩ := hops _ _ _ hj hk
    obtain ⟨z, hz, hunz⟩ := ih hy
    exact ⟨z, hreach.trans hz, hunz⟩

/-- Some assertion that will not be dropped has the origin. -/
def Generation.Upholds (g : Generation α) (o : Origin) : Prop :=
  ∃ c e q, g.node? c = some (.expression e) ∧ e.asserted ∧ ¬ g.Tainted c ∧
    g.provenance? c = some q ∧ o ∈ q

omit [Scalar α] in
theorem Draft.Sourced.upholds {c j : NodeId} {q : Provenance} {e : Expression} (h : Sourced d)
    (hq : d.input.provenance? c = some q) (ho : o ∈ q) (hj : d.mapping.get? c = some j)
    (he : d.output.node? j = some (.expression e)) (hasserted : e.asserted)
    (ht : ¬ d.output.Tainted j) : d.output.Upholds o := by
  obtain ⟨r, hr, hsub⟩ := h.credited c j q hj hq
  exact ⟨j, e, r, he, hasserted, ht, hr, hsub o ho⟩

section Outcome

variable {due : NodeId → Prop} {W C : Draft α → NodeId → Node α → Prop} {Q : NodeId → Node α → Prop}
  {E : NodeId → Draft α → Prop} (h : Outcome g due W C Q E deduplicate journal d)
  (hW : ∀ d i n, d.input = g → due i → W d i n → d.Images (g.operands i) n.operands)
  (hQ : ∀ i e, Q i (.expression e) → ∃ e', g.node? i = some (.expression e') ∧ e'.op = e.op)

include h hW hQ

omit [Scalar α]

/-- A pass that removes nothing and keeps operators taints nothing. -/
theorem Outcome.tainted {i j : NodeId} (hj : d.mapping.get? i = some j) (ht : d.output.Tainted j) :
    g.Tainted i := by
  refine ht.of_image (fun i j k hj hk => ?_) (fun i j hj hun => ?_) hj
  · obtain ⟨x, hx, hxk⟩ := (h.images hW hj).exists_source hk
    exact ⟨x, hxk, .single hx⟩
  · obtain ⟨e, he, hop⟩ := hun
    rcases h.inventory (R := fun _ _ => True) (fun _ _ _ _ => trivial) he with
      ⟨i', m, hi', hm, -, hsame⟩ | ⟨i', hi', -, hq⟩ | ⟨hfree, -⟩
    · obtain rfl := h.coherent.injective i i' j hj hi'
      obtain ⟨e', rfl, hop', -⟩ := Node.expression_of_skeleton hsame.symm
      exact ⟨e', hm, hop' ▸ hop⟩
    · obtain rfl := h.coherent.injective i i' j hj hi'
      obtain ⟨e', he', hop'⟩ := hQ i _ hq
      exact ⟨e', he', hop' ▸ hop⟩
    · exact absurd hj (hfree i)

/-- An assertion that is not due is handed on. -/
theorem Outcome.upholds {c : NodeId} {e : Expression} {q : Provenance}
    (hc : g.node? c = some (.expression e)) (hasserted : e.asserted) (ht : ¬ g.Tainted c)
    (hq : g.provenance? c = some q) (ho : o ∈ q) (hdue : ¬ due c) : d.output.Upholds o := by
  obtain ⟨j, hj⟩ := h.mapped (Generation.contains_of_node? hc)
  obtain ⟨n, hn⟩ := Generation.contains_iff.1 (h.coherent.mapped c j hj).2
  rcases h.inventory (R := fun _ _ => True) (fun _ _ _ _ => trivial) hn with
    ⟨c', m, hc', hm, -, hsame⟩ | ⟨c', hc', hdue', -⟩ | ⟨hfree, -⟩
  · obtain rfl := h.coherent.injective c c' j hj hc'
    cases hc.symm.trans hm
    obtain ⟨e', rfl, -, hasserted'⟩ := Node.expression_of_skeleton hsame
    exact h.sourced.upholds (h.input ▸ hq) ho hj hn (hasserted' ▸ hasserted) fun ht' =>
      ht (h.tainted hW hQ hj ht')
  · exact absurd (h.coherent.injective c c' j hj hc' ▸ hdue') hdue
  · exact absurd hj (hfree c)

end Outcome

theorem upholds_domains (hg : g.Acyclic) (ho : g.Upholds o)
    (h : (domains : Pass α).apply deduplicate journal g = .ok (rev, journal')) :
    rev.generation.Upholds o := by
  obtain ⟨c, e, q, hc, hasserted, ht, hq, ho⟩ := ho
  obtain ⟨d, hd, rfl⟩ := outcome_domains hg h
  refine hd.upholds images_domains ?_ hc hasserted ht hq ho ?_
  · rintro i e ⟨p, -, heq⟩
    cases heq
  · rintro ⟨p, hp, -⟩
    cases hc.symm.trans hp

theorem upholds_leaves (hg : g.Acyclic) (ho : g.Upholds o)
    (h : (leaves : Pass α).apply deduplicate journal g = .ok (rev, journal')) :
    rev.generation.Upholds o := by
  obtain ⟨c, e, q, hc, hasserted, ht, hq, ho⟩ := ho
  obtain ⟨d, hd, rfl⟩ := outcome_leaves hg h
  refine hd.upholds images_leaves ?_ hc hasserted ht hq ho ?_
  · rintro i e ⟨n, -, hm⟩
    cases expression?_of_retouched? hm
  · rintro ⟨n, hn, hsome⟩
    cases hc.symm.trans hn
    cases hsome

/-- An assertion that is due is handed on to the one that it is true. -/
theorem upholds_assertions (hg : g.Acyclic) (ho : g.Upholds o)
    (h : (assertions : Pass α).apply deduplicate journal g = .ok (rev, journal')) :
    rev.generation.Upholds o := by
  obtain ⟨c, e, q, hc, hasserted, ht, hq, ho⟩ := ho
  obtain ⟨d, hd, rfl⟩ := outcome_assertions hg h
  have hQ : ∀ i e, IsRelieved g i (.expression e) →
      ∃ e', g.node? i = some (.expression e') ∧ e'.op = e.op := by
    rintro i e ⟨e', he', heq⟩
    cases heq
    exact ⟨e', he', rfl⟩
  by_cases hdue : Unwrapped g c
  · obtain ⟨c', inner, k, q', hinner, ⟨-, hk⟩, ⟨-, hc'⟩, hq', hsub⟩ := (hd.stands c hdue).2.1
    refine ⟨c', _, q', hc', rfl, fun ht' => ht ?_, hq', hsub q hq o ho⟩
    -- the new assertion is over the old one and a literal
    obtain ⟨x, hx, e', he', hop⟩ := ht'
    rcases Relation.ReflTransGen.cases_head hx with rfl | ⟨y, hy, hyx⟩
    · cases hc'.symm.trans he'
      simp at hop
    · rw [Generation.Uses, Generation.operands_of_node? hc'] at hy
      rcases List.mem_pair.1 hy with rfl | rfl
      · exact hd.tainted images_assertions hQ hinner ⟨x, hyx, e', he', hop⟩
      · rcases Relation.ReflTransGen.cases_head hyx with rfl | ⟨z, hz, -⟩
        · cases hk.symm.trans he'
        · rw [Generation.Uses, Generation.operands_of_node? hk] at hz
          cases hz
  · exact hd.upholds images_assertions hQ hc hasserted ht hq ho hdue

omit [Scalar α] in
theorem Generation.not_tainted (hg : ∀ id, ¬ g.Foreign id) (id : NodeId) : ¬ g.Tainted id := by
  rintro ⟨x, -, e, he, hop⟩
  refine hg x ⟨e, he, ?_⟩
  rcases hop with hop | hop | hop <;> rw [hop] <;> rfl

/-- The law of a predicate gives a predicate. -/
theorem upholds_operators (hg : g.Sound) (hassert : g.All Node.Assertable) (ho : g.Upholds o)
    (h : (operators : Pass α).apply deduplicate journal g = .ok (rev, journal')) :
    rev.generation.Upholds o := by
  obtain ⟨c, e, q, hc, hasserted, ht, hq, ho⟩ := ho
  have hpred : e.op.isPredicate := hassert c _ hc ⟨e.op, [], e.asserted⟩ rfl hasserted
  obtain ⟨rev', _, h', -, hforeign, -⟩ := gives_operators hg deduplicate journal
  cases h.symm.trans h'
  obtain ⟨d, hd, rfl⟩ := exists_canonized hg h
  obtain ⟨j, hj⟩ := hd.mapped (Generation.contains_of_node? hc) ht
  obtain ⟨n, hn⟩ := Generation.contains_iff.1 (hd.coherent.mapped c j hj).2
  obtain ⟨e', rfl, hasserted'⟩ : ∃ e', n = .expression e' ∧ e'.asserted := by
    rcases hd.inventory hn with ⟨i, m, hi, hm, hsame⟩ |
      ⟨i, f, hi, hf, -, ⟨-, hnot⟩ | ⟨op, js, rfl, -⟩⟩ | ⟨hfree, -⟩
    · obtain rfl := hd.coherent.injective c i j hj hi
      cases hc.symm.trans hm
      obtain ⟨e', rfl, -, hasserted'⟩ := Node.expression_of_skeleton hsame
      exact ⟨e', rfl, hasserted' ▸ hasserted⟩
    · obtain rfl := hd.coherent.injective c i j hj hi
      cases hc.symm.trans hf
      rw [hpred] at hnot
      cases hnot
    · obtain rfl := hd.coherent.injective c i j hj hi
      cases hc.symm.trans hf
      exact ⟨_, rfl, hasserted⟩
    · exact absurd hj (hfree c)
  exact hd.sourced.upholds (hd.input ▸ hq) ho hj hn hasserted' (Generation.not_tainted hforeign j)

/-- Assertions are not merged into their users. -/
theorem upholds_nesting (hg : g.Sound) (ho : g.Upholds o)
    (h : (nesting : Pass α).apply deduplicate journal g = .ok (rev, journal')) :
    rev.generation.Upholds o := by
  obtain ⟨c, e, q, hc, hasserted, ht, hq, ho⟩ := ho
  obtain ⟨d, hd, rfl⟩ := exists_compressed hg h
  have hl := hg.toLinked
  have hkept : isAbsorbed g c = false := by
    refine Bool.eq_false_iff.2 fun habs => ?_
    obtain ⟨e', he', hnot⟩ := expression_of_isAbsorbed habs
    cases hc.symm.trans he'
    rw [hasserted] at hnot
    cases hnot
  obtain ⟨j, hj⟩ := hd.mapped hl (Generation.contains_of_node? hc) hkept
  -- an output node looks like the node it stands for
  have hlook : ∀ {i j n}, d.mapping.get? i = some j → d.output.node? j = some n →
      ∃ m, g.node? i = some m ∧ n.skeleton = m.skeleton := by
    intro i j n hj hn
    obtain ⟨i', m, hi', hm, hsame⟩ := hd.inventory hl hn
    exact ⟨m, hd.coherent.injective i i' j hj hi' ▸ hm, hsame⟩
  obtain ⟨n, hn⟩ := Generation.contains_iff.1 (hd.coherent.mapped c j hj).2
  obtain ⟨m, hm, hsame⟩ := hlook hj hn
  cases hc.symm.trans hm
  obtain ⟨e', rfl, -, hasserted'⟩ := Node.expression_of_skeleton hsame
  refine hd.sourced.upholds (hd.input ▸ hq) ho hj hn (hasserted' ▸ hasserted) fun ht' =>
    ht (ht'.of_image (fun i j k hj hk => ?_) (fun i j hj hun => ?_) hj)
  · obtain ⟨l, hsource, himages⟩ := (hd.thinned hl).mirrors i j trivial hj
    obtain ⟨x, hx, hxk⟩ := himages.exists_source hk
    refine ⟨x, hxk, ?_⟩
    rcases hsource with rfl | ⟨f, hover, rfl⟩
    · exact .single hx
    · exact (uses_of_flattened hover.node? x (Or.inl (mem_keptOperands.1 hx))).to_reflTransGen
  · obtain ⟨f, hf, hop⟩ := hun
    obtain ⟨m, hm, hsame⟩ := hlook hj hf
    obtain ⟨f', rfl, hop', -⟩ := Node.expression_of_skeleton hsame.symm
    exact ⟨f', hm, hop' ▸ hop⟩

theorem Progress.Course.traces {p p' : Progress α} {dirty : Bool}
    (h : Course deduplicate Pass.pipeline p p' dirty) (ht : p.Traces g) : p'.Traces g :=
  h.invariant ht fun _ hpass _ _ _ hp _ hadv ht => ht.advance hp hpass hadv

theorem Progress.Course.upholds {p p' : Progress α} {dirty : Bool}
    (h : Course deduplicate Pass.pipeline p p' dirty) (hassert : p.current.All Node.Assertable)
    (ho : p.current.Upholds o) : p'.current.Upholds o := by
  refine (h.invariant (I := fun p => p.current.All Node.Assertable ∧ p.current.Upholds o)
    ⟨hassert, ho⟩ ?_).2
  rintro pass hpass p p' rev hp - hadv ⟨hassert, ho⟩
  obtain ⟨_, happly⟩ := hadv.apply
  rw [hadv.current]
  refine ⟨assertable_pipeline hp.current hassert hpass happly, ?_⟩
  unfold Revision.next
  split_ifs
  · simp only [pipeline, List.mem_cons, List.not_mem_nil, or_false] at hpass
    rcases hpass with rfl | rfl | rfl | rfl | rfl
    · exact upholds_domains hp.current.acyclic ho happly
    · exact upholds_assertions hp.current.acyclic ho happly
    · exact upholds_leaves hp.current.acyclic ho happly
    · exact upholds_operators hp.current hassert ho happly
    · exact upholds_nesting hp.current ho happly
  · exact ho

/-- No assertion and no origin is lost: what is asserted in a graph that was built is asserted in the
last graph, unless it depends on an operator without a law; what a node has become of has its origin;
and the nodes of all graphs come from nodes of the first. -/
theorem origins_of_solve {b : Blueprint Float} {g : Generation Float} (hb : b.Reachable)
    (h : b.build = .ok g) {config : Config} {s : Solution Float} (hs : solve config g = .ok s) :
    (∀ id, g.contains id → ∃ o, g.origins.originOf? id = some o ∧
      (∀ e, g.node? id = some (.expression e) → e.asserted → ¬ g.Tainted id →
        ∃ j e' q, s.last.node? j = some (.expression e') ∧ e'.op = .is ∧ e'.asserted ∧
          s.last.provenance? j = some q ∧ o ∈ q) ∧
      (∀ j, s.resolve? id = some j → ∃ q, s.last.provenance? j = some q ∧ o ∈ q)) ∧
    ∀ g' ∈ s.generations, g'.origins = g.origins ∧ ∀ id q, g'.provenance? id = some q →
      (∃ o, o ∈ q) ∧ ∀ o ∈ q, ∃ k, g.origins.node? o = some k ∧ g.contains k := by
  have hstart : Progress.Healthy (⟨g, [], [], .empty⟩ : Progress Float) := ⟨hb.sound h, by simp⟩
  obtain ⟨p, n, hr, hlast, hgens, hmaps⟩ := runRounds_of_solve hs
  obtain ⟨p₁, hcourse, hassert, htraces, hupholds⟩ := hstart.of_runRounds
    (I := fun p => p.current.All Node.Assertable ∧ p.Traces g ∧
      ∀ o, g.Upholds o → p.current.Upholds o)
    ⟨hb.assertable h, Progress.traces_start g, fun _ ho => ho⟩
    (fun hcourse ⟨hassert, htraces, hupholds⟩ => ⟨hcourse.assertable hassert,
      hcourse.traces htraces, fun o ho => hcourse.upholds hassert (hupholds o ho)⟩) hr
  have htraces := hcourse.traces htraces
  have hsettled := hcourse.settled hassert
  obtain ⟨-, rfl⟩ := Blueprint.of_build h
  have horiginal := Blueprint.original_of_reachable hb
  refine ⟨fun id hid => ?_, fun g' hg' => ?_⟩
  · obtain ⟨q, hq⟩ := Generation.exists_provenance? hid
    obtain ⟨o, ho, rfl⟩ := horiginal.own id q hq
    have hmem : o ∈ SortedSet.singleton o := SortedSet.mem_singleton.2 rfl
    rw [hlast]
    refine ⟨o, ho, fun e he hasserted ht => ?_, fun j hj => ?_⟩
    · obtain ⟨j, e', r, hj, hasserted', -, hr, hor⟩ := hcourse.upholds hassert
        (hupholds o ⟨id, e, _, he, hasserted, ht, hq, hmem⟩)
      exact ⟨j, e', r, hj, (saysTrue_iff.1 (hsettled.worded j e' hj hasserted')).1, hasserted', hr, hor⟩
    · rw [Solution.resolve?, hmaps] at hj
      obtain ⟨r, hr, hsub⟩ := htraces.credited id j _ hj hq
      exact ⟨r, hr, hsub o hmem⟩
  · rw [hgens, List.mem_reverse] at hg'
    obtain ⟨horigins, hdrawn⟩ := htraces.drawn g' hg'
    have horderly : g'.Orderly := List.forall_mem_cons.2
      ⟨hcourse.healthy.current.toOrderly, hcourse.healthy.earlier⟩ g' hg'
    refine ⟨horigins, fun id q hq => ⟨?_, fun o ho => ?_⟩⟩
    · obtain ⟨e, he, rfl⟩ := Option.map_eq_some_iff.1 hq
      exact (horderly.entries id e he).origin
    · obtain ⟨i, r, hr, hor⟩ := hdrawn id q hq o ho
      obtain ⟨x, hx, rfl⟩ := horiginal.own i r hr
      rw [SortedSet.mem_singleton.1 hor]
      have hnode := OriginTable.node?_of_originOf? hx
      exact ⟨i, hnode, Generation.contains_of_provenance? hr⟩

theorem origins_of_solve_overlap : Sample.overlap.build = .ok Sample.overlap.generation ∧
    ∃ s, solve {} Sample.overlap.generation = .ok s ∧
      ∃ j e q, s.last.node? j = some (.expression e) ∧ e.op = .is ∧ e.asserted ∧
        s.last.provenance? j = some q ∧ 5 ∈ q := by
  have hbuild : Sample.overlap.build = .ok Sample.overlap.generation := by
    rfl
  have hnode : Sample.overlap.generation.node? (.nth 5)
      = some (.expression ⟨.isSuperset, [.nth 4, .nth 2], true⟩) := by
    rfl
  have hops : Sample.overlap.generation.expressions.map (·.2.op)
      = [.min, .intersection, .isSuperset] := by
    rfl
  have huntainted : ¬ Sample.overlap.generation.Tainted (.nth 5) := by
    rintro ⟨x, -, e, he, hop⟩
    have hmem : e.op ∈ Sample.overlap.generation.expressions.map (·.2.op) :=
      List.mem_map.2 ⟨(x, e), Generation.mem_expressions.2 he, rfl⟩
    rw [hops] at hmem
    rcases hop with hop | hop | hop <;> rw [hop] at hmem <;> revert hmem <;> decide
  obtain ⟨s, hs⟩ := Sample.overlap_solved
  obtain ⟨o, ho, hasserted, -⟩ := (origins_of_solve Sample.overlap_reachable hbuild hs).1 (.nth 5) rfl
  have hfive : Sample.overlap.generation.origins.originOf? (.nth 5) = some 5 := by
    rw [OriginTable.originOf?_eq]
    rfl
  cases hfive.symm.trans ho
  exact ⟨hbuild, s, hs, hasserted _ hnode rfl huntainted⟩

end ParameterSolver
