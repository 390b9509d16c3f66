import ParameterSolver.Proofs.Pass.Weaving
import ParameterSolver.Proofs.Solve.Convergence

/-! What a solve makes of a graph with one difference or intersection of sets: the first round puts the
tree of the law in its place, and all later ones keep what it means. So the solved graph is contradictory
just if evaluation makes nothing of the tree, which it does for an intersection if one of the sets is what
those before it have in common, whether or not that is empty. -/

namespace ParameterSolver

open Pass

variable {α : Type} [Scalar α] [Scalar.Ordered α] [Scalar.Reading α] {g : Generation α} {k : Family}
  {op : Operator} {ps : List (Set (Value ℝ))} {id : NodeId} {e : Expression} {deduplicate dirty : Bool}
  {journal journal' : Journal} {rev : Revision α}

namespace Generation

/-- A stage of the solve: the graph as it was but for the units, or with the tree of the law. -/
def Stage (g : Generation α) (op : Operator) (ps : List (Set (Value ℝ))) : Prop :=
  (∃ k id e, g.Single k op ps id e) ∨
    ∃ k, g.Woven k ((Interpretation.extents (α := α)).encoded op ps = ∅)

omit [Scalar.Ordered α] in
theorem Stage.setDesign (h : g.Stage op ps) : ∃ k, g.SetDesign k := by
  rcases h with ⟨k, id, e, hs⟩ | ⟨k, hw⟩
  · exact ⟨k, hs.design⟩
  · exact ⟨k, hw.design⟩

end Generation

namespace Pass

omit [Scalar.Ordered α] [Scalar.Reading α] in
theorem next_domains (hg : g.Acyclic) (hdesign : g.SetDesign k)
    (h : (domains : Pass α).apply deduplicate journal g = .ok (rev, journal')) : rev.next g = g := by
  refine if_neg fun hdirty => ?_
  obtain ⟨i, p, hp, -⟩ := (dirty_domains_iff hg h).1 hdirty
  rcases hdesign i _ hp with ⟨s, u, heq, -⟩ | ⟨e, heq, -⟩ <;> cases heq

omit [Scalar.Ordered α] [Scalar.Reading α] in
theorem next_assertions (hg : g.Acyclic) (hdesign : g.SetDesign k)
    (h : (assertions : Pass α).apply deduplicate journal g = .ok (rev, journal')) : rev.next g = g := by
  refine if_neg fun hdirty => ?_
  obtain ⟨i, e, he, hasserted, -⟩ := (dirty_assertions_iff hg h).1 hdirty
  rw [(hdesign.expression he).2] at hasserted
  cases hasserted

theorem stage_leaves (hg : g.Sound) (hop : op = .intersection ∨ op = .difference) (hs : g.Stage op ps)
    (h : (leaves : Pass α).apply deduplicate journal g = .ok (rev, journal')) :
    (rev.next g).Stage op ps := by
  obtain ⟨k, hdesign⟩ := hs.setDesign
  obtain ⟨k', hrendition⟩ := rendition_leaves hg.acyclic hdesign h
  unfold Revision.next
  split_ifs
  · rcases hs with ⟨k, id, e, hs⟩ | ⟨k, hw⟩
    · have hunion : op ≠ .union := by
        rintro rfl
        cases (Operator.sifts hop).foreign
      obtain ⟨id', e', hs'⟩ := hrendition.single hs hunion
      exact .inl ⟨k', id', e', hs'⟩
    · exact .inr ⟨k', hrendition.woven hg hw⟩
  · exact hs

theorem exists_woven_operators (hg : g.Sound) (hop : op = .intersection ∨ op = .difference)
    (hs : g.Stage op ps)
    (h : (operators : Pass α).apply deduplicate journal g = .ok (rev, journal')) :
    ∃ k, (rev.next g).Woven k ((Interpretation.extents (α := α)).encoded op ps = ∅) := by
  rcases hs with ⟨k, id, e, hs⟩ | ⟨k, hw⟩
  · exact ⟨k, woven_operators hg hs hop h⟩
  · have hbasis : g.All Node.InBasis := by
      intro i n hn e he
      cases n with
      | expression e' =>
        cases he
        exact hw.basis i e' hn
      | _ => cases he
    rw [Revision.next, if_neg (Bool.eq_false_iff.1 (dirty_operators_of_inBasis hbasis h))]
    exact ⟨k, hw⟩

theorem woven_nesting {E : Prop} (hg : g.Sound) (hw : g.Woven k E)
    (h : (nesting : Pass α).apply deduplicate journal g = .ok (rev, journal')) :
    (rev.next g).Woven k E := by
  unfold Revision.next
  split_ifs
  · exact (rendition_nesting hg hw h).woven hg hw
  · exact hw

end Pass

namespace Progress

variable {p p' : Progress α}

/-- After one round the tree of the law is in its place. -/
theorem Course.woven (h : Course deduplicate Pass.pipeline p p' dirty)
    (hop : op = .intersection ∨ op = .difference) (hs : p.current.Stage op ps) :
    ∃ k, p'.current.Woven k ((Interpretation.extents (α := α)).encoded op ps = ∅) := by
  rcases h with _ | ⟨h₁, a₁, _ | ⟨h₂, a₂, _ | ⟨h₃, a₃, _ | ⟨h₄, a₄, _ | ⟨h₅, a₅, ⟨-⟩⟩⟩⟩⟩⟩
  obtain ⟨_, r₁⟩ := a₁.apply
  obtain ⟨_, r₂⟩ := a₂.apply
  obtain ⟨_, r₃⟩ := a₃.apply
  obtain ⟨_, r₄⟩ := a₄.apply
  obtain ⟨_, r₅⟩ := a₅.apply
  obtain ⟨k, hdesign⟩ := hs.setDesign
  have hc₁ := a₁.current.trans (next_domains h₁.current.acyclic hdesign r₁)
  have hc₂ := a₂.current.trans (next_assertions h₂.current.acyclic (hc₁ ▸ hdesign) r₂)
  have hs₃ := stage_leaves h₃.current hop (hc₂.trans hc₁ ▸ hs) r₃
  rw [← a₃.current] at hs₃
  obtain ⟨k, hw₄⟩ := exists_woven_operators h₄.current hop hs₃ r₄
  rw [← a₄.current] at hw₄
  exact ⟨k, a₅.current ▸ woven_nesting h₅.current hw₄ r₅⟩

end Progress

/-! What evaluation makes of the two graphs. -/

namespace Operator

variable {β : Type} {l : List (Set β)}

/-- The law loses what the sets have in common, since one of them is what those before it have in
common. -/
def Loses (op : Operator) (l : List (Set β)) : Prop :=
  op = .intersection ∧ Coincides l ∧ op.overSets l ≠ ∅

end Operator

omit [Scalar.Ordered α] in
theorem encoded_eq_overSets_iff (hop : op = .intersection ∨ op = .difference) (hlen : 2 ≤ ps.length)
    (h : ∅ ∉ ps) : (¬ op.Loses ps → (Interpretation.extents (α := α)).encoded op ps = op.overSets ps) ∧
      (op.Loses ps → (Interpretation.extents (α := α)).encoded op ps = ∅ ∧ op.overSets ps ≠ ∅) := by
  rcases hop with rfl | rfl
  · obtain ⟨hsame, hnone⟩ := Interpretation.encoded_intersection (α := α) hlen h
    refine ⟨fun hloses => ?_, fun ⟨_, hcoincides, hne⟩ => ⟨hnone hcoincides, hne⟩⟩
    by_cases hcoincides : Operator.Coincides ps
    · rw [hnone hcoincides]
      by_contra hne
      exact hloses ⟨rfl, hcoincides, Ne.symm hne⟩
    · exact hsame hcoincides
  · exact ⟨fun _ => Interpretation.encoded_difference hlen h, fun hloses => nomatch hloses.1⟩

namespace Generation

theorem Single.empty_notMem (hs : g.Single k op ps id e) : ∅ ∉ ps := by
  intro hmem
  obtain ⟨o, -, s, u, ho, hempty⟩ := exists_of_forall₂ hs.points.flip hmem
  exact points_ne_empty_of_setDesign hs.design ho hempty.symm

/-- Only the expression can be without elements. -/
theorem Single.hollow_iff (hs : g.Single k op ps id e) : g.Hollow ↔ op.overSets ps = ∅ := by
  have hroot : g.Means .extents id (op.overSets ps) := by
    rw [← Operator.onFed_of_notMem hs.empty_notMem, ← hs.op]
    refine Means.of_forall₂ (I := .extents) hs.node? (hs.points.imp ?_)
    rintro o _ ⟨s, u, ho, rfl⟩
    exact .literal ho
  constructor
  · rintro ⟨j, hj⟩
    obtain ⟨n, hn⟩ := contains_iff.1 hj.contains
    rcases hs.design j n hn with ⟨s, u, rfl, -⟩ | ⟨e', rfl, -⟩
    · exact absurd (hj.of_literal hn).symm (points_ne_empty_of_setDesign hs.design hn)
    · obtain rfl := hs.alone j e' hn
      exact hroot.unique hj
  · intro hempty
    exact ⟨id, hempty ▸ hroot⟩

end Generation

/-! The solve. -/

theorem exists_woven_of_solve (hg : g.Sound) (hs : g.Single k op ps id e)
    (hop : op = .intersection ∨ op = .difference) {config : Config} {sol : Solution α}
    (h : solve config g = .ok sol) : sol.last.Sound ∧
      ∃ k, sol.last.Woven k ((Interpretation.extents (α := α)).encoded op ps = ∅) := by
  obtain ⟨p, n, hr, hlast, -⟩ := runRounds_of_solve h
  have hstart : Progress.Healthy (⟨g, [], [], .empty⟩ : Progress α) := ⟨hg, by simp⟩
  obtain ⟨p₁, hcourse, hstage⟩ := hstart.of_runRounds (I := fun p => p.current.Stage op ps)
    (.inl ⟨k, id, e, hs⟩) (fun hcourse hstage => .inr (hcourse.woven hop hstage)) hr
  rw [hlast]
  exact ⟨hcourse.healthy.current, hcourse.woven hop hstage⟩

omit [Scalar.Reading α] in
/-- A graph whose assertions are all predicates can be solved, given enough rounds. -/
theorem exists_rounds (hg : g.Sound) (hassert : g.All Node.Assertable) (deduplicate : Bool) :
    ∃ rounds, ∀ config : Config, config.deduplicate = deduplicate → rounds ≤ config.maxRounds →
      ∃ sol, solve config g = .ok sol := by
  have hone : ((1 : α) == 1) = true := (Scalar.numbers_of_le Scalar.Ordered.neg_one_le_one).2
  have hstart : Progress.Healthy (⟨g, [], [], .empty⟩ : Progress α) := ⟨hg, by simp⟩
  obtain ⟨p₁, _, hr₁, hfirst⟩ := hstart.course deduplicate
  obtain ⟨p₂, _, hr₂, hsecond⟩ := hfirst.healthy.course deduplicate
  obtain ⟨r, hr⟩ := hsecond.healthy.exists_settles (hsecond.tidy hone (hfirst.readied hone hassert))
    deduplicate
  have hsettles := hstart.settles hr₁ fun _ => hfirst.healthy.settles hr₂ fun _ => hr
  refine ⟨r + 1 + 1, fun config hconfig hle => ?_⟩
  subst hconfig
  obtain ⟨p, n, hrun, -, -, hcanonical⟩ := hsettles config.maxRounds 0 hle
  obtain ⟨sol, hsol, -⟩ := solve_of_runRounds hg hrun hcanonical
  exact ⟨sol, hsol⟩

namespace Analysis

/-- The solved graph and the first one are contradictory together, unless the law loses the result. -/
theorem isSatisfiable_solve (hg : g.Sound) (hs : g.Single k op ps id e)
    (hop : op = .intersection ∨ op = .difference) {config : Config} {sol : Solution α}
    (h : solve config g = .ok sol) (budget : ℕ) :
    (¬ op.Loses ps → ((ofSteps sol.last budget sol.mappings).isSatisfiable ↔
      (ofGeneration g budget).isSatisfiable)) ∧
    (op.Loses ps → 0 < budget → ¬ (ofSteps sol.last budget sol.mappings).isSatisfiable ∧
      (ofGeneration g budget).isSatisfiable) := by
  obtain ⟨hsound, k', hw⟩ := exists_woven_of_solve hg hs hop h
  have hlen : 2 ≤ ps.length := by
    have harity := (hg.node hs.node?).arity e rfl
    rw [hs.op, hs.points.length_eq] at harity
    exact ((Operator.sifts hop).arity _).1 harity
  obtain ⟨hsame, hlost⟩ := encoded_eq_overSets_iff (α := α) hop hlen hs.empty_notMem
  rcases Nat.eq_zero_or_pos budget with rfl | hbudget
  · refine ⟨fun _ => ?_, fun _ hpos => absurd hpos (Nat.lt_irrefl 0)⟩
    rw [ofGeneration]
    simp only [isSatisfiable_zero]
  rw [ofGeneration, isSatisfiable_iff_not_hollow hsound hw.design hbudget,
    isSatisfiable_iff_not_hollow hg hs.design hbudget, hw.hollow, hs.hollow_iff]
  refine ⟨fun hloses => ?_, fun hloses _ => ?_⟩
  · rw [hsame hloses]
  · obtain ⟨hempty, hne⟩ := hlost hloses
    exact ⟨not_not_intro hempty, hne⟩

end Analysis

/-! Literals under an intersection or a difference. -/

section Literals

variable {ss : List (ValueSet α)} (hn : g.node? id = some (.expression e))
  (hop : e.op = .intersection ∨ e.op = .difference)
  (hops : List.Forall₂ (fun o s => ∃ u, g.node? o = some (.literal s u)) e.operands ss)
  (hall : ∀ s ∈ ss, s.Canonical ∧ s.family = k ∧ s.isEmpty = false)

include hops in
omit [Scalar.Ordered α] in
theorem says_points : List.Forall₂ (g.Says .extents) e.operands (ss.map ValueSet.points) := by
  rw [List.forall₂_map_right_iff]
  exact hops.imp fun o s ⟨u, ho⟩ => ⟨s, u, ho, rfl⟩

include hn hop hops hall in
omit [Scalar.Ordered α] in
/-- Over literals the expression makes a graph of sets. -/
theorem single_of_literals (hasserted : e.asserted = false)
    (honly : ∀ i n, g.node? i = some n → i = id ∨ i ∈ e.operands) :
    g.Single k e.op (ss.map ValueSet.points) id e := by
  have hliteral : ∀ o ∈ e.operands, ∃ s ∈ ss, ∃ u, g.node? o = some (.literal s u) :=
    fun o ho => exists_of_forall₂ hops ho
  refine ⟨hn, rfl, fun i n hi => ?_, says_points hops, fun i e' hi => ?_⟩
  · rcases honly i n hi with rfl | ho
    · cases hn.symm.trans hi
      exact .inr ⟨e, rfl, (Operator.sifts hop).exact, hasserted⟩
    · obtain ⟨s, hs, u, ho⟩ := hliteral i ho
      cases ho.symm.trans hi
      exact .inl ⟨s, u, rfl, hall s hs⟩
  · refine (honly i _ hi).resolve_right fun ho => ?_
    obtain ⟨s, -, u, ho⟩ := hliteral i ho
    cases ho.symm.trans hi

include hop hall in
/-- The tree of the law is evaluated like the operator just if the law loses nothing. -/
theorem exists_encoded_given (hlen : 2 ≤ ss.length) (hfed : ∅ ∉ ss.map ValueSet.points) :
    ∃ s t, (Estimate.interpretation.encoded e.op (ss.map .given)).exact = true ∧
      (Estimate.interpretation.encoded e.op (ss.map .given)).value = some s ∧
      Propagation.evaluate? e.op (ss.map some) (ss.map fun _ => true) = some t ∧
      (s == t ↔ ¬ e.op.Loses (ss.map ValueSet.points)) ∧
      (e.op.Loses (ss.map ValueSet.points) → s.isEmpty) := by
  have hgiven : List.Forall₂ (Estimate.Shows k) (ss.map .given) (ss.map ValueSet.points) := by
    rw [List.forall₂_map_left_iff, List.forall₂_map_right_iff, List.forall₂_same]
    intro s hs
    obtain ⟨hcanonical, rfl, -⟩ := hall s hs
    exact Estimate.shows_given hcanonical
  have hne : ss.map Estimate.given ≠ [] := by
    rw [ne_eq, List.map_eq_nil_iff]
    exact List.ne_nil_of_length_pos (by omega)
  have hsifts := Operator.sifts hop
  have harity := (hsifts.arity (ss.map Estimate.given).length).2 (by simpa using hlen)
  have htree := Estimate.Shows.encoded hop harity hgiven
  obtain ⟨s, hs, hcanonical, hfamily, hpoints⟩ := htree.value
  obtain ⟨t, ht, hcanonical', hfamily', hpoints'⟩ := (Estimate.Shows.combine hsifts.exact hne hgiven).value
  rw [Operator.onFed_of_notMem hfed] at hpoints'
  have hdirect : Propagation.evaluate? e.op (ss.map some) (ss.map fun _ => true) = some t := by
    rw [Estimate.combine, List.map_map, List.map_map] at ht
    exact ht
  obtain ⟨hsame, hlost⟩ := encoded_eq_overSets_iff (α := α) hop (by simpa using hlen) hfed
  refine ⟨s, t, htree.exact, hs, hdirect,
    ⟨fun heq hloses => ?_, fun hloses => ?_⟩, fun hloses => ?_⟩
  · obtain ⟨hempty, hne⟩ := hlost hloses
    have hst := ValueSet.points_eq_of_beq hcanonical hcanonical' heq
    exact hne (hpoints'.symm.trans (hst.symm.trans (hpoints.trans hempty)))
  · refine ValueSet.beq_of_points hcanonical hcanonical' (hfamily.trans hfamily'.symm) ?_
    rw [hpoints, hpoints', hsame hloses]
  · exact (ValueSet.isEmpty_iff_points hcanonical).2 (hpoints.trans (hlost hloses).1)

/-- An intersection or a difference of sets that are not empty. The tree that the law puts in its place is
evaluated to the same set, and the solved graph is contradictory just if the first one is, unless one of
the sets of an intersection is what those before it have in common: then nothing is left of the tree, and
what the sets have in common is lost. -/
theorem canonical_tree_agrees_iff (hg : g.Sound) (hn : g.node? id = some (.expression e))
    (hop : e.op = .intersection ∨ e.op = .difference) (hasserted : e.asserted = false)
    (hops : List.Forall₂ (fun o s => ∃ u, g.node? o = some (.literal s u)) e.operands ss)
    (hall : ∀ s ∈ ss, s.Canonical ∧ s.family = k ∧ s.isEmpty = false)
    (honly : ∀ i n, g.node? i = some n → i = id ∨ i ∈ e.operands) :
    (∀ deduplicate journal, ∃ rev journal' j tree s t,
      (Pass.operators : Pass α).apply deduplicate journal g = .ok (rev, journal') ∧
        rev.mapping.get? id = some j ∧ rev.generation.Evaluates j tree ∧ tree.exact = true ∧
        tree.value = some s ∧
        Propagation.evaluate? e.op (ss.map some) (ss.map fun _ => true) = some t ∧
        (s == t ↔ ¬ e.op.Loses (ss.map ValueSet.points)) ∧
        (e.op.Loses (ss.map ValueSet.points) → s.isEmpty)) ∧
    (∀ deduplicate, ∃ rounds, ∀ config : Config, config.deduplicate = deduplicate →
      rounds ≤ config.maxRounds → ∃ sol, solve config g = .ok sol) ∧
    ∀ config sol, solve config g = .ok sol → ∀ budget,
      (¬ e.op.Loses (ss.map ValueSet.points) →
        ((Analysis.ofSteps sol.last budget sol.mappings).isSatisfiable ↔
          (Analysis.ofGeneration g budget).isSatisfiable)) ∧
      (e.op.Loses (ss.map ValueSet.points) → 0 < budget →
        ¬ (Analysis.ofSteps sol.last budget sol.mappings).isSatisfiable ∧
          (Analysis.ofGeneration g budget).isSatisfiable) := by
  have hsingle := single_of_literals hn hop hops hall hasserted honly
  refine ⟨fun deduplicate journal => ?_, exists_rounds hg (assertable_of_setDesign hsingle.design),
    fun config sol hsol => Analysis.isSatisfiable_solve hg hsingle hop hsol⟩
  have hsifts := Operator.sifts hop
  have hlen : 2 ≤ ss.length := by
    have harity := (hg.node hn).arity e rfl
    rw [hops.length_eq] at harity
    exact (hsifts.arity _).1 harity
  have hsays : List.Forall₂ (g.Says Estimate.interpretation) e.operands (ss.map .given) := by
    rw [List.forall₂_map_right_iff]
    exact hops.imp fun o s ⟨u, ho⟩ => ⟨s, u, ho, rfl⟩
  obtain ⟨s, t, hexact, hs, ht, hagree⟩ := exists_encoded_given hop hall hlen hsingle.empty_notMem
  obtain ⟨rev, journal', happly, -⟩ := gives_operators hg deduplicate journal
  obtain ⟨j, hj, htree⟩ := exists_means hg hn hsifts.encodes hsays happly
  exact ⟨rev, journal', j, _, s, t, happly, hj, htree, hexact, hs, ht, hagree⟩

end Literals

namespace Sample

/-- What two sets of truth values share. -/
def shared (s t : Truths) : Blueprint Float :=
  let b := (Blueprint.empty.addLiteral (.boolean s)).2
  let b := (b.addLiteral (.boolean t)).2
  (b.addExpression .intersection [.nth 0, .nth 1]).2

theorem shared_sound (s t : Truths) : (shared s t).generation.Sound :=
  have hsane : (shared s t).Sane :=
    Blueprint.sane_of_reachable (.expression (.literal (.literal .empty _) _) _ _)
  ⟨hsane.orderly rfl, hsane.ascending.acyclic⟩

theorem keys_shared : (shared .all (.of true)).generation.entries.keys = [.nth 0, .nth 1, .nth 2] := by
  decide +kernel

theorem eq_nth_of_shared {i : NodeId} {n : Node Float}
    (h : (shared .all (.of true)).generation.node? i = some n) : i = .nth 2 ∨ i ∈ [NodeId.nth 0, .nth 1] := by
  have hi := NodeMap.mem_keys.2 (Generation.contains_of_node? h)
  rw [keys_shared] at hi
  simp only [List.mem_cons, List.not_mem_nil, or_false] at hi ⊢
  tauto

theorem shared_operands {s t : Truths} : List.Forall₂
    (fun o x => ∃ u, (shared s t).generation.node? o = some (.literal x u)) [.nth 0, .nth 1]
    [.boolean s, .boolean t] :=
  .cons ⟨none, rfl⟩ (.cons ⟨none, rfl⟩ .nil)

theorem not_loses_shared : ¬ Operator.Loses .intersection
    ([.boolean .all, .boolean (.of true)].map (ValueSet.points (α := Float))) := by
  rintro ⟨-, hcoincides, -⟩
  rw [List.map_cons, List.map_cons, List.map_nil, Operator.coincides_cons_cons] at hcoincides
  refine Operator.not_coincides_singleton (hcoincides.resolve_left fun heq => ?_)
  have hfalse : Value.boolean false ∈ (.boolean (.of true) : ValueSet Float).points :=
    heq ▸ ⟨false, rfl, rfl⟩
  obtain ⟨b, hb, heq⟩ := hfalse
  cases heq
  cases hb

end Sample

/-- What both sets share is left by the tree as well. -/
theorem canonical_tree_agrees_iff_shared :
    (∃ rev journal' j tree s, (Pass.operators : Pass Float).apply true .empty
        (Sample.shared .all (.of true)).generation = .ok (rev, journal') ∧
      rev.mapping.get? (.nth 2) = some j ∧ rev.generation.Evaluates j tree ∧
      tree.value = some s ∧ s == .boolean (.of true)) ∧
    ∃ config sol, solve config (Sample.shared .all (.of true)).generation = .ok sol ∧
      ∀ budget, (Analysis.ofSteps sol.last budget sol.mappings).isSatisfiable ↔
        (Analysis.ofGeneration (Sample.shared .all (.of true)).generation budget).isSatisfiable := by
  have hn : (Sample.shared .all (.of true)).generation.node? (.nth 2) =
      some (.expression ⟨.intersection, [.nth 0, .nth 1], false⟩) := rfl
  have hall : ∀ s ∈ [(.boolean .all : ValueSet Float), .boolean (.of true)],
      s.Canonical ∧ s.family = .truths ∧ s.isEmpty = false := by
    simp [ValueSet.Canonical, ValueSet.family]
    decide
  obtain ⟨happly, hsolve, hquery⟩ := canonical_tree_agrees_iff (Sample.shared_sound .all (.of true)) hn
    (.inl rfl) rfl Sample.shared_operands hall fun _ _ => Sample.eq_nth_of_shared
  obtain ⟨rev, journal', j, tree, s, t, happly, hj, htree, -, hs, ht, hagree, -⟩ := happly true .empty
  obtain ⟨rounds, hrounds⟩ := hsolve false
  obtain ⟨sol, hsol⟩ := hrounds { maxRounds := rounds } rfl le_rfl
  refine ⟨⟨rev, journal', j, tree, s, happly, hj, htree, hs, ?_⟩, _, sol, hsol, fun budget =>
    (hquery _ sol hsol budget).1 Sample.not_loses_shared⟩
  obtain rfl : t = .boolean (.of true) := (Option.some.inj ht).symm
  exact hagree.2 Sample.not_loses_shared

/-- Of two sets that are equal the tree leaves nothing, and the solved graph is contradictory. -/
theorem contradiction_of_twins :
    Propagation.evaluate? .intersection [some (.boolean .all : ValueSet Float), some (.boolean .all)]
        [true, true] = some (.boolean .all) ∧
      (∃ rev journal' j, (Pass.operators : Pass Float).apply false .empty
          (Sample.shared .all .all).generation = .ok (rev, journal') ∧
        rev.mapping.get? (.nth 2) = some j ∧ rev.generation.Evaluates j ⟨some (.boolean .none), true⟩) ∧
      (Analysis.ofGeneration (Sample.shared .all .all).generation ({} : Config).maxSweeps).isSatisfiable ∧
      ∃ sol, solve {} (Sample.shared .all .all).generation = .ok sol ∧
        ¬ (Analysis.ofSteps sol.last ({} : Config).maxSweeps sol.mappings).isSatisfiable := by
  have hg := Sample.shared_sound .all .all
  obtain ⟨rev, journal', happly, -⟩ := gives_operators hg false .empty
  have hn : (Sample.shared .all .all).generation.node? (.nth 2) =
      some (.expression ⟨.intersection, [.nth 0, .nth 1], false⟩) := rfl
  have hops : List.Forall₂ ((Sample.shared .all .all).generation.Says Estimate.interpretation)
      [.nth 0, .nth 1] [.given (.boolean .all), .given (.boolean .all)] :=
    .cons ⟨_, none, rfl, rfl⟩ (.cons ⟨_, none, rfl, rfl⟩ .nil)
  obtain ⟨j, hj, htree⟩ := exists_means hg hn rfl hops happly
  refine ⟨rfl, ⟨rev, journal', j, happly, hj, htree⟩, by decide +kernel, ?_⟩
  have hlost : (solve {} (Sample.shared .all .all).generation).toOption.any fun sol =>
      !(Analysis.ofSteps sol.last ({} : Config).maxSweeps sol.mappings).isSatisfiable := by
    decide +kernel
  obtain ⟨sol, hsol, hunsatisfiable⟩ := (Option.any_eq_true _ _).1 hlost
  exact ⟨sol, Propagation.toOption_eq_some hsol, by simpa using hunsatisfiable⟩

end ParameterSolver
