import ParameterSolver.Proofs.Propagation.Explanation

/-! What the origins of a contradiction are good for. If every expression that has no other origins is a
direct predicate, then the assertions that share an origin with a contradiction are enough for one: the
run without the others follows the run on the whole generation sweep by sweep, and where it stops
early it is at rest, so that nothing more can be learnt that it does not know. -/

namespace ParameterSolver

open Scalar Scalar.Ordered Scalar.Reading

variable {α : Type} [Scalar α]

namespace Knowledge

variable {g : Generation α} {k k' : Knowledge α} {origins because : Provenance} {id n : NodeId}
  {bound : ValueSet α}

/-! What is reported has no values. -/

/-- Every node that is reported has no values. -/
def Founded (k : Knowledge α) : Prop := ∀ id ∈ k.emptied, k.isEmpty id

theorem Founded.restrict (h : Founded k) (hn : n ≠ .null) :
    Founded (restrict g because k n bound) := by
  have hold (id : NodeId) (hid : id ∈ k.emptied) :
      (Knowledge.restrict g because k n bound).isEmpty id := by
    obtain ⟨s, hs, hempty⟩ := isEmpty_iff.1 (h id hid)
    have hinherits : k.Inherits id true := ⟨s, hs, fun _ => hempty⟩
    obtain ⟨s', hs', hempty'⟩ := hinherits.learns (Learns.refl.restrict (g := g) because n bound)
    exact isEmpty_iff.2 ⟨s', hs', hempty' rfl⟩
  obtain ⟨hr, -⟩ | ⟨next, emptied, hr, -, rfl | ⟨rfl, hempty⟩⟩ := restrict_cases g because k n bound
  · rwa [hr]
  · rw [hr] at hold ⊢
    exact hold
  · rw [hr] at hold ⊢
    intro id hid
    rcases List.mem_append.1 hid with hid | hid
    · exact hold id hid
    · refine isEmpty_iff.2 ⟨next, ?_, hempty⟩
      rw [List.mem_singleton.1 hid, value?, NodeMap.get?_insert_self hn]

theorem Founded.forwardStep (h : Founded k) (id : NodeId) : Founded (forwardStep g k id) := by
  obtain hsame | ⟨e, he, exact, -, hsame | ⟨because, v, hstep⟩⟩ := forwardStep_cases (g := g) k id
  · rwa [hsame]
  · rw [hsame]
    exact h
  · have hexact : Founded { k with exact := exact } := h
    rw [hstep]
    exact hexact.restrict
      (Generation.ne_null_of_contains (Generation.contains_of_node? (Generation.expression?_eq.1 he)))

theorem Founded.backwardStep (hv : g.validate = .ok ()) (h : Founded k) (id : NodeId) :
    Founded (backwardStep g k id) := by
  have hnarrows {because : Provenance} {k' : Knowledge α}
      (hn : Narrows g because (Relation.TransGen g.Uses id) k k') : Founded k' := by
    induction hn with
    | refl => exact h
    | narrow _ hid bound ih =>
      unfold narrow
      split_ifs
      · exact ih
      · obtain ⟨m, -, hm⟩ := Relation.TransGen.tail'_iff.1 hid
        exact ih.restrict (Generation.ne_null_of_contains (Generation.closed_of_validate hv hm))
  exact hnarrows (narrows_backwardStep k id)

theorem Founded.sweep (hv : g.validate = .ok ()) (h : Founded k) (order : List NodeId) :
    Founded (sweep g order k) :=
  foldl_inv (fun _ id hk => hk.backwardStep hv id) order.reverse
    (foldl_inv (fun _ id hk => hk.forwardStep id) order h)

theorem founded_seed (g : Generation α) : Founded (seed g) := by
  intro id hid
  rw [emptied_seed] at hid
  cases hid

/-- Where all leaves start with values and nothing is reported, all nodes have values. -/
theorem fed_of_emptied (hacyclic : g.Acyclic) (hg : g.Grounded) (hl : Learns g (seed g) k)
    (h : k.emptied = []) : Fed k := by
  intro n s hs
  rw [Bool.eq_false_iff]
  intro hempty
  obtain ⟨leaf, m, -, hm, hstart⟩ :=
    (rooted_seed g).learns hacyclic hl h n (isEmpty_iff.2 ⟨s, hs, hempty⟩)
  simp [hg.fed leaf m hm] at hstart

/-! The two runs side by side. -/

section Run

variable [Ordered α] [Reading α]

/-- What is known in a run, and in the run without the assertions that share no origin with
`origins`. -/
structure Paired (g : Generation α) (origins : Provenance) (k k' : Knowledge α) : Prop where
  kept : Kept g k
  kept' : Kept (g.release origins) k'
  follows : Follows g origins k k'

theorem paired_seed (hg : g.Grounded) (origins : Provenance) :
    Paired g origins (seed g) (seed (g.release origins)) where
  kept := kept_seed g
  kept' := kept_seed (g.release origins)
  follows n s _ hs := by
    rw [Generation.seed_release]
    exact ⟨s, hs, .refl (hg.seed hs).1 (hg.seed hs).2⟩

omit [Ordered α] [Reading α] in
/-- A relation that each pair of steps keeps as long as all nodes have values. -/
theorem foldl_rel {R : Knowledge α → Knowledge α → Prop} {f f' : Knowledge α → NodeId → Knowledge α}
    (hstep : ∀ k k' x, R k k' → Fed (f' k' x) → R (f k x) (f' k' x))
    (hl : ∀ k x, Learns g k (f' k x)) (l : List NodeId) (h : R k k') (hfed : Fed (l.foldl f' k')) :
    R (l.foldl f k) (l.foldl f' k') := by
  induction l generalizing k k' with
  | nil => exact h
  | cons x l ih =>
    have hfed' : Fed (f' k' x) := hfed.of_learns (Learns.foldl hl l (f' k' x))
    exact ih (hstep k k' x h hfed') hfed

variable {order : List NodeId} (hacyclic : g.Acyclic) (hv : g.validate = .ok ()) (hg : g.Grounded)
  (hdirect : g.Direct origins) (horder : ∀ n, g.contains n → n ∈ order)

include hacyclic hv hdirect in
theorem Paired.forwardStep (h : Paired g origins k k')
    (hfed : Fed (forwardStep (g.release origins) k' id)) :
    Paired g origins (forwardStep g k id) (forwardStep (g.release origins) k' id) where
  kept := h.kept.forwardStep id
  kept' := h.kept'.forwardStep id
  follows :=
    (h.follows.tighten (learns_forwardStep k' id) hfed).forwardStep hv hdirect h.kept hfed
      (h.kept'.forwardStep id) (knows_forwardStep (hacyclic.release origins) h.kept' id)

include hacyclic hv hg hdirect in
theorem Paired.backwardStep (h : Paired g origins k k') (hf : Filled g k)
    (hf' : Filled (g.release origins) k') (hfed : Fed (backwardStep (g.release origins) k' id)) :
    Paired g origins (backwardStep g k id) (backwardStep (g.release origins) k' id) where
  kept := h.kept.backwardStep hf id
  kept' := h.kept'.backwardStep hf' id
  follows :=
    (h.follows.tighten (learns_backwardStep k' id) hfed).backwardStep hv hdirect h.kept hfed hg hf
      (heeds_backwardStep (hacyclic.release origins) (hg.release origins) h.kept' hf' id)

omit [Ordered α] in
theorem Paired.clear (h : Paired g origins k k') :
    Paired g origins { k with changed := false } { k' with changed := false } :=
  ⟨h.kept.clear, h.kept'.clear, h.follows⟩

include hacyclic hv hg hdirect horder

theorem Paired.sweep (h : Paired g origins k k') (hfed : Fed (sweep (g.release origins) order k')) :
    Paired g origins (sweep g order k) (sweep (g.release origins) order k') := by
  have hback := Learns.foldl (learns_backwardStep (g := g.release origins)) order.reverse
    (order.foldl (Knowledge.forwardStep (g.release origins)) { k' with changed := false })
  have hforward := foldl_rel (fun k k' x => Paired.forwardStep hacyclic hv hdirect)
    learns_forwardStep order h.clear (hfed.of_learns hback)
  have horder' (n : NodeId) (hn : (g.release origins).contains n) : n ∈ order :=
    horder n (by rwa [Generation.contains_release] at hn)
  refine (foldl_rel (R := fun k k' => Paired g origins k k' ∧ Filled g k ∧
    Filled (g.release origins) k') (fun k k' x hk hfed => ?_) learns_backwardStep order.reverse
    ⟨hforward, filled_forward horder _, filled_forward horder' _⟩ hfed).1
  obtain ⟨hpaired, hf, hf'⟩ := hk
  exact ⟨hpaired.backwardStep hacyclic hv hg hdirect hf hf' hfed,
    hf.learns (learns_backwardStep k x), hf'.learns (learns_backwardStep k' x)⟩

omit hacyclic in
/-- A sweep adds nothing to what a run that is at rest knows. -/
theorem Paired.sweep_of_atRest (h : Paired g origins k k') (hfed : Fed k')
    (hrest : AtRest (g.release origins) k') : Paired g origins (Knowledge.sweep g order k) k' := by
  have hforward (k : Knowledge α) (x : NodeId) (hk : Paired g origins k k') :
      Paired g origins (Knowledge.forwardStep g k x) k' :=
    ⟨hk.kept.forwardStep x, h.kept',
      hk.follows.forwardStep hv hdirect hk.kept hfed h.kept' (hrest x).1⟩
  have hbackward (k : Knowledge α) (x : NodeId) (hk : Paired g origins k k' ∧ Filled g k) :
      Paired g origins (Knowledge.backwardStep g k x) k' ∧
        Filled g (Knowledge.backwardStep g k x) :=
    ⟨⟨hk.1.kept.backwardStep hk.2 x, h.kept',
      hk.1.follows.backwardStep hv hdirect hk.1.kept hfed hg hk.2 (hrest x).2⟩,
      hk.2.learns (learns_backwardStep k x)⟩
  have hclear : Paired g origins { k with changed := false } k' := ⟨h.kept.clear, h.kept', h.follows⟩
  exact (foldl_inv hbackward order.reverse
    ⟨foldl_inv hforward order hclear, filled_forward horder _⟩).1

end Run

end Knowledge

namespace Propagation

open Knowledge

variable [Ordered α] [Reading α] {g : Generation α} {origins : Provenance} {order : List NodeId}

section Run

variable (hacyclic : g.Acyclic) (hv : g.validate = .ok ()) (hg : g.Grounded)
  (hdirect : g.Direct origins) (horder : ∀ n, g.contains n → n ∈ order)

include hacyclic hv hg hdirect horder

omit hacyclic in
theorem paired_iterate_of_atRest {k' : Knowledge α} (hfed : Fed k')
    (hrest : AtRest (g.release origins) k') (budget : ℕ) {p : Propagation α}
    (h : Paired g origins p.knowledge k') :
    Paired g origins (iterate g order budget p).knowledge k' := by
  induction budget generalizing p with
  | zero => exact h
  | succ budget ih =>
    have hsweep := h.sweep_of_atRest hv hg hdirect horder hfed hrest
    unfold iterate
    dsimp only
    split_ifs
    · exact ih hsweep
    · exact hsweep

theorem follows_iterate (budget : ℕ) {p p' : Propagation α}
    (h : Paired g origins p.knowledge p'.knowledge)
    (hfed : Fed (iterate (g.release origins) order budget p').knowledge) :
    Follows g origins (iterate g order budget p).knowledge
      (iterate (g.release origins) order budget p').knowledge := by
  induction budget generalizing p p' with
  | zero => exact h.follows
  | succ budget ih =>
    have hlearns : Learns (g.release origins) (p'.knowledge.sweep (g.release origins) order)
        (iterate (g.release origins) order (budget + 1) p').knowledge := by
      unfold iterate
      dsimp only
      split_ifs
      · exact learns_iterate order budget ⟨_, p'.rounds + 1⟩
      · exact .refl
    have hfed' := hfed.of_learns hlearns
    have hsweep := h.sweep hacyclic hv hg hdirect horder hfed'
    have horder' (n : NodeId) (hn : (g.release origins).contains n) : n ∈ order :=
      horder n (by rwa [Generation.contains_release] at hn)
    unfold iterate at hfed ⊢
    dsimp only at hfed ⊢
    by_cases hc : (p.knowledge.sweep g order).changed
    · by_cases hc' : (p'.knowledge.sweep (g.release origins) order).changed
      · rw [if_pos hc'] at hfed
        rw [if_pos hc, if_pos hc']
        exact ih hsweep hfed
      · -- the released run has stopped, and the other one goes on
        rw [if_pos hc, if_neg hc']
        have hrest := atRest_sweep horder' (hacyclic.release origins) (hg.release origins) h.kept'
          (Bool.eq_false_iff.2 hc')
        exact (paired_iterate_of_atRest hv hg hdirect horder hfed' hrest budget hsweep).follows
    · rw [if_neg hc]
      unfold iterate at hlearns
      exact hsweep.follows.tighten hlearns hfed

end Run

omit [Ordered α] [Reading α] in
theorem founded_iterate (hv : g.validate = .ok ()) (budget : ℕ) {p : Propagation α}
    (h : Founded p.knowledge) : Founded (iterate g order budget p).knowledge := by
  induction budget generalizing p with
  | zero => exact h
  | succ budget ih =>
    have hsweep := h.sweep hv order
    unfold iterate
    dsimp only
    split_ifs
    · exact ih hsweep
    · exact hsweep

theorem follows_run (hacyclic : g.Acyclic) (hv : g.validate = .ok ()) (hg : g.Grounded)
    (hdirect : g.Direct origins) {budget : ℕ} (hfed : Fed (run (g.release origins) budget).knowledge) :
    Follows g origins (run g budget).knowledge (run (g.release origins) budget).knowledge := by
  have horder (n : NodeId) (hn : g.contains n) : n ∈ g.topologicalOrder :=
    hacyclic.mem_topologicalOrder hn
  have hrun : run (g.release origins) budget =
      iterate (g.release origins) g.topologicalOrder budget ⟨.seed (g.release origins), 0⟩ := by
    rw [run, Generation.topologicalOrder_release]
  rw [hrun] at hfed ⊢
  exact follows_iterate hacyclic hv hg hdirect horder budget (paired_seed hg origins) hfed

end Propagation

/-! Two graphs to look at: a number that is asserted to be five and six beside two numbers that are equal,
and a number that is five and equal to one that is six. -/

namespace Sample

def clash : Blueprint Float :=
  let b := (Blueprint.empty.addParameter .real).2
  let b := (b.addParameter .real).2
  let b := (b.addParameter .real).2
  let b := (b.assign (.nth 0) (.number 5)).2
  let b := (b.assign (.nth 0) (.number 6)).2
  (b.addAssertion .is [.nth 1, .nth 2]).2

def chain : Blueprint Float :=
  let b := (Blueprint.empty.addParameter .real).2
  let b := (b.addParameter .real).2
  let b := (b.assign (.nth 0) (.number 5)).2
  let b := (b.addAssertion .is [.nth 0, .nth 1]).2
  (b.assign (.nth 1) (.number 6)).2

theorem clash_acyclic : clash.generation.Acyclic :=
  (Blueprint.sane_of_reachable (.assertion (.assertion (.literal (.assertion (.literal
    (.parameter (.parameter (.parameter .empty _) _) _) _) _ _) _) _ _) _ _)).ascending.acyclic

theorem chain_acyclic : chain.generation.Acyclic :=
  (Blueprint.sane_of_reachable (.assertion (.literal (.assertion (.assertion (.literal
    (.parameter (.parameter .empty _) _) _) _ _) _ _) _) _ _)).ascending.acyclic

theorem clash_grounded : clash.generation.Grounded where
  canonical id s source hn := by
    have hliterals : clash.generation.nodes.filterMap (·.2.literal?) = [.number 5, .number 6] := rfl
    have hs : s ∈ clash.generation.nodes.filterMap (·.2.literal?) :=
      List.mem_filterMap.2 ⟨_, Generation.mem_nodes.2 hn, rfl⟩
    rw [hliterals, List.mem_pair] at hs
    rcases hs with rfl | rfl <;> exact canonical_number _
  fed id n hn := by
    have hall : ∀ x ∈ clash.generation.nodes, x.2.startsEmpty = false := by decide +kernel
    exact hall _ (Generation.mem_nodes.2 hn)

end Sample

namespace Analysis

variable {g : Generation α}

/-- A contradiction is at a node without values, whose explanation is among its origins. -/
theorem covered_of_mem_contradictions (hv : g.validate = .ok ()) {budget : ℕ} {c : Contradiction}
    (hc : c ∈ (ofGeneration g budget).contradictions) :
    ∃ s, (Propagation.run g budget).knowledge.value? c.node = some s ∧ s.isEmpty ∧
      Knowledge.Covered g c.origins (Propagation.run g budget).knowledge c.node := by
  obtain ⟨id, hid, rfl⟩ := List.mem_map.1 hc
  have hmem : id ∈ (Propagation.run g budget).knowledge.emptied := by
    simpa [Generation.sortByFirstOrigin] using hid
  obtain ⟨s, hs, hempty⟩ := Knowledge.isEmpty_iff.1
    (Propagation.founded_iterate hv budget (p := ⟨.seed g, 0⟩) (Knowledge.founded_seed g) id hmem)
  refine ⟨s, hs, hempty, fun o ho => ?_⟩
  exact Knowledge.mem_explanations.2 (Or.inr ⟨id, List.mem_cons_self, ho⟩)

variable [Ordered α] [Reading α]

/-- The assertions that share an origin with a contradiction are enough for one, if all expressions
that have no other origins are direct predicates. -/
theorem not_isSatisfiable_release (hacyclic : g.Acyclic) (hv : g.validate = .ok ())
    (hg : g.Grounded) {budget : ℕ} {c : Contradiction}
    (hc : c ∈ (ofGeneration g budget).contradictions) (hdirect : g.Direct c.origins) :
    ¬ (ofGeneration (g.release c.origins) budget).isSatisfiable := by
  intro hsat
  have hfed := Knowledge.fed_of_emptied (hacyclic.release c.origins) (hg.release c.origins)
    (Propagation.learns_run (g.release c.origins) budget) (isSatisfiable_iff.1 hsat)
  obtain ⟨s, hs, hempty, hcovered⟩ := covered_of_mem_contradictions hv hc
  obtain ⟨t, -, hpart⟩ :=
    Propagation.follows_run hacyclic hv hg hdirect hfed c.node s hcovered hs
  simp [hpart.whole_nonempty] at hempty

theorem not_isSatisfiable_release_clash : Sample.clash.generation.Acyclic ∧
    Sample.clash.generation.validate = .ok () ∧ Sample.clash.generation.Grounded ∧
    ∃ c ∈ (ofGeneration Sample.clash.generation 64).contradictions,
      Sample.clash.generation.Direct c.origins ∧
      ¬ (ofGeneration (Sample.clash.generation.release c.origins) 64).isSatisfiable := by
  have hv : Sample.clash.generation.validate = .ok () := by
    rfl
  have hne : (ofGeneration Sample.clash.generation 64).contradictions ≠ [] := by
    rw [Ne, ← List.isEmpty_iff]
    decide +kernel
  have hdirect : ∀ c ∈ (ofGeneration Sample.clash.generation 64).contradictions,
      Sample.clash.generation.Direct c.origins := by
    decide +kernel
  obtain ⟨c, hc⟩ := List.exists_mem_of_ne_nil _ hne
  exact ⟨Sample.clash_acyclic, hv, Sample.clash_grounded, c, hc, hdirect c hc,
    not_isSatisfiable_release Sample.clash_acyclic hv Sample.clash_grounded hc (hdirect c hc)⟩

/-- A number that is five and equal to one that is six is contradictory, but not without the origin of
the six, which the contradiction does not name. -/
theorem isSatisfiable_release_chain : Sample.chain.generation.Acyclic ∧
    Sample.chain.build.isOk ∧
    ∃ c ∈ (ofGeneration Sample.chain.generation 64).contradictions,
      (ofGeneration (Sample.chain.generation.release c.origins) 64).isSatisfiable := by
  refine ⟨Sample.chain_acyclic, by decide +kernel, ?_⟩
  decide +kernel

end Analysis

end ParameterSolver
