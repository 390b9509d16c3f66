import ParameterSolver.Proofs.Blueprint.Origins
import ParameterSolver.Proofs.Solve.Survival

/-! The order in which the parameters are named. Every pass hands the origins of an unknown on to what it
becomes and mixes no others in, so that in every graph of a solve a parameter has the one origin of the
node of the first graph that it comes from, and is named in the order of those nodes. -/

namespace ParameterSolver

open Draft Pass

variable {α : Type} [Scalar α] {g g' : Generation α} {d : Draft α} {deduplicate : Bool}
  {journal journal' : Journal} {rev : Revision α} {i j k x y : NodeId}
  {steps : List (NodeMap NodeId)}

/-- Every unknown of the revision was one, and has the origins that it had. -/
def Revision.Charts (rev : Revision α) (g : Generation α) : Prop :=
  ∀ j, rev.generation.Unknown j → ∃ i, rev.mapping.get? i = some j ∧ g.Unknown i ∧
    rev.generation.provenance? j = g.provenance? i

omit [Scalar α] in
theorem Draft.Rooted.charts (h : Rooted ∅ d) (hin : d.input = g) :
    Revision.Charts ⟨d.output, d.dirty, d.mapping⟩ g := by
  subst hin
  exact fun j hj => h j hj (Set.notMem_empty j)

omit [Scalar α] in
theorem Outcome.charts {due : NodeId → Prop} {W C : Draft α → NodeId → Node α → Prop}
    {Q : NodeId → Node α → Prop} {E : NodeId → Draft α → Prop}
    (h : Outcome g due W C Q E deduplicate journal d)
    (hW : ∀ d i n, W d i n → n.IsUnknown → g.Unknown i)
    (hC : ∀ d i n, C d i n → ¬ n.IsUnknown) : Revision.Charts ⟨d.output, d.dirty, d.mapping⟩ g := by
  refine (h.moves.rooted (fun d a ha => ?_) (coherent_start g deduplicate journal)
    (rooted_start g deduplicate journal)).charts h.input
  cases a with
  | write id n => exact hW d id n ha.2
  | create id n => exact hC d id n ha.2
  | redirect => exact ha.elim
  | _ => trivial

namespace Pass

theorem charts_domains (hg : g.Sound)
    (h : (domains : Pass α).apply deduplicate journal g = .ok (rev, journal')) : rev.Charts g := by
  obtain ⟨d, hd, rfl⟩ := outcome_domains hg.acyclic h
  refine hd.charts ?_ ?_
  · rintro - i n ⟨p, hp, -⟩ -
    exact ⟨_, hp, trivial⟩
  · rintro - i n ⟨p, s, -, -, rfl | ⟨js, rfl⟩⟩
    · exact id
    · exact Node.not_isUnknown_of_canonical rfl

theorem charts_assertions (hg : g.Sound)
    (h : (assertions : Pass α).apply deduplicate journal g = .ok (rev, journal')) : rev.Charts g := by
  obtain ⟨d, hd, rfl⟩ := outcome_assertions hg.acyclic h
  refine hd.charts ?_ ?_
  · rintro - i n ⟨e, js, he, -, rfl⟩ hunknown
    exact ⟨_, he, hunknown⟩
  · rintro - i n (rfl | ⟨inner, k, rfl, -⟩)
    · exact id
    · exact Node.not_isUnknown_of_canonical rfl

theorem charts_leaves (hg : g.Sound)
    (h : (leaves : Pass α).apply deduplicate journal g = .ok (rev, journal')) : rev.Charts g := by
  obtain ⟨d, hd, rfl⟩ := outcome_leaves hg.acyclic h
  refine hd.charts ?_ fun _ _ _ hC => hC.elim
  rintro - i m ⟨n, hn, hm⟩ hunknown
  -- a leaf is an unknown only as a parameter, and only a parameter is made one
  refine ⟨n, hn, ?_⟩
  cases Node.persists_retouched hm with
  | parameter => trivial
  | given _ hstated =>
    cases m with
    | literal | constant => exact hunknown.elim
    | _ => cases hstated

/-- Only the operands of an expression change. -/
theorem charts_nesting (hg : g.Sound)
    (h : (nesting : Pass α).apply deduplicate journal g = .ok (rev, journal')) : rev.Charts g := by
  obtain ⟨d, hd, rfl⟩ := exists_compressed hg h
  refine (hd.moves.rooted (fun d a ha => ?_) (coherent_start g deduplicate journal)
    (rooted_start g deduplicate journal)).charts hd.input
  cases a with
  | write id n =>
    obtain ⟨-, e, js, hover, -, rfl⟩ := ha
    exact fun hunknown => ⟨_, hover.node?, hunknown⟩
  | create | redirect => exact ha.elim
  | _ => trivial

theorem charts_pipeline (hg : g.Sound) {pass : Pass α} (hpass : pass ∈ pipeline)
    (h : pass.apply deduplicate journal g = .ok (rev, journal')) : rev.Charts g := by
  simp only [pipeline, List.mem_cons, List.not_mem_nil, or_false] at hpass
  rcases hpass with rfl | rfl | rfl | rfl | rfl
  · exact charts_domains hg h
  · exact charts_assertions hg h
  · exact charts_leaves hg h
  · obtain ⟨d, hd, rfl⟩ := exists_canonized hg h
    exact hd.rooted.charts hd.input
  · exact charts_nesting hg h

end Pass

namespace Progress

variable {p p' : Progress α}

/-- In the graph that the steps lead to, the unknowns are what unknowns of the first graph have become,
each with the origins of its own, and parameters have become parameters. -/
structure Charted (g g' : Generation α) (steps : List (NodeMap NodeId)) : Prop where
  unknown : ∀ j, g'.Unknown j → ∃ x, resolveThrough? steps x = some j ∧ g.Unknown x ∧
    g'.provenance? j = g.provenance? x
  parameter : ∀ x q, g.node? x = some (.parameter q) → ∃ j r, resolveThrough? steps x = some j ∧
    g'.node? j = some (.parameter r)
  injective : ∀ x y j, resolveThrough? steps x = some j → resolveThrough? steps y = some j → x = y

omit [Scalar α] in
theorem charted_start (g : Generation α) : Charted g g [] := by
  refine ⟨fun j hj => ⟨j, rfl, hj, rfl⟩, fun x q hx => ⟨x, q, rfl, hx⟩, fun x y j hx hy => ?_⟩
  cases hx
  cases hy
  rfl

/-- What one pass does to unknowns. Parameters become parameters, as all leaves are retold. -/
theorem Charted.advance {pass : Pass α} (h : Charted g p.current p.steps.reverse) (hp : Healthy p)
    (hpass : pass ∈ Pass.pipeline) (hadv : Advance deduplicate pass p p' rev)
    (hdirty : rev.dirty = true) (hretells : p'.Retells g) :
    Charted g p'.current (p.steps.reverse ++ [rev.mapping]) := by
  obtain ⟨_, happly⟩ := hadv.apply
  obtain ⟨hcurrent, -, hsteps⟩ := hadv.published hdirty
  have hreverse : p'.steps.reverse = p.steps.reverse ++ [rev.mapping] := by
    rw [hsteps, List.reverse_cons]
  rw [← hreverse]
  refine ⟨fun j hj => ?_, fun x q hx => ?_, hretells.injective⟩
  · rw [hcurrent] at hj ⊢
    obtain ⟨i, hij, hi, hprov⟩ := charts_pipeline hp.current hpass happly j hj
    obtain ⟨x, hxi, hx, hprov'⟩ := h.unknown i hi
    refine ⟨x, ?_, hx, hprov.trans hprov'⟩
    rw [hreverse, resolveThrough?_append, hxi]
    exact hij
  · obtain ⟨o, ho⟩ := Generation.exists_provenance? (Generation.contains_of_node? hx)
    obtain ⟨j, m, hj, hm, hpersists, -⟩ := hretells.leaves x _ o hx rfl ho
    cases hpersists with
    | parameter => exact ⟨j, _, hj, hm⟩
    | given hstated => cases hstated

theorem Course.charted {dirty : Bool} (h : Course deduplicate Pass.pipeline p p' dirty)
    (hcharted : p.Retells g ∧ Stages (Charted g) p) : p'.Retells g ∧ Stages (Charted g) p' := by
  refine h.invariant (I := fun p => p.Retells g ∧ Stages (Charted g) p) hcharted ?_
  intro pass hpass p p' rev hp _ hadv ⟨hretells, hcharted⟩
  have hretells' := hretells.advance hp hpass hadv
  exact ⟨hretells', hcharted.advance hadv fun hdirty =>
    hcharted.current.advance hp hpass hadv hdirty hretells'⟩

end Progress

/-! The order itself. -/

section Order

omit [Scalar α]

/-- In a list in the order of distinct keys, one element stands before another if its key is less. -/
theorem pair_sublist_iff {β : Type} {l : List β} {f : β → ℕ} {a b : β}
    (h : l.Pairwise fun a b => f a < f b) (ha : a ∈ l) (hb : b ∈ l) :
    [a, b].Sublist l ↔ f a < f b := by
  constructor
  · intro hsub
    simpa using h.sublist hsub
  · intro hlt
    obtain ⟨l₁, l₂, rfl⟩ := List.append_of_mem ha
    obtain ⟨-, hrest, hbefore⟩ := List.pairwise_append.1 h
    rcases List.mem_append.1 hb with hb | hb
    · exact absurd (hbefore b hb a (by simp)) (Nat.not_lt_of_lt hlt)
    · rcases List.mem_cons.1 hb with rfl | hb
      · exact absurd hlt (lt_irrefl _)
      · exact ((List.singleton_sublist.2 hb).cons_cons a).trans (List.sublist_append_right ..)

namespace Generation

/-- What parameters are sorted by: the earliest origin, and nodes without one first. -/
def originKey (g : Generation α) (id : NodeId) : ℕ :=
  match (g.provenance? id).bind SortedSet.first? with
  | some o => o + 1
  | none => 0

theorem originKey_of_singleton {o : Origin} (h : g.provenance? j = some (.singleton o)) :
    g.originKey j = o + 1 := by
  rw [originKey, h]
  rfl

theorem parametersByOrigin_perm : g.parametersByOrigin.Perm (g.parameters.map (·.1)) :=
  List.mergeSort_perm _ _

theorem mem_parametersByOrigin :
    j ∈ g.parametersByOrigin ↔ ∃ p, g.node? j = some (.parameter p) := by
  simp [parametersByOrigin_perm.mem_iff, mem_parameters]

theorem nodup_parametersByOrigin : g.parametersByOrigin.Nodup :=
  parametersByOrigin_perm.nodup_iff.2 nodup_parameters

theorem pairwise_parametersByOrigin
    (hinj : ∀ j ∈ g.parametersByOrigin, ∀ k ∈ g.parametersByOrigin,
      g.originKey j = g.originKey k → j = k) :
    g.parametersByOrigin.Pairwise fun j k => g.originKey j < g.originKey k := by
  have hsorted : g.parametersByOrigin.Pairwise fun j k => g.originKey j ≤ g.originKey k := by
    have hle : g.parametersByOrigin.Pairwise fun j k => decide (g.originKey j ≤ g.originKey k) := by
      apply List.pairwise_mergeSort
      · intro a b c hab hbc
        simp only [decide_eq_true_eq] at hab hbc ⊢
        omega
      · intro a b
        simp only [Bool.or_eq_true, decide_eq_true_eq]
        omega
    exact hle.imp of_decide_eq_true
  refine List.Pairwise.imp_of_mem (fun hj hk hjk => ?_) (hsorted.and nodup_parametersByOrigin)
  exact lt_of_le_of_ne hjk.1 fun heq => hjk.2 (hinj _ hj _ hk heq)

end Generation

namespace Progress.Charted

variable {o o' : Origin}

/-- What a parameter comes from is an unknown of the first graph, by whose place it is sorted. -/
theorem exists_origin (h : Charted g g' steps) (hg : g.Original) (hj : j ∈ g'.parametersByOrigin) :
    ∃ x o, resolveThrough? steps x = some j ∧ (g.Unknown x ∧ g'.provenance? j = g.provenance? x) ∧
      g.origins.originOf? x = some o ∧ g'.originKey j = o + 1 := by
  obtain ⟨p, hp⟩ := Generation.mem_parametersByOrigin.1 hj
  obtain ⟨x, hx, hunknown, hprov⟩ := h.unknown j ⟨_, hp, trivial⟩
  obtain ⟨q, hq⟩ := Generation.exists_provenance? hunknown.contains
  obtain ⟨o, ho, rfl⟩ := hg.own x q hq
  exact ⟨x, o, hx, ⟨hunknown, hprov⟩, ho, Generation.originKey_of_singleton (hprov.trans hq)⟩

theorem originKey_eq (h : Charted g g' steps) (hg : g.Original) (hj : j ∈ g'.parametersByOrigin)
    (hx : resolveThrough? steps x = some j) (ho : g.origins.originOf? x = some o) :
    g'.originKey j = o + 1 := by
  obtain ⟨x', o', hx', -, ho', hkey⟩ := h.exists_origin hg hj
  cases h.injective x x' j hx hx'
  cases ho.symm.trans ho'
  exact hkey

theorem pairwise (h : Charted g g' steps) (hg : g.Original) :
    g'.parametersByOrigin.Pairwise fun j k => g'.originKey j < g'.originKey k := by
  refine Generation.pairwise_parametersByOrigin fun j hj k hk heq => ?_
  obtain ⟨x, o, hx, -, ho, hkey⟩ := h.exists_origin hg hj
  obtain ⟨y, o', hy, -, ho', hkey'⟩ := h.exists_origin hg hk
  obtain rfl : o = o' := Nat.succ.inj (hkey.symm.trans (heq.trans hkey'))
  have hxy := (OriginTable.node?_of_originOf? ho).symm.trans (OriginTable.node?_of_originOf? ho')
  cases hxy
  exact Option.some.inj (hx.symm.trans hy)

/-- One parameter stands before another if what it comes from was declared before. -/
theorem sublist_iff (h : Charted g g' steps) (hg : g.Original) (hj : j ∈ g'.parametersByOrigin)
    (hk : k ∈ g'.parametersByOrigin) (hx : resolveThrough? steps x = some j)
    (hy : resolveThrough? steps y = some k) (ho : g.origins.originOf? x = some o)
    (ho' : g.origins.originOf? y = some o') : [j, k].Sublist g'.parametersByOrigin ↔ o < o' := by
  rw [pair_sublist_iff (h.pairwise hg) hj hk, h.originKey_eq hg hj hx ho, h.originKey_eq hg hk hy ho']
  exact Nat.add_lt_add_iff_right

end Progress.Charted

namespace Analysis

/-- The parameters in the order of their names. -/
def named (a : Analysis α) : List NodeId := a.names.map (·.1)

theorem named_eq (a : Analysis α) : a.named = a.generation.parametersByOrigin := by
  unfold named names
  rw [List.map_map]
  exact List.zipIdx_map_fst ..

end Analysis

end Order

namespace Analysis

/-- The parameters are named once each, and in the order of the nodes of the first graph that they come
from, which are its parameters and the nodes that a parameter was made for. -/
structure NamesInOrder (g : Generation α) (a : Analysis α) : Prop where
  once : a.named.Nodup
  parameters : ∀ j, j ∈ a.named ↔ ∃ p, a.generation.node? j = some (.parameter p)
  declared : ∀ x p, g.node? x = some (.parameter p) → ∃ j ∈ a.named, a.resolve? x = some j
  sources : ∀ j ∈ a.named, ∃ x, a.resolve? x = some j ∧
    a.generation.provenance? j = g.provenance? x ∧ ((∃ p, g.node? x = some (.parameter p)) ∨
      ∃ e, g.node? x = some (.expression e) ∧ (e.op = .min ∨ e.op = .max))
  ordered : ∀ x y j k, [x, y].Sublist g.order → a.resolve? x = some j → a.resolve? y = some k →
    j ∈ a.named → k ∈ a.named → [j, k].Sublist a.named

/-- Two parameters that are there before and after the steps are named in the same order. -/
def OrdersAlike (steps : List (NodeMap NodeId)) (a a' : Analysis α) : Prop :=
  ∀ j k j' k', j ∈ a.named → k ∈ a.named → resolveThrough? steps j = some j' →
    resolveThrough? steps k = some k' → j' ∈ a'.named → k' ∈ a'.named →
    ([j, k].Sublist a.named ↔ [j', k'].Sublist a'.named)

theorem resolve?_ofSteps {budget : ℕ} (hj : g'.contains j) :
    (Analysis.ofSteps g' budget steps).resolve? x = some j ↔ resolveThrough? steps x = some j := by
  simp only [resolve?, Option.filter_eq_some_iff]
  exact and_iff_left hj

end Analysis

theorem Progress.Charted.namesInOrder (h : Charted g g' steps) (hg : g.Original) (budget : ℕ) :
    (Analysis.ofSteps g' budget steps).NamesInOrder g := by
  have hcont : ∀ {j}, j ∈ g'.parametersByOrigin → g'.contains j := fun hj =>
    Generation.contains_of_node? (Generation.mem_parametersByOrigin.1 hj).choose_spec
  constructor <;> rw [Analysis.named_eq]
  case once => exact Generation.nodup_parametersByOrigin
  case parameters => exact fun j => Generation.mem_parametersByOrigin
  case declared =>
    intro x p hx
    obtain ⟨j, r, hj, hr⟩ := h.parameter x p hx
    have hmem : j ∈ g'.parametersByOrigin := Generation.mem_parametersByOrigin.2 ⟨r, hr⟩
    exact ⟨j, hmem, (Analysis.resolve?_ofSteps (hcont hmem)).2 hj⟩
  case sources =>
    intro j hj
    obtain ⟨x, o, hx, ⟨⟨n, hn, hunknown⟩, hprov⟩, -⟩ := h.exists_origin hg hj
    refine ⟨x, (Analysis.resolve?_ofSteps (hcont hj)).2 hx, hprov, ?_⟩
    cases n with
    | parameter p => exact Or.inl ⟨p, hn⟩
    | expression e => exact Or.inr ⟨e, hn, hunknown⟩
    | _ => exact hunknown.elim
  case ordered =>
    intro x y j k hxy hx hy hj hk
    rw [Analysis.resolve?_ofSteps (hcont hj)] at hx
    rw [Analysis.resolve?_ofSteps (hcont hk)] at hy
    have hmem : ∀ z ∈ [x, y], ∃ o, g.origins.originOf? z = some o := fun z hz => by
      obtain ⟨q, hq⟩ := Generation.exists_provenance? (NodeMap.mem_keys.1 (hxy.subset hz))
      obtain ⟨o, ho, -⟩ := hg.own z q hq
      exact ⟨o, ho⟩
    obtain ⟨o, ho⟩ := hmem x (by simp)
    obtain ⟨o', ho'⟩ := hmem y (by simp)
    refine (h.sublist_iff hg hj hk hx hy ho ho').2 (hg.lt_of_rank_lt ho ho' ?_)
    simpa using Generation.pairwise_order.sublist hxy

/-- Both orders are that of what the parameters come from. -/
theorem Progress.Charted.ordersAlike {steps' : List (NodeMap NodeId)} {g'' : Generation α}
    (h : Charted g g' steps) (h' : Charted g g'' (steps ++ steps')) (hg : g.Original) (budget : ℕ) :
    Analysis.OrdersAlike steps' (.ofSteps g' budget steps) (.ofSteps g'' budget (steps ++ steps')) := by
  intro j k j' k' hj hk hjj' hkk' hj' hk'
  rw [Analysis.named_eq] at hj hk hj' hk' ⊢
  rw [Analysis.named_eq]
  obtain ⟨x, o, hx, -, ho, -⟩ := h.exists_origin hg hj
  obtain ⟨y, o', hy, -, ho', -⟩ := h.exists_origin hg hk
  have hx' : resolveThrough? (steps ++ steps') x = some j' := by
    rw [resolveThrough?_append_list, hx]
    exact hjj'
  have hy' : resolveThrough? (steps ++ steps') y = some k' := by
    rw [resolveThrough?_append_list, hy]
    exact hkk'
  exact (h.sublist_iff hg hj hk hx hy ho ho').trans (h'.sublist_iff hg hj' hk' hx' hy' ho ho').symm

/-! A graph to look at: a number, the smaller of it and a constant, and another number. -/

namespace Sample

def flanked : Blueprint Float :=
  let b := (Blueprint.empty.addParameter .real).2
  let b := (b.addConstant (.range 1 2 .one)).2
  let b := (b.addExpression .min [.nth 0, .nth 1]).2
  (b.addParameter .real).2

theorem flanked_reachable : flanked.Reachable :=
  .parameter (.expression (.constant (.parameter .empty _) _) _ _) _

/-- After four steps a parameter has taken the place of the smaller one, and entered first. -/
theorem flanked_solved : ∃ s stage, solve {} flanked.generation = .ok s ∧
    s.generations[4]? = some stage ∧
    ∀ z ∈ [(NodeId.nth 0, NodeId.nth 1), (.nth 2, .nth 0), (.nth 3, .nth 6)],
      resolveThrough? (s.mappings.take 4) z.1 = some z.2 ∧ (stage.parameter? z.2).isSome := by
  have hok : ((solve {} flanked.generation).toOption.any fun s => s.generations[4]?.any fun stage =>
      [(NodeId.nth 0, NodeId.nth 1), (.nth 2, .nth 0), (.nth 3, .nth 6)].all fun z =>
        resolveThrough? (s.mappings.take 4) z.1 == some z.2 && (stage.parameter? z.2).isSome) := by
    decide +kernel
  cases hs : solve {} flanked.generation with
  | error e =>
    rw [hs] at hok
    cases hok
  | ok s =>
    rw [hs] at hok
    change s.generations[4]?.any _ = true at hok
    obtain ⟨stage, hstage, hall⟩ := (Option.any_eq_true ..).1 hok
    refine ⟨s, stage, rfl, hstage, fun z hz => ?_⟩
    obtain ⟨hz, hparameter⟩ := Bool.and_eq_true_iff.1 (List.all_eq_true.1 hall z hz)
    exact ⟨eq_of_beq hz, hparameter⟩

end Sample

/-- The order of the parameters is that of their declaration in every generation of a solve. Each is
named once and comes from a parameter of the first generation or from a node that it was made for, and
two parameters that are there in two generations stand in the same order in both. -/
theorem names_of_solve {b : Blueprint Float} {g : Generation Float} (hb : b.Reachable)
    (h : b.build = .ok g) {config : Config} {s : Solution Float} (hs : solve config g = .ok s)
    (budget : ℕ) :
    (∀ i stage, s.generations[i]? = some stage →
      (Analysis.ofSteps stage budget (s.mappings.take i)).NamesInOrder g) ∧
    ∀ i i' stage stage', i ≤ i' → s.generations[i]? = some stage →
      s.generations[i']? = some stage' →
      Analysis.OrdersAlike ((s.mappings.take i').drop i)
        (.ofSteps stage budget (s.mappings.take i)) (.ofSteps stage' budget (s.mappings.take i')) := by
  obtain ⟨p, n, hr, -, hgenerations, hmaps⟩ := runRounds_of_solve hs
  have hstart : Progress.Healthy (⟨g, [], [], .empty⟩ : Progress Float) := ⟨hb.sound h, by simp⟩
  obtain ⟨p₁, hcourse, hcharted⟩ := hstart.of_runRounds
    (I := fun p => p.Retells g ∧ Progress.Stages (Progress.Charted g) p)
    ⟨Progress.retells_start (hb.sound h), Progress.stages_start (Progress.charted_start g)⟩
    (fun hcourse hcharted => hcourse.charted hcharted) hr
  have hstages := (hcourse.charted hcharted).2.stages
  obtain ⟨-, rfl⟩ := Blueprint.of_build h
  have hg := Blueprint.original_of_reachable hb
  rw [hgenerations, hmaps]
  refine ⟨fun i stage hi => (hstages i stage hi).namesInOrder hg budget, ?_⟩
  intro i i' stage stage' hle hi hi'
  -- the steps to the later generation go on from those to the earlier one
  have hsplit : p.steps.reverse.take i' =
      p.steps.reverse.take i ++ (p.steps.reverse.take i').drop i := by
    have htake := List.take_append_drop i (p.steps.reverse.take i')
    rw [List.take_take, Nat.min_eq_left hle] at htake
    exact htake.symm
  have halike := (hstages i stage hi).ordersAlike (hsplit ▸ hstages i' stage' hi') hg budget
  rwa [← hsplit] at halike

theorem names_of_solve_flanked : Sample.flanked.build = .ok Sample.flanked.generation ∧
    ∃ s stage, solve {} Sample.flanked.generation = .ok s ∧ s.generations[4]? = some stage ∧
      [.nth 1, .nth 0].Sublist (Analysis.ofSteps stage 1 (s.mappings.take 4)).named ∧
      [.nth 0, .nth 6].Sublist (Analysis.ofSteps stage 1 (s.mappings.take 4)).named := by
  have hbuild : Sample.flanked.build = .ok Sample.flanked.generation := by
    rfl
  obtain ⟨s, stage, hs, hstage, hall⟩ := Sample.flanked_solved
  have hnames := (names_of_solve Sample.flanked_reachable hbuild hs 1).1 4 stage hstage
  have hnamed : ∀ {j}, (stage.parameter? j).isSome →
      stage.contains j ∧ j ∈ (Analysis.ofSteps stage 1 (s.mappings.take 4)).named := by
    intro j hj
    obtain ⟨p, hp⟩ := Option.isSome_iff_exists.1 hj
    have hnode := Generation.parameter?_eq.1 hp
    exact ⟨Generation.contains_of_node? hnode, (hnames.parameters j).2 ⟨p, hnode⟩⟩
  have hordered : ∀ x y j k, [x, y].Sublist Sample.flanked.generation.order →
      (resolveThrough? (s.mappings.take 4) x = some j ∧ (stage.parameter? j).isSome) →
      (resolveThrough? (s.mappings.take 4) y = some k ∧ (stage.parameter? k).isSome) →
      [j, k].Sublist (Analysis.ofSteps stage 1 (s.mappings.take 4)).named := by
    rintro x y j k hxy ⟨hx, hj⟩ ⟨hy, hk⟩
    exact hnames.ordered x y j k hxy ((Analysis.resolve?_ofSteps (hnamed hj).1).2 hx)
      ((Analysis.resolve?_ofSteps (hnamed hk).1).2 hy) (hnamed hj).2 (hnamed hk).2
  refine ⟨hbuild, s, stage, hs, hstage, ?_, ?_⟩
  · exact hordered (.nth 0) (.nth 2) _ _ (by decide) (hall (.nth 0, .nth 1) (by simp))
      (hall (.nth 2, .nth 0) (by simp))
  · exact hordered (.nth 2) (.nth 3) _ _ (by decide) (hall (.nth 2, .nth 0) (by simp))
      (hall (.nth 3, .nth 6) (by simp))

end ParameterSolver
