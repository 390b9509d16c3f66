import ParameterSolver.Proofs.Propagation.Kinds

/-! The check of units is sound for propagation. In a graph that a build accepts, whatever is built from
numbers has a unit as long as no product or quotient leaves the range of exponents; every set of numbers
that sweeps come to is in a unit of the dimension inferred, so that none of the operations on sets with
elements fails because of units. -/

namespace ParameterSolver

variable {α : Type} [Scalar α] {g : Generation α}

namespace Knowledge

variable {k : Knowledge α} {id : NodeId} {e : Expression} {v : ValueSet α}

/-! Forward steps. -/

section Forward

variable (hg : g.Accepted) (he : g.expression? id = some e) (hk : Measured g k) (hi : Inferred g k)

include hg he hk hi

theorem forwardValue_eq : Strict.forwardValue k e = .ok (k.forwardValue? e) := by
  have hdims (hop : Blueprint.needsSameUnit e.op) :
      ∃ d, ∀ s, some s ∈ e.operands.map k.value? → s.Fits d := by
    by_cases h : ∃ o ∈ e.operands, (g.unit? o).isSome
    · obtain ⟨o, ho, hu⟩ := h
      refine ⟨g.dims o, fun s hs => ?_⟩
      obtain ⟨o', ho', hs⟩ := List.mem_map.1 hs
      exact fits_operand hg he hop ho ho' hk hi hs hu
    · refine ⟨0, fun s hs _ q hq => ?_⟩
      obtain ⟨o, ho, hs⟩ := List.mem_map.1 hs
      subst hq
      exact absurd ⟨o, ho, hi o q hs⟩ h
  unfold Strict.forwardValue forwardValue?
  rw [Strict.evaluate_eq hdims]
  rfl

/-- The dimensions of the operands make that of the expression. -/
theorem measures_evaluateKnown (hu : (g.unit? id).isSome) {values : List (ValueSet α)} {exact : List Bool}
    (hvalues : e.operands.mapM k.value? = some values) (hfed : ∀ s ∈ values, s.isEmpty = false)
    (h : Propagation.evaluateKnown? e.op values exact = some v) : v.Measures (g.dims id) := by
  have hparts {sets : List (Quantities α)} (hsets : values.mapM ValueSet.quantities? = some sets) :
      sets.map (fun q => q.unit.dims) = e.operands.map g.dims := by
    refine hk.dims_of_parts (forall₂_numeric (mapM_bind_quantities hvalues hsets)) fun q hq => ?_
    obtain ⟨s, hs, hsq⟩ := (mem_of_mapM hsets).2 q hq
    rw [eq_numeric_of_quantities? hsq] at hs
    exact hfed _ hs
  have hop := hg.hasDimension he hu
  simp only [Operator.hasDimension, Bool.or_eq_true, beq_iff_eq] at hop
  rcases hop with (hop | hop) | hop
  · refine Propagation.measures_of_keepsDimension hop (fun s hs => ?_) h
    rintro q rfl
    obtain ⟨o, ho, hvalue⟩ := (mem_of_mapM hvalues).2 _ hs
    rw [(hg.dims_of_keepsDimension he hop ho (hi o q hvalue)).2]
    exact hk o _ hvalue (hfed _ hs) q rfl
  · rw [hop] at h
    obtain ⟨c, hc, rfl⟩ := Option.map_eq_some_iff.1 h
    obtain ⟨sets, hsets, hdims⟩ := Propagation.dims_of_multiply hc
    rw [ValueSet.measures_numeric, hdims, hparts hsets, (hg.dims_of_multiply he hop hu).2]
  · rw [hop] at h
    obtain ⟨c, hc, rfl⟩ := Option.map_eq_some_iff.1 h
    obtain ⟨p, q, rest, hsets, hdims⟩ := Propagation.dims_of_divide hc
    obtain ⟨a, b, hops, -, -, hquotient⟩ := hg.dims_of_divide he hop hu
    have hpair := hparts hsets
    rw [hops, List.map_cons, List.map_cons, List.map_cons, List.map_cons] at hpair
    obtain ⟨hp, hrest⟩ := List.cons.inj hpair
    rw [ValueSet.measures_numeric, hdims, hquotient, hp, (List.cons.inj hrest).1]

theorem fits_evaluate (hu : (g.unit? id).isSome) {exact : List Bool}
    (h : Propagation.evaluate? e.op (e.operands.map k.value?) exact = some v) :
    v.Fits (g.dims id) := by
  unfold Propagation.evaluate? at h
  split at h
  · rename_i empty hempty
    cases h
    split_ifs
    · exact ValueSet.measures_boolean.fits
    · exact ValueSet.fits_of_isEmpty (List.find?_some hempty)
  · rename_i hfed
    have hunknown {v : ValueSet α} (h : Propagation.unknown? e.op = some v) : v.Fits (g.dims id) := by
      unfold Propagation.unknown? at h
      split_ifs at h
      cases h
      exact ValueSet.measures_boolean.fits
    rw [List.mapM_map] at h
    split at h
    · rename_i values hvalues
      rcases Option.or_eq_some_iff.1 h with h | ⟨-, h⟩
      · refine (measures_evaluateKnown hg he hk hi hu hvalues (fun s hs => ?_) h).fits
        obtain ⟨o, ho, hs⟩ := (mem_of_mapM hvalues).2 s hs
        refine Bool.eq_false_iff.2 (List.find?_eq_none.1 hfed s (List.mem_filterMap.2 ⟨some s, ?_, rfl⟩))
        exact List.mem_map.2 ⟨o, ho, hs⟩
      · exact hunknown h
    · exact hunknown h

theorem fits_forwardValue (hu : (g.unit? id).isSome) (h : k.forwardValue? e = some v) :
    v.Fits (g.dims id) := by
  unfold forwardValue? at h
  dsimp only at h
  split_ifs at h
  · split at h
    · rename_i s hs
      cases h
      have hfits := fits_evaluate hg he hk hi hu hs
      cases hinter : s.inter (.truth true) with
      | error e => exact hfits
      | ok c => exact hfits.inter hinter
    · cases h
      exact ValueSet.measures_boolean.fits
  · exact fits_evaluate hg he hk hi hu h

end Forward

theorem agrees_forwardStep (hg : g.Accepted) (k : Knowledge α) (id : NodeId) :
    Agrees g k (Strict.forwardStep g k id) (forwardStep g k id) := by
  intro hk hi
  have hi₀ := hi.of_learns (learns_forwardStep k id)
  revert hi
  unfold Strict.forwardStep forwardStep
  cases he : g.expression? id with
  | none => exact Agrees.refl k hk
  | some e =>
    have hid : id ≠ .null :=
      Generation.ne_null_of_contains (Generation.contains_of_node? (Generation.expression?_eq.1 he))
    have hfits {v : ValueSet α} (hv : k.forwardValue? e = some v) (hu : (g.unit? id).isSome) :
        v.Fits (g.dims id) := fits_forwardValue hg he hk hi₀ hu hv
    dsimp only
    rw [forwardValue_eq hg he hk hi₀]
    revert hfits
    cases k.forwardValue? e with
    | none =>
      intro _
      split_ifs
      · exact Agrees.refl _ hk
      · exact Agrees.refl _ hk
    | some v =>
      intro hfits
      split_ifs
      · exact agrees_restrict hid (hfits rfl) hk
      · exact agrees_restrict hid (hfits rfl) hk

/-! Sweeps. -/

theorem agrees_sweep (hg : g.Accepted) (order : List NodeId) (k : Knowledge α) :
    Agrees g k (Strict.sweep g order k) (sweep g order k) := by
  have hforward : Agrees g k
      (order.foldlM (Strict.forwardStep g) { k with changed := false })
      (order.foldl (forwardStep g) { k with changed := false }) :=
    Agrees.foldlM learns_forwardStep (fun id _ k => agrees_forwardStep hg k id) { k with changed := false }
  exact hforward.bind (Learns.foldl learns_backwardStep _ _)
    (Agrees.foldlM learns_backwardStep (fun id _ k => agrees_backwardStep hg k id) _)

/-- The numbers of a leaf are of the dimension of its unit. -/
theorem measured_seed (hg : g.Accepted) : Measured g (seed g) := by
  rintro id s hs - q rfl
  obtain ⟨n, hn, hinitial⟩ := initial?_of_seed hs
  obtain ⟨u, hu, hdims⟩ := Generation.unit_of_initial (Blueprint.checkUnits g).units hinitial
  rw [hdims, Generation.dims_of_unit? ((hg.unit?_eq hn).trans hu)]

/-- Of the leaves, only the bound of a parameter is compared, with the domain. -/
theorem initial_eq (hg : g.Accepted) {n : Node α} (hn : g.node? id = some n) :
    Strict.initial n = .ok (initial? n) := by
  cases n with
  | literal s source => rfl
  | constant c => rfl
  | expression e => rfl
  | parameter p =>
    cases hw : p.within with
    | none =>
      simp only [Strict.initial, initial?, hw]
      rfl
    | some bound =>
      have hcomparable : p.values.Comparable bound := by
        rintro q q' hvalues rfl hunit
        unfold Parameter.values at hvalues
        cases hdomain : p.domain with
        | numbers negative zero integer =>
          obtain ⟨base, hbase⟩ := Domain.exists_values_numbers negative zero integer p.unit
          rw [hdomain, hbase] at hvalues
          cases hvalues
          have hfit := Blueprint.commensurable_bound hg.acyclic hg.faults hn (by rw [hdomain]; rfl) hw rfl
          rw [MeasureUnit.commensurable_iff] at hfit
          rw [MeasureUnit.commensurable_iff.2 hfit.symm] at hunit
          cases hunit
        | _ =>
          rw [hdomain] at hvalues
          cases hvalues
      simp only [Strict.initial, initial?, hw]
      rw [Strict.attempt_op ValueSet.dimensional_inter hcomparable]
      rfl

theorem seed_eq (hg : g.Accepted) : Strict.seed g = .ok (seed g) := by
  have hall : g.toList.forM (fun x => discard (Strict.initial x.2.node)) =
      (pure ⟨⟩ : Except (SetError α) PUnit) := by
    refine Strict.forM_eq_pure fun x hx => ?_
    have hn : g.node? x.1 = some x.2.node := Generation.mem_nodes.1 (List.mem_map.2 ⟨x, hx, rfl⟩)
    rw [initial_eq hg hn]
    rfl
  rw [Strict.seed, hall, pure_bind]
  rfl

end Knowledge

namespace Propagation

theorem agrees_iterate (hg : g.Accepted) (order : List NodeId) (budget : ℕ) (p : Propagation α)
    (hp : p.knowledge.Measured g) (hi : (iterate g order budget p).knowledge.Inferred g) :
    Strict.iterate g order budget p = .ok (iterate g order budget p) ∧
      (iterate g order budget p).knowledge.Measured g := by
  induction budget generalizing p with
  | zero => exact ⟨rfl, hp⟩
  | succ budget ih =>
    have hsweep := Knowledge.agrees_sweep hg order p.knowledge hp
    unfold Strict.iterate
    unfold iterate at hi ⊢
    dsimp only at hi ⊢
    split_ifs at hi ⊢ with hchanged
    · have hlater := learns_iterate (g := g) order budget ⟨p.knowledge.sweep g order, p.rounds + 1⟩
      obtain ⟨heq, hmeasured⟩ := hsweep (hi.of_learns hlater)
      rw [heq]
      show (if (p.knowledge.sweep g order).changed then _ else _) = _ ∧ _
      rw [if_pos hchanged]
      exact ih _ hmeasured hi
    · obtain ⟨heq, hmeasured⟩ := hsweep hi
      rw [heq]
      show (if (p.knowledge.sweep g order).changed then _ else _) = _ ∧ _
      rw [if_neg hchanged]
      exact ⟨rfl, hmeasured⟩

end Propagation

namespace Propagation

/-- Take a graph that a build accepts, in which whatever stands for numbers is built from numbers and no
relation bounds an expression of other sets by numbers. Everything that stands for numbers has a unit, no
operation of a run on two sets with elements fails because of units, and a node that is known as a set of
numbers has a unit, which the set can be compared with if it has elements. -/
theorem commensurable_of_build {b : Blueprint α} (hb : b.Reachable) (h : b.build = .ok g)
    (hn : ∀ id, g.Numeric id → g.Quantity id) (hk : g.WellKinded) (ho : g.NoOverflow) :
    (∀ id, g.Numeric id → ∃ u, g.unit? id = some u) ∧
    ∀ budget, Strict.run g budget = .ok (run g budget) ∧
      ∀ id q, (run g budget).knowledge.value? id = some (.numeric q) →
        ∃ u, g.unit? id = some u ∧ (q.isEmpty = false → q.unit.commensurable u) := by
  have hg := Generation.accepted_of_build hb h
  have hunit (id : NodeId) (hid : g.Numeric id) : ∃ u, g.unit? id = some u :=
    Option.isSome_iff_exists.1 ((hn id hid).measures hg ho).1
  refine ⟨hunit, fun budget => ?_⟩
  have hkinded := kinded_run hg hn hk budget
  have hinferred : (run g budget).knowledge.Inferred g := fun id q hq =>
    Option.isSome_iff_exists.2 (hunit id (hkinded id q hq))
  obtain ⟨hstrict, hmeasured⟩ := agrees_iterate hg g.topologicalOrder budget ⟨.seed g, 0⟩
    (Knowledge.measured_seed hg) hinferred
  refine ⟨?_, fun id q hq => ?_⟩
  · rw [Strict.run, Knowledge.seed_eq hg]
    exact hstrict
  · obtain ⟨u, hu⟩ := hunit id (hkinded id q hq)
    refine ⟨u, hu, fun hfed => MeasureUnit.commensurable_iff.2 ?_⟩
    rw [hmeasured id _ hq hfed q rfl, Generation.dims_of_unit? hu]

end Propagation

/-! A graph to look at: a length, the way that its share of some time makes in that time, the sum of both,
and the lengths that are no such way. -/

namespace Sample

def motion : Blueprint Float :=
  let b := (Blueprint.empty.addParameter { domain := .real, unit := .base .length }).2
  let b := (b.addParameter { domain := .positive, unit := .base .time }).2
  let b := (b.addExpression .divide [.nth 0, .nth 1]).2
  let b := (b.addExpression .multiply [.nth 2, .nth 1]).2
  let b := (b.addExpression .add [.nth 0, .nth 3]).2
  let b := (b.addExpression .difference [.nth 0, .nth 3]).2
  let b := (b.addAssertion .is [.nth 4, .nth 0]).2
  (b.addAssertion .is [.nth 5, .nth 0]).2

theorem motion_reachable : motion.Reachable :=
  .assertion (.assertion (.expression (.expression (.expression (.expression (.parameter (.parameter .empty _) _)
    _ _) _ _) _ _) _ _) _ _) _ _

theorem motion_build : motion.build = .ok motion.generation := by
  rfl

theorem motion_expression {id : NodeId} {e : Expression} (he : motion.generation.expression? id = some e) :
    (id, e) ∈ [(NodeId.nth 2, (⟨.divide, [.nth 0, .nth 1], false⟩ : Expression)),
      (.nth 3, ⟨.multiply, [.nth 2, .nth 1], false⟩), (.nth 4, ⟨.add, [.nth 0, .nth 3], false⟩),
      (.nth 5, ⟨.difference, [.nth 0, .nth 3], false⟩), (.nth 6, ⟨.is, [.nth 4, .nth 0], true⟩),
      (.nth 7, ⟨.is, [.nth 5, .nth 0], true⟩)] :=
  Generation.mem_expressions.2 (Generation.expression?_eq.1 he)

theorem motion_quantity (id : NodeId) (e : Expression) (he : motion.generation.expression? id = some e) :
    e.op.isPredicate ∨ motion.generation.Quantity id := by
  have hpair {id a b : NodeId} {op : Operator} (he : motion.generation.expression? id = some ⟨op, [a, b], false⟩)
      (hop : op.hasDimension) (ha : motion.generation.Quantity a) (hb : motion.generation.Quantity b) :
      motion.generation.Quantity id :=
    .expression he hop fun o ho => by
      simp only [List.mem_cons, List.not_mem_nil, or_false] at ho
      rcases ho with rfl | rfl <;> assumption
  have hlength : motion.generation.Quantity (.nth 0) := .leaf rfl rfl
  have htime : motion.generation.Quantity (.nth 1) := .leaf rfl rfl
  have hspeed : motion.generation.Quantity (.nth 2) := hpair rfl rfl hlength htime
  have hway : motion.generation.Quantity (.nth 3) := hpair rfl rfl hspeed htime
  have hmem := motion_expression he
  simp only [List.mem_cons, Prod.mk.injEq, List.not_mem_nil, or_false] at hmem
  rcases hmem with ⟨rfl, -⟩ | ⟨rfl, -⟩ | ⟨rfl, -⟩ | ⟨rfl, -⟩ | ⟨-, rfl⟩ | ⟨-, rfl⟩
  · exact Or.inr hspeed
  · exact Or.inr hway
  · exact Or.inr (hpair rfl rfl hlength hway)
  · exact Or.inr (hpair rfl rfl hlength hway)
  · exact Or.inl rfl
  · exact Or.inl rfl

theorem motion_wellKinded : motion.generation.WellKinded :=
  Generation.wellKinded_of_expressions (Generation.accepted_of_build motion_reachable motion_build)
    motion_quantity

theorem motion_noOverflow : motion.generation.NoOverflow := by
  have hlength : motion.generation.Measures (.nth 0) (MeasureUnit.base .length : MeasureUnit Float).dims :=
    Generation.Measures.leaf (q := ⟨.unbounded, .base .length⟩) rfl rfl
  obtain ⟨base, hbase⟩ := Domain.exists_values_numbers (α := Float) false false false (.base .time)
  have htime : motion.generation.Measures (.nth 1) (MeasureUnit.base .time : MeasureUnit Float).dims :=
    Generation.Measures.leaf (q := ⟨base, .base .time⟩) rfl (congrArg some hbase)
  have hspeed : motion.generation.Measures (.nth 2) _ := .quotient rfl rfl rfl hlength htime
  refine ⟨fun id e d he hop hd l hl hprefix => ?_, fun id e a b d d' he hop hops ha hb => ?_⟩
  · have hmem := motion_expression he
    simp only [List.mem_cons, Prod.mk.injEq, List.not_mem_nil, or_false] at hmem
    rcases hmem with ⟨-, rfl⟩ | ⟨-, rfl⟩ | ⟨-, rfl⟩ | ⟨-, rfl⟩ | ⟨-, rfl⟩ | ⟨-, rfl⟩ <;> try cases hop
    have hfirst := hspeed.unique (hd (.nth 2) (by simp))
    have hsecond := htime.unique (hd (.nth 1) (by simp))
    obtain rfl | ⟨m, rfl, hm⟩ := List.prefix_cons_iff.1 hprefix
    · exact absurd rfl hl
    obtain rfl | ⟨m', rfl, hm'⟩ := List.prefix_cons_iff.1 hm
    · rw [List.map_cons, List.map_nil, hfirst]
      intro b
      cases b <;> decide
    · obtain rfl := List.prefix_nil.1 hm'
      rw [List.map_cons, List.map_cons, List.map_nil, hfirst, hsecond]
      intro b
      cases b <;> decide
  · have hmem := motion_expression he
    simp only [List.mem_cons, Prod.mk.injEq, List.not_mem_nil, or_false] at hmem
    rcases hmem with ⟨-, rfl⟩ | ⟨-, rfl⟩ | ⟨-, rfl⟩ | ⟨-, rfl⟩ | ⟨-, rfl⟩ | ⟨-, rfl⟩ <;> try cases hop
    cases hops
    rw [hlength.unique ha, htime.unique hb]
    intro b
    cases b <;> decide

end Sample

theorem Propagation.commensurable_of_build_motion :
    Sample.motion.build = .ok Sample.motion.generation ∧
      (∀ id, Sample.motion.generation.Numeric id → Sample.motion.generation.Quantity id) ∧
      Sample.motion.generation.WellKinded ∧ Sample.motion.generation.NoOverflow ∧
      Strict.run Sample.motion.generation 64 = .ok (run Sample.motion.generation 64) ∧
      ∀ id ∈ [NodeId.nth 3, .nth 5], ∃ q u,
        (run Sample.motion.generation 64).knowledge.value? id = some (.numeric q) ∧ q.isEmpty = false ∧
        Sample.motion.generation.unit? id = some u ∧ q.unit.commensurable u := by
  have hknown : [NodeId.nth 3, .nth 5].all fun id =>
      ((run Sample.motion.generation 64).knowledge.value? id).any fun s =>
        s.quantities?.any fun q => !q.isEmpty := by
    decide +kernel
  have hn (id : NodeId) (hid : Sample.motion.generation.Numeric id) : Sample.motion.generation.Quantity id :=
    Generation.quantity_of_expressions Sample.motion_quantity hid
  obtain ⟨hstrict, hunits⟩ := (commensurable_of_build Sample.motion_reachable Sample.motion_build hn
    Sample.motion_wellKinded Sample.motion_noOverflow).2 64
  refine ⟨Sample.motion_build, hn, Sample.motion_wellKinded, Sample.motion_noOverflow, hstrict,
    fun id hid => ?_⟩
  obtain ⟨s, hs, hnumbers⟩ := Option.any_eq_true _ _ |>.1 (List.all_eq_true.1 hknown id hid)
  obtain ⟨q, hq, hsome⟩ := Option.any_eq_true _ _ |>.1 hnumbers
  obtain rfl := eq_numeric_of_quantities? hq
  have hfed : q.isEmpty = false := by simpa using hsome
  obtain ⟨u, hu, hunit⟩ := hunits id q hs
  exact ⟨q, u, hs, hfed, hu, hunit hfed⟩

/-! Members of two enumerations have no union, so that one is a length and a time at once as far as the
check of units can see. -/

namespace Sample

def mixed : Blueprint Float :=
  let b := (Blueprint.empty.addLiteral (.enum ⟨"A", .ofList ["a"]⟩)).2
  let b := (b.addLiteral (.enum ⟨"B", .ofList ["b"]⟩)).2
  let b := (b.addParameter { domain := .real, unit := .base .length }).2
  let b := (b.addParameter { domain := .real, unit := .base .time }).2
  let b := (b.addExpression .union [.nth 0, .nth 1]).2
  let b := (b.addAssertion .is [.nth 4, .nth 2]).2
  (b.addAssertion .is [.nth 4, .nth 3]).2

theorem mixed_expression {id : NodeId} {e : Expression} (he : mixed.generation.expression? id = some e) :
    (id, e) ∈ [(NodeId.nth 4, (⟨.union, [.nth 0, .nth 1], false⟩ : Expression)),
      (.nth 5, ⟨.is, [.nth 4, .nth 2], true⟩), (.nth 6, ⟨.is, [.nth 4, .nth 3], true⟩)] :=
  Generation.mem_expressions.2 (Generation.expression?_eq.1 he)

theorem mixed_quantity (id : NodeId) (hid : mixed.generation.Numeric id) : mixed.generation.Quantity id := by
  have hmember (o : NodeId) (ho : o ∈ [NodeId.nth 0, .nth 1]) : ¬ mixed.generation.Numeric o := by
    simp only [List.mem_cons, List.not_mem_nil, or_false] at ho
    rcases ho with rfl | rfl
    all_goals
      rintro (⟨hn, hq⟩ | ⟨he, -⟩ | ⟨he, -⟩)
      · cases hn
        cases hq
      · cases he
      · cases he
  cases hid with
  | leaf hn hq => exact .leaf hn hq
  | arithmetic he hop =>
    have hmem := mixed_expression he
    simp only [List.mem_cons, Prod.mk.injEq, List.not_mem_nil, or_false] at hmem
    rcases hmem with ⟨-, rfl⟩ | ⟨-, rfl⟩ | ⟨-, rfl⟩ <;> cases hop
  | @set _ o _ he hop ho h =>
    have hmem := mixed_expression he
    simp only [List.mem_cons, Prod.mk.injEq, List.not_mem_nil, or_false] at hmem
    rcases hmem with ⟨-, rfl⟩ | ⟨-, rfl⟩ | ⟨-, rfl⟩ <;> try cases hop
    exact absurd h (hmember o ho)

theorem mixed_noOverflow : mixed.generation.NoOverflow := by
  refine ⟨fun id e d he hop => ?_, fun id e a b d d' he hop => ?_⟩
  all_goals
    have hmem := mixed_expression he
    simp only [List.mem_cons, Prod.mk.injEq, List.not_mem_nil, or_false] at hmem
    rcases hmem with ⟨-, rfl⟩ | ⟨-, rfl⟩ | ⟨-, rfl⟩ <;> cases hop

end Sample

/-- A build accepts a graph in which whatever stands for numbers is built from numbers and nothing overflows,
and the first sweep makes a union a set of times, for which no unit is inferred, and compares it with a set
of lengths. -/
theorem Propagation.not_commensurable_of_mixed :
    Sample.mixed.Reachable ∧ Sample.mixed.build = .ok Sample.mixed.generation ∧
      (∀ id, Sample.mixed.generation.Numeric id → Sample.mixed.generation.Quantity id) ∧
      Sample.mixed.generation.NoOverflow ∧
      Strict.run Sample.mixed.generation 1 = .error (.unitMismatch (.base .time) (.base .length)) ∧
      (run Sample.mixed.generation 1).knowledge.value? (.nth 4) = some (.numeric ⟨.unbounded, .base .time⟩) ∧
      (Numbers.unbounded : Numbers Float).isEmpty = false ∧ Sample.mixed.generation.unit? (.nth 4) = none :=
  ⟨.assertion (.assertion (.expression (.parameter (.parameter (.literal (.literal .empty _) _) _) _) _ _) _ _) _ _,
    rfl, Sample.mixed_quantity, Sample.mixed_noOverflow, rfl, rfl, rfl, rfl⟩

/-! Without a range for exponents there is no dimension for a square, and nothing is said when it is
asserted to be a length and a time at once. -/

namespace Sample

def vast : Blueprint Float :=
  let unit := ⟨⟨0, 100, 0, 0, 0, 0, 0⟩, 1, none⟩
  let b := (Blueprint.empty.addParameter { domain := .real, unit }).2
  let b := (b.addParameter { domain := .real, unit := .base .length }).2
  let b := (b.addParameter { domain := .real, unit := .base .time }).2
  let b := (b.addExpression .multiply [.nth 0, .nth 0]).2
  let b := (b.addAssertion .is [.nth 3, .nth 1]).2
  (b.addAssertion .is [.nth 3, .nth 2]).2

example : vast.build.isOk ∧ (Strict.run vast.generation 1).isOk = false := by decide +kernel

end Sample

end ParameterSolver
