import ParameterSolver.Proofs.Pass.Inventories
import ParameterSolver.Proofs.Pass.Tainted
import ParameterSolver.Proofs.Pass.Weight
import ParameterSolver.Proofs.Solve.Total

/-! What the nodes of a graph look like after each pass. -/

namespace ParameterSolver

open Draft Pass

variable {α : Type} [Scalar α] {g : Generation α} {d : Draft α} {deduplicate : Bool}
  {journal : Journal}

namespace Node

/-- The domain of the parameter has been asserted. -/
def Applied (n : Node α) : Prop := ∀ p, n = .parameter p → isApplied p

/-- The domain of the parameter has been asserted, or there is none to assert. -/
def Free (n : Node α) : Prop := ∀ p, n = .parameter p → isApplied p ∨ p = .real

/-- The leaf stays as it is. -/
def Plain (n : Node α) : Prop := retouched? n = none

/-- The operator is in the basis. -/
def InBasis (n : Node α) : Prop := ∀ e, n = .expression e → e.op.isCanonical

/-- If it is asserted, it is a predicate. -/
def Assertable (n : Node α) : Prop := ∀ e, n = .expression e → e.asserted → e.op.isPredicate

end Node

namespace Generation

/-- What holds of all nodes, whatever their operands are. -/
def All (g : Generation α) (P : Node α → Prop) : Prop := ∀ id n, g.node? id = some n → P n.skeleton

/-- Every assertion says that something is true. -/
def Worded (g : Generation α) : Prop :=
  ∀ id e, g.node? id = some (.expression e) → e.asserted → saysTrue g e

variable {P P' : Node α → Prop}

omit [Scalar α] in
theorem All.and (h : g.All P) (h' : g.All P') : g.All fun n => P n ∧ P' n := fun id n hn =>
  ⟨h id n hn, h' id n hn⟩

omit [Scalar α] in
theorem All.mono (h : g.All P) (hP : ∀ n, P n → P' n) : g.All P' := fun id n hn => hP _ (h id n hn)

end Generation

/-- The graph after a pass: the revised one, if the pass changed something. -/
def Revision.next (rev : Revision α) (g : Generation α) : Generation α :=
  if rev.dirty then rev.generation else g

/-! What all nodes look like after a pass, from what they looked like before. -/

section Outcome

variable {due : NodeId → Prop} {W C : Draft α → NodeId → Node α → Prop} {Q R : NodeId → Node α → Prop}
  {E : NodeId → Draft α → Prop} (h : Outcome g due W C Q E deduplicate journal d)

include h

omit [Scalar α]

theorem Outcome.all {P : Node α → Prop} (hC : ∀ d i n, C d i n → R i n.skeleton)
    (hg : ∀ i m, g.node? i = some m → ¬ due i → P m.skeleton)
    (hQ : ∀ i n, due i → Q i n → P n) (hR : ∀ i n, due i → R i n → P n) :
    (Revision.next ⟨d.output, d.dirty, d.mapping⟩ g).All P := by
  unfold Revision.next
  split_ifs with hdirty
  · intro j n hn
    rcases h.inventory hC hn with ⟨i, m, -, hm, hi, hsame⟩ | ⟨i, -, hi, hq⟩ | ⟨-, i, hi, hr⟩
    · exact hsame ▸ hg i m hm hi
    · exact hQ i _ hi hq
    · exact hR i _ hi hr
  · exact fun i m hm => hg i m hm fun hi => hdirty (h.dirty_iff.2 ⟨i, hi⟩)

/-- A leaf that is not due stays as it is. -/
theorem Outcome.node?_of_leaf {i j : NodeId} {n : Node α} (hj : d.mapping.get? i = some j)
    (hn : g.node? i = some n) (hleaf : n.expression? = none) (hi : ¬ due i) :
    d.output.node? j = some n := by
  obtain ⟨m, hm⟩ := Generation.contains_iff.1 (h.coherent.mapped i j hj).2
  rcases h.inventory (R := fun _ _ => True) (fun _ _ _ _ => trivial) hm with
    ⟨i', m', hi', hm', -, hsame⟩ | ⟨i', hi', hdue, -⟩ | ⟨hfree, -⟩
  · cases h.coherent.injective i i' j hj hi'
    cases hn.symm.trans hm'
    rw [hm, Node.eq_of_skeleton_eq_leaf hsame hleaf]
  · exact absurd (h.coherent.injective i i' j hj hi' ▸ hdue) hi
  · exact absurd hj (hfree i)

end Outcome

namespace Pass

variable {P : Node α → Prop} {journal' : Journal} {rev : Revision α}

theorem all_domains (hg : g.Acyclic)
    (h : (domains : Pass α).apply deduplicate journal g = .ok (rev, journal'))
    (hkeep : ∀ i m, g.node? i = some m → ¬ Unapplied g i → P m.skeleton)
    (happlied : ∀ i p, g.node? i = some (.parameter p) → isApplied p = false →
      P (.parameter (applied p)))
    (hnew : ∀ i p, g.node? i = some (.parameter p) → isApplied p = false → ∀ s ∈ constraints p,
      P (.literal s none) ∧ P (.expression ⟨.isSubset, [], true⟩)) : (rev.next g).All P := by
  obtain ⟨d, hd, rfl⟩ := outcome_domains hg h
  refine hd.all (R := fun i n => ∃ p s, g.node? i = some (.parameter p) ∧ s ∈ constraints p ∧
    (n = .literal s none ∨ n = .expression ⟨.isSubset, [], true⟩)) (fun _ i n hn => ?_) hkeep ?_ ?_
  · obtain ⟨p, s, hp, hs, rfl | ⟨js, rfl⟩⟩ := hn
    · exact ⟨p, s, hp, hs, Or.inl rfl⟩
    · exact ⟨p, s, hp, hs, Or.inr rfl⟩
  · rintro i n ⟨p, hp, hunapplied⟩ ⟨p', hp', rfl⟩
    cases hp.symm.trans hp'
    exact happlied i p hp hunapplied
  · rintro i n ⟨p, hp, hunapplied⟩ ⟨p', s, hp', hs, rfl | rfl⟩ <;> cases hp.symm.trans hp'
    · exact (hnew i p hp hunapplied s hs).1
    · exact (hnew i p hp hunapplied s hs).2

theorem dirty_domains_iff (hg : g.Acyclic)
    (h : (domains : Pass α).apply deduplicate journal g = .ok (rev, journal')) :
    rev.dirty ↔ ∃ i, Unapplied g i := by
  obtain ⟨d, hd, rfl⟩ := outcome_domains hg h
  exact hd.dirty_iff

theorem all_assertions (hg : g.Acyclic)
    (h : (assertions : Pass α).apply deduplicate journal g = .ok (rev, journal')) (hkeep : g.All P)
    (hrelieved : ∀ i e, g.node? i = some (.expression e) → P (.expression ⟨e.op, [], false⟩))
    (htruth : P theTruth) (his : P (.expression ⟨.is, [], true⟩)) : (rev.next g).All P := by
  obtain ⟨d, hd, rfl⟩ := outcome_assertions hg h
  refine hd.all (R := fun _ n => n = theTruth ∨ n = .expression ⟨.is, [], true⟩)
    (fun _ i n hn => ?_) (fun i m hm _ => hkeep i m hm) ?_ ?_
  · obtain rfl | ⟨inner, k, rfl, -⟩ := hn
    · exact Or.inl rfl
    · exact Or.inr rfl
  · rintro i n - ⟨e, he, rfl⟩
    exact hrelieved i e he
  · rintro i n - (rfl | rfl)
    · exact htruth
    · exact his

theorem dirty_assertions_iff (hg : g.Acyclic)
    (h : (assertions : Pass α).apply deduplicate journal g = .ok (rev, journal')) :
    rev.dirty ↔ ∃ i, Unwrapped g i := by
  obtain ⟨d, hd, rfl⟩ := outcome_assertions hg h
  exact hd.dirty_iff

theorem all_leaves (hg : g.Acyclic)
    (h : (leaves : Pass α).apply deduplicate journal g = .ok (rev, journal'))
    (hkeep : ∀ i m, g.node? i = some m → retouched? m = none → P m.skeleton)
    (hnew : ∀ i n m, g.node? i = some n → retouched? n = some m → P m) : (rev.next g).All P := by
  obtain ⟨d, hd, rfl⟩ := outcome_leaves hg h
  refine hd.all (R := fun _ _ => False) (fun _ _ _ hn => hn) (fun i m hm hi => ?_) ?_ (by simp)
  · refine hkeep i m hm ?_
    by_contra hne
    exact hi ⟨m, hm, Option.isSome_iff_ne_none.2 hne⟩
  · rintro i m - ⟨n, hn, hm⟩
    exact hnew i n m hn hm

theorem dirty_leaves_iff (hg : g.Acyclic)
    (h : (leaves : Pass α).apply deduplicate journal g = .ok (rev, journal')) :
    rev.dirty ↔ ∃ i, Unplain g i := by
  obtain ⟨d, hd, rfl⟩ := outcome_leaves hg h
  exact hd.dirty_iff

theorem all_operators (hg : g.Sound)
    (h : (operators : Pass α).apply deduplicate journal g = .ok (rev, journal')) (hkeep : g.All P)
    (hsprout : ∀ n, Sprout n → P n.skeleton)
    (hnew : ∀ i e op, g.node? i = some (.expression e) → op.supplants e.op →
      P (.expression ⟨op, [], e.asserted⟩)) : (rev.next g).All P := by
  unfold Revision.next
  split_ifs
  · obtain ⟨d, hd, rfl⟩ := exists_canonized hg h
    intro j n hn
    rcases hd.inventory hn with ⟨i, m, -, hm, hsame⟩ |
      ⟨i, e, -, he, -, ⟨rfl, -⟩ | ⟨op, js, rfl, hop⟩⟩ | ⟨-, hn⟩
    · exact hsame ▸ hkeep i m hm
    · exact hsprout _ (Or.inr (Or.inl rfl))
    · exact hnew i e op he hop
    · exact hsprout _ hn
  · exact hkeep

/-- Nothing stands outside the basis after the pass over the operators. -/
theorem inBasis_operators (hg : g.Sound)
    (h : (operators : Pass α).apply deduplicate journal g = .ok (rev, journal')) :
    (rev.next g).All Node.InBasis := by
  obtain ⟨rev', journal'', h', -, hforeign, hforeign'⟩ := gives_operators hg deduplicate journal
  cases h.symm.trans h'
  have hall : ∀ {g : Generation α}, (∀ id, ¬ g.Foreign id) → g.All Node.InBasis := by
    intro g hg id n hn e he
    cases n with
    | expression e' =>
      cases he
      exact by_contra fun hop => hg id ⟨e', hn, Bool.eq_false_iff.2 hop⟩
    | _ => cases he
  unfold Revision.next
  split_ifs with hdirty
  · exact hall hforeign
  · exact hall (hforeign' (Bool.eq_false_iff.2 hdirty))

omit [Scalar α] in
theorem op_of_inBasis (hbasis : g.All Node.InBasis) {id : NodeId} {e : Expression}
    (he : g.node? id = some (.expression e)) : e.op.isCanonical :=
  hbasis id _ he ⟨e.op, [], e.asserted⟩ rfl

/-- The pass over the operators has nothing to do on a graph over the basis. -/
theorem runs_operators_of_inBasis (hbasis : g.All Node.InBasis) :
    Runs (operators : Pass α).run (start g deduplicate journal) ⟨⟩
      (start g deduplicate journal) := by
  refine runs_get_bind.2 (runs_forM_idle fun x hx => ?_)
  have hop := op_of_inBasis hbasis (Generation.mem_expressions.1 hx)
  change Runs (canonize x.1 x.2) _ _ _
  unfold canonize
  rw [runs_get_bind, if_pos (by simp [hop])]
  exact runs_pure.2 ⟨rfl, rfl⟩

theorem dirty_operators_of_inBasis (hbasis : g.All Node.InBasis)
    (h : (operators : Pass α).apply deduplicate journal g = .ok (rev, journal')) :
    rev.dirty = false := dirty_of_idle (runs_operators_of_inBasis hbasis) h

theorem all_nesting (hg : g.Sound)
    (h : (nesting : Pass α).apply deduplicate journal g = .ok (rev, journal')) (hkeep : g.All P) :
    (rev.next g).All P := by
  unfold Revision.next
  split_ifs
  · obtain ⟨d, hd, rfl⟩ := exists_compressed hg h
    intro j n hn
    obtain ⟨i, m, -, hm, hsame⟩ := hd.inventory hg.toLinked hn
    exact hsame ▸ hkeep i m hm
  · exact hkeep

/-! Assertions that say that something is true. -/

omit [Scalar α] in
theorem saysTrue_iff {e : Expression} : saysTrue g e ↔ e.op = .is ∧
    ∃ o ∈ e.operands, ∃ s u, g.node? o = some (.literal s u) ∧ s.isTrue := by
  have hlit : ∀ o, (g.literal? o).any ValueSet.isTrue ↔
      ∃ s u, g.node? o = some (.literal s u) ∧ s.isTrue := by
    intro o
    rw [Option.any_eq_true, Generation.literal?]
    constructor
    · rintro ⟨s, hs, htrue⟩
      obtain ⟨n, hn, hns⟩ := Option.bind_eq_some_iff.1 hs
      cases n with
      | literal s' u =>
        cases hns
        exact ⟨s, u, hn, htrue⟩
      | _ => cases hns
    · rintro ⟨s, u, hn, htrue⟩
      exact ⟨s, by rw [hn]; rfl, htrue⟩
  simp [saysTrue, hlit]

omit [Scalar α] in
/-- What stands for an assertion that something is true asserts it, if the literals stay. -/
theorem saysTrue_of_images {e e' : Expression} (himages : d.Images e.operands e'.operands)
    (hop : e'.op = e.op)
    (hstay : ∀ o k s u, d.mapping.get? o = some k → g.node? o = some (.literal s u) →
      d.output.node? k = some (.literal s u)) (h : saysTrue g e) : saysTrue d.output e' := by
  obtain ⟨his, o, ho, s, u, hn, htrue⟩ := saysTrue_iff.1 h
  obtain ⟨k, hk, hok⟩ := himages.exists_image ho
  exact saysTrue_iff.2 ⟨hop.trans his, k, hk, s, u, hstay o k s u hok hn, htrue⟩

omit [Scalar α] in
theorem saysTrue_of_not_unwrapped (hassert : g.All Node.Assertable) {id : NodeId} {e : Expression}
    (he : g.node? id = some (.expression e)) (hasserted : e.asserted) (h : ¬ Unwrapped g id) :
    saysTrue g e := by
  by_contra hsays
  have hpred : e.op.isPredicate := hassert id _ he ⟨e.op, [], e.asserted⟩ rfl hasserted
  exact h ⟨e, he, hasserted, hpred, Bool.eq_false_iff.2 hsays⟩

/-- After the pass over the assertions each of them says that something is true. -/
theorem worded_assertions (hg : g.Acyclic) (hassert : g.All Node.Assertable)
    (h : (assertions : Pass α).apply deduplicate journal g = .ok (rev, journal')) :
    (rev.next g).Worded := by
  unfold Revision.next
  split_ifs with hdirty
  · obtain ⟨d, hd, rfl⟩ := outcome_assertions hg h
    intro j e hj hasserted
    rcases hd.inventory (R := fun _ _ => True) (fun _ _ _ _ => trivial) hj with
      ⟨i, m, hi, hm, hdue, hsame⟩ | ⟨i, -, -, e', -, heq⟩ | ⟨hfree, -⟩
    · obtain ⟨e', rfl, hop, hasserted'⟩ := Node.expression_of_skeleton hsame.symm
      have himages := hd.images images_assertions hi
      rw [Generation.operands_of_node? hj, Generation.operands_of_node? hm] at himages
      refine saysTrue_of_images himages hop.symm (fun o k s u hk ho => ?_)
        (saysTrue_of_not_unwrapped hassert hm (hasserted'.trans hasserted) hdue)
      refine hd.node?_of_leaf hk ho rfl ?_
      rintro ⟨e, he, -⟩
      cases ho.symm.trans he
    · obtain ⟨-, hrelieved⟩ : e.op = e'.op ∧ e.asserted = false := by
        simpa [Node.skeleton, Node.withOperands] using heq
      rw [hrelieved] at hasserted
      cases hasserted
    · obtain ⟨hop, k, hk, -, htruth⟩ := uses_theTruth hd.moves hfree hj
      exact saysTrue_iff.2 ⟨hop, k, hk, _, _, htruth, rfl⟩
  · exact fun id e he hasserted => saysTrue_of_not_unwrapped hassert he hasserted fun hdue =>
      hdirty ((dirty_assertions_iff hg h).2 ⟨id, hdue⟩)

/-- The operands of an assertion that something is true are left alone by the last pass. -/
theorem worded_nesting (hg : g.Sound) (hworded : g.Worded)
    (h : (nesting : Pass α).apply deduplicate journal g = .ok (rev, journal')) :
    (rev.next g).Worded := by
  unfold Revision.next
  split_ifs
  · obtain ⟨d, hd, rfl⟩ := exists_compressed hg h
    have hl := hg.toLinked
    intro j e hj hasserted
    obtain ⟨i, m, hi, hm, hsame⟩ := hd.inventory hl hj
    obtain ⟨e', rfl, hop, hasserted'⟩ := Node.expression_of_skeleton hsame.symm
    have hsays := hworded i e' hm (hasserted'.trans hasserted)
    obtain ⟨l, hl', himages⟩ := (hd.thinned hl).mirrors i j trivial hi
    have hsource : l = e'.operands := by
      rcases hl' with rfl | ⟨e'', hover, -⟩
      · rw [Generation.operands_of_node? hm]
        rfl
      · cases hm.symm.trans hover.node?
        have hop' := hover.op
        rw [(saysTrue_iff.1 hsays).1] at hop'
        rcases hop' with hop' | hop' <;> cases hop'
    subst hsource
    rw [Generation.operands_of_node? hj] at himages
    refine saysTrue_of_images himages hop.symm (fun o k s u hk ho => ?_) hsays
    obtain ⟨n, hn⟩ := Generation.contains_iff.1 (hd.coherent.mapped o k hk).2
    obtain ⟨o', m', ho', hm', hsame'⟩ := hd.inventory hl hn
    cases hd.coherent.injective o o' k hk ho'
    cases ho.symm.trans hm'
    rw [hn, Node.eq_of_skeleton_eq_leaf hsame' rfl]
  · exact hworded

/-! Leaves that stay as they are. -/

@[simp] theorem retouched?_skeleton (n : Node α) : retouched? n.skeleton = retouched? n := by
  cases n <;> rfl

section Plain

variable (hone : ((1 : α) == 1) = true)

include hone

theorem isOne_one : (MeasureUnit.one : MeasureUnit α).isOne := by
  simpa [MeasureUnit.isOne, MeasureUnit.isDimensionless, MeasureUnit.one] using hone

theorem carriedUnit?_stripped (s : ValueSet α) : carriedUnit? s.stripped = none := by
  cases s with
  | numeric q =>
    simp [carriedUnit?, ValueSet.stripped, ValueSet.unit?, ValueSet.quantities?, Quantities.stripped,
      Quantities.plain, isOne_one hone]
  | _ => rfl

theorem plain_retouched {n m : Node α} (h : retouched? n = some m) : m.Plain := by
  have hlit : ∀ s : ValueSet α, ∀ u, (Node.literal s.stripped u : Node α).Plain := fun s u => by
    simp [Node.Plain, retouched?, carriedUnit?_stripped hone]
  cases n with
  | constant c =>
    obtain ⟨s, -, rfl⟩ := Option.map_eq_some_iff.1 h
    exact hlit s _
  | literal s u =>
    obtain ⟨v, -, rfl⟩ := Option.map_eq_some_iff.1 h
    exact hlit s _
  | parameter p =>
    rw [retouched?] at h
    split_ifs at h
    cases h
    have hmap : ∀ s : Option (ValueSet α), (s.map ValueSet.stripped).bind carriedUnit? = none := by
      rintro (_ | s)
      · rfl
      · exact carriedUnit?_stripped hone s
    have hunit : (if p.unit.isOne then p.unit else .one).isOne := by
      split_ifs with hu
      · exact hu
      · exact isOne_one hone
    have hneeds : needsStripping (stripParameter p) = false := by
      simp [needsStripping, stripParameter, hmap, hunit]
    simp [Node.Plain, retouched?, hneeds]
  | expression e => cases h

theorem plain_real {p : Parameter α} (hunit : p.unit = .one) (hwithin : p.within = none)
    (hsoft : p.soft = none) (hguess : p.guess = none) : (Node.parameter p).Plain := by
  have hneeds : needsStripping p = false := by
    simp [needsStripping, hunit, hwithin, hsoft, hguess, isOne_one hone]
  simp [Node.Plain, retouched?, hneeds]

theorem plain_sprout {n : Node α} (h : Sprout n) : n.skeleton.Plain := by
  rcases h with ⟨x, rfl⟩ | rfl | ⟨e, rfl, -⟩
  · have hcarried : carriedUnit? (ValueSet.number x) = none := by
      simp [carriedUnit?, ValueSet.number, ValueSet.unit?, ValueSet.quantities?, Quantities.plain,
        isOne_one hone]
    simp [Node.skeleton, Node.withOperands, Node.Plain, retouched?, hcarried]
  · exact plain_real hone rfl rfl rfl rfl
  · rfl

end Plain

end Pass

end ParameterSolver
