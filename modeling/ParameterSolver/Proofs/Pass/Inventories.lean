import ParameterSolver.Proofs.Pass.Gentle

/-! What the passes over parameters, assertions and leaves leave behind, node by node. -/

namespace ParameterSolver

open Draft

variable {α : Type} [Scalar α] {g : Generation α} {d d' : Draft α} {id : NodeId}
  {deduplicate : Bool} {journal journal' : Journal} {rev : Revision α}

theorem ValueSet.stripped_stripped (s : ValueSet α) : s.stripped.stripped = s.stripped := by
  cases s <;> rfl

namespace Pass

/-! Domains. -/

/-- The domain of the parameter has been asserted, and so has the set it has to lie in. -/
def isApplied (p : Parameter α) : Bool := p.domainApplied && p.within.isNone

/-- The parameter once its domain has been asserted. -/
def applied (p : Parameter α) : Parameter α :=
  { p with
    within := none
    domainApplied := true
    constrained := p.constrained || !(constraints p).isEmpty }

theorem applied_beq {p : Parameter α} (h : isApplied p = false) : (applied p == p) = false := by
  unfold isApplied at h
  change (_ && _) = false
  cases hd : p.domainApplied with
  | false => simp [applied]
  | true =>
    cases hw : p.within with
    | none => simp [hd, hw] at h
    | some s =>
      have hne : ((none : Option (ValueSet α)) == some s) = false := rfl
      simp [applied, hne]

/-- The parameters whose domain is still to be asserted. -/
def Unapplied (g : Generation α) (x : NodeId) : Prop :=
  ∃ p, g.node? x = some (.parameter p) ∧ isApplied p = false

/-- What is created for such a parameter. -/
def Confines (g : Generation α) (x : NodeId) (n : Node α) : Prop :=
  ∃ p s, g.node? x = some (.parameter p) ∧ s ∈ constraints p ∧
    (n = .literal s none ∨ ∃ js, n = .expression ⟨.isSubset, js, true⟩)

/-- What is left of such a parameter. -/
def IsApplied (g : Generation α) (x : NodeId) (n : Node α) : Prop :=
  ∃ p, g.node? x = some (.parameter p) ∧ n = .parameter (applied p)

theorem images_domains (d : Draft α) (i : NodeId) (n : Node α) (_ : d.input = g)
    (_ : Unapplied g i) (h : IsApplied g i n) : d.Images (g.operands i) n.operands := by
  obtain ⟨p, hp, rfl⟩ := h
  rw [Generation.operands_of_node? hp]
  exact .nil

/-- The sets that such a parameter has to lie in have been asserted of its output node. -/
def Confined (g : Generation α) (x : NodeId) (d : Draft α) : Prop :=
  ∀ p s, g.node? x = some (.parameter p) → s ∈ constraints p → ∃ c j k, d.mapping.get? x = some j ∧
    (d.Unbound k ∧ d.output.node? k = some (.literal s none)) ∧
    (d.Unbound c ∧ d.output.node? c = some (.expression ⟨.isSubset, [j, k], true⟩))

theorem confined_of_preserves {x : NodeId} (h : Preserves d d') (hx : Confined g x d) :
    Confined g x d' := by
  intro p s hp hs
  obtain ⟨c, j, k, hj, hk, hc⟩ := hx p s hp hs
  exact ⟨c, j, k, h.mapping x j hj, h.unbound k _ hk.1 hk.2, h.unbound c _ hc.1 hc.2⟩

omit [Scalar α] in
theorem parameter_of_intact {p : Parameter α} (hin : d.input = g)
    (hn : g.node? id = some (.parameter p)) (h : Intact id d) :
    ∀ j, d.mapping.get? id = some j → d.output.node? j = some (.parameter p) := by
  intro j hj
  obtain ⟨n, m, hnode, hm, hsame⟩ := h j hj
  rw [hin, hn] at hm
  cases hm
  rw [hnode, Node.eq_of_skeleton_eq_leaf hsame rfl]

theorem moves_constrainParameter (hg : g.Acyclic) {p : Parameter α} (hd : d.Coherent)
    (hin : d.input = g) (hkept : ∀ i, d.isRemoved i = false) (hn : g.node? id = some (.parameter p))
    (hintact : Intact id d) (hr : Runs (constrainParameter id p) d ⟨⟩ d') :
    Moves (Act.Gentle (fun x => x = id ∧ Unapplied g x) (fun _ => IsApplied g) fun _ => Confines g)
        d d' ∧
      (Unapplied g id → Stands id (IsApplied g id) d' ∧ Confined g id d' ∧ d'.dirty) := by
  unfold constrainParameter at hr
  split_ifs at hr with happlied
  · obtain ⟨-, rfl⟩ := runs_pure.1 hr
    refine ⟨.refl _, fun ⟨q, hq, hunapplied⟩ => ?_⟩
    cases hn.symm.trans hq
    rw [isApplied, happlied] at hunapplied
    cases hunapplied
  have hunapplied : isApplied p = false := Bool.eq_false_iff.2 happlied
  have hdue : Unapplied g id := ⟨p, hn, hunapplied⟩
  dsimp only at hr
  obtain ⟨r, d₁, hedit, hr₁⟩ := runs_bind.1 hr
  rcases moves_editParameter hg hd hin hn (hkept id) (parameter_of_intact hin hn hintact) hedit with
    ⟨hsame, -⟩ | ⟨-, hmove, out, rfl, hmap, hnode⟩
  · exact absurd hsame (Bool.eq_false_iff.1 (applied_beq hunapplied))
  have hwrite : Moves (Act.Gentle (fun x => x = id ∧ Unapplied g x) (fun _ => IsApplied g)
      fun _ => Confines g) d d₁ :=
    .single (a := .write id (.parameter (applied p))) ⟨⟨rfl, hdue⟩, p, hn, rfl⟩ hmove
  have hd₁ := hwrite.coherent hd
  have hdirty : d₁.dirty := by cases hmove <;> rfl
  -- the sets are asserted one by one, which takes nothing away
  obtain ⟨hbuilds, -, hconfined⟩ := runs_forM (l := constraints p) (d := d₁)
    (P := fun done d => Moves (fun d a => a.Builds g id (fun _ => Confines g id) d) d₁ d ∧
      d.output.contains out ∧ ∀ s ∈ done, ∃ c k,
        (d.Unbound k ∧ d.output.node? k = some (.literal s none)) ∧
        (d.Unbound c ∧ d.output.node? c = some (.expression ⟨.isSubset, [out, k], true⟩)))
    (fun done s rest hl d₂ d₃ _ ⟨h₂, hout, hdone⟩ hr => by
      have hs : s ∈ constraints p := hl ▸ by simp
      unfold log at hr
      rw [runs_get_bind, runs_modify_bind] at hr
      obtain ⟨c, hr⟩ := runs_discard.1 hr
      have hnote : Move (.note id) d₂ _ := .note (noted_journal d₂ (d₂.journal.add .trace
        "ohmcore::algorithms::domain" (d₂.input.describe id ++ " is constrained to " ++ s.render)))
      have hd₂ := h₂.coherent hd₁
      obtain ⟨h₃, hmade, hnone⟩ := moves_createExpression (C := fun _ => Confines g id) hg
        (hd₂.move hnote) (h₂.input.trans (hwrite.input.trans hin)) (by simp)
        (fun t ht _ => ⟨p, s, hn, hs, Or.inl (by simp at ht; rw [ht])⟩)
        (fun _ js _ _ => ⟨p, s, hn, hs, Or.inr ⟨js, rfl⟩⟩) hr
      have hstep := (Moves.single (P := fun d a => a.Builds g id (fun _ => Confines g id) d)
        (a := .note id) rfl hnote).trans h₃
      have hret := hstep.retains fun _ _ ha => ha.adds
      refine ⟨h₂.trans hstep, hret.contains hout, fun t ht => ?_⟩
      rcases List.mem_append.1 ht with ht | ht
      · obtain ⟨k, l, hl, hk⟩ := hdone t ht
        exact ⟨k, l, hret.unbound_node? hl, hret.unbound_node? hk⟩
      rw [List.mem_singleton.1 ht]
      cases c with
      | none =>
        obtain ⟨o, ho, -⟩ := hnone rfl
        simp at ho
      | some c =>
        obtain ⟨hfree, ⟨js, hc, hjs⟩, -⟩ := hmade c rfl
        obtain ⟨i, k, rfl, hi, hk⟩ := exists_pair hjs
        exact ⟨c, k, ⟨hk.2, hk.1⟩, hfree, hi.1 ▸ hc⟩)
    (List.nil_append _) ⟨.refl _, Generation.contains_of_node? hnode, by simp⟩ hr₁
  have hret := hbuilds.retains fun _ _ ha => ha.adds
  have hmap' := hret.mapping id out hmap
  refine ⟨hwrite.trans (hbuilds.mono fun _ _ ha => ha.gentle ⟨rfl, hdue⟩), fun _ =>
    ⟨⟨out, _, hmap', hret.node? out _ hnode, p, hn, rfl⟩, fun q s hq hs => ?_, hbuilds.dirty hdirty⟩⟩
  cases hn.symm.trans hq
  obtain ⟨c, k, hk, hc⟩ := hconfined s hs
  exact ⟨c, out, k, hmap', hk, hc⟩

/-- What is known of the pass over the parameters. -/
theorem outcome_domains (hg : g.Acyclic)
    (h : (domains : Pass α).apply deduplicate journal g = .ok (rev, journal')) :
    ∃ d, Outcome g (Unapplied g) (fun _ => IsApplied g) (fun _ => Confines g) (IsApplied g)
      (Confined g) deduplicate journal d ∧ rev = ⟨d.output, d.dirty, d.mapping⟩ := by
  refine exists_outcome (l := g.parameters) (k := Prod.fst) (f := fun x => constrainParameter x.1 x.2)
    hg (fun d hr => runs_get_bind.1 hr) Generation.nodup_parameters ?_
    (fun _ _ _ h => confined_of_preserves h) ?_ h
  · rintro x ⟨p, hp, -⟩
    exact ⟨(x, p), Generation.mem_parameters.2 hp, rfl⟩
  · intro x hx d d' hd hin hkept hintact hr
    exact moves_constrainParameter hg hd hin hkept (Generation.mem_parameters.1 hx) hintact hr

/-! Assertions. -/

/-- The assertions that do not say yet that something is true. -/
def Unwrapped (g : Generation α) (x : NodeId) : Prop :=
  ∃ e, g.node? x = some (.expression e) ∧ e.asserted ∧ e.op.isPredicate ∧ saysTrue g e = false

/-- The set that an assertion says is the value of something. -/
def theTruth : Node α := .literal (.truth true) none

/-- What is left of such an assertion, but for its operands. -/
def IsRelieved (g : Generation α) (x : NodeId) (n : Node α) : Prop :=
  ∃ e, g.node? x = some (.expression e) ∧ n = .expression ⟨e.op, [], false⟩

/-- What is left of such an assertion uses what it used. -/
def Relieves (g : Generation α) (d : Draft α) (x : NodeId) (n : Node α) : Prop :=
  ∃ e js, g.node? x = some (.expression e) ∧ d.Images e.operands js ∧
    n = .expression ⟨e.op, js, false⟩

omit [Scalar α] in
theorem images_assertions (d : Draft α) (i : NodeId) (n : Node α) (_ : d.input = g)
    (_ : Unwrapped g i) (h : Relieves g d i n) : d.Images (g.operands i) n.operands := by
  obtain ⟨e, js, he, himages, rfl⟩ := h
  rwa [Generation.operands_of_node? he]

/-- What is created for such an assertion. -/
def Vouches (d : Draft α) (x : NodeId) (n : Node α) : Prop :=
  n = theTruth ∨ ∃ inner k, n = .expression ⟨.is, [inner, k], true⟩ ∧
    d.mapping.get? x = some inner ∧ d.Unbound k ∧ d.output.node? k = some theTruth

/-- Such an assertion has become the assertion that it is true. -/
def Wrapped (g : Generation α) (x : NodeId) (d : Draft α) : Prop :=
  ∃ c inner k q, d.mapping.get? x = some inner ∧
    (d.Unbound k ∧ d.output.node? k = some theTruth) ∧
    (d.Unbound c ∧ d.output.node? c = some (.expression ⟨.is, [inner, k], true⟩)) ∧
    d.output.provenance? c = some q ∧ ∀ p, g.provenance? x = some p → ∀ y ∈ p, y ∈ q

theorem moves_wrapAssertion (hg : g.Acyclic) {e : Expression} (hd : d.Coherent)
    (hin : d.input = g) (hkept : ∀ i, d.isRemoved i = false)
    (hn : g.node? id = some (.expression e)) (hr : Runs (wrapAssertion id e) d ⟨⟩ d') :
    Moves (Act.Gentle (fun x => x = id ∧ Unwrapped g x) (Relieves g) Vouches) d d' ∧
      (Unwrapped g id → Stands id (IsRelieved g id) d' ∧ Wrapped g id d' ∧ d'.dirty) := by
  unfold wrapAssertion at hr
  simp only [runs_get_bind, hin] at hr
  split_ifs at hr with hskip
  · obtain ⟨-, rfl⟩ := runs_pure.1 hr
    refine ⟨.refl _, fun hdue => ?_⟩
    obtain ⟨x, hx, hasserted, hpred, hsays⟩ := hdue
    cases hn.symm.trans hx
    simp [hasserted, hpred, hsays] at hskip
  simp only [Bool.or_eq_true, Bool.not_eq_true', not_or, Bool.not_eq_false, Bool.not_eq_true] at hskip
  obtain ⟨⟨hasserted, hpred⟩, hsays⟩ := hskip
  have hdue : Unwrapped g id := ⟨e, hn, hasserted, hpred, hsays⟩
  obtain ⟨r, d₂, hedit, hr₂⟩ := runs_bind.1 hr
  have hops : ∀ o, Operand.input o ∈ e.operands.map (Operand.input (α := α)) →
      Relation.TransGen g.Uses id o := by
    intro o ho
    obtain ⟨x, hx, heq⟩ := List.mem_map.1 ho
    cases heq
    exact .single (by rwa [Generation.Uses, Generation.operands_of_node? hn])
  rcases moves_editExpression (C := fun d => Vouches d id) { asserted := some false } hg hd hin hn (hkept id) rfl rfl rfl hops (by simp) hedit with
    ⟨⟨-, hidle, -⟩, -⟩ | ⟨-, d₁, hbuilds, -, hend⟩
  · rw [hasserted] at hidle
    cases hidle
  have hgentle : Moves (Act.Gentle (fun x => x = id ∧ Unwrapped g x) (Relieves g) Vouches) d d₁ :=
    hbuilds.mono fun _ _ ha => ha.gentle ⟨rfl, hdue⟩
  cases hend with
  | removed o _ hgone _ _ =>
    rw [hgentle.kept hd hkept o] at hgone
    cases hgone
  | written js inner hjs hmove hsome hmap hnode =>
    subst hsome
    have hwrite := hgentle.tail (a := .write id (.expression ⟨e.op, js, false⟩))
      ⟨⟨rfl, hdue⟩, e, js, hn, List.forall₂_map_left_iff.1 hjs, rfl⟩ hmove
    have hd₂ := hwrite.coherent hd
    have hin₂ := hwrite.input.trans hin
    have hdirty : d₂.dirty := by cases hmove <;> rfl
    obtain ⟨c, hr₃⟩ := runs_discard.1 hr₂
    obtain ⟨hcreate, hmade, hnone⟩ := moves_createExpression (C := fun d => Vouches d id) hg hd₂ hin₂
      (by simp) (fun s hs _ => Or.inl (by simp at hs; rw [hs]; rfl))
      (fun d₃ js hret hjs => by
        obtain ⟨i, k, rfl, hi, hk⟩ := exists_pair hjs
        exact Or.inr ⟨i, k, rfl, hi.1 ▸ hret.mapping id inner hmap, hk.2, hk.1⟩) hr₃
    refine ⟨hwrite.trans (hcreate.mono fun _ _ ha => ha.gentle ⟨rfl, hdue⟩), fun _ => ⟨?_, ?_, ?_⟩⟩
    · have hret := hcreate.retains fun _ _ ha => ha.adds
      exact ⟨inner, _, hret.mapping id inner hmap, hret.node? inner _ hnode, e, hn, rfl⟩
    · cases c with
      | none =>
        obtain ⟨o, ho, -⟩ := hnone rfl
        simp at ho
      | some c =>
        obtain ⟨hfree, ⟨js, hc, hjs⟩, q, hq, horigins⟩ := hmade c rfl
        obtain ⟨i, k, rfl, hi, hk⟩ := exists_pair hjs
        have hret := hcreate.retains fun _ _ ha => ha.adds
        rw [hcreate.input, hin₂] at horigins
        exact ⟨c, i, k, q, hi.1 ▸ hret.mapping id inner hmap, ⟨hk.2, hk.1⟩, ⟨hfree, hc⟩, hq, horigins⟩
    · exact hcreate.dirty hdirty

omit [Scalar α] in
theorem wrapped_of_preserves {x : NodeId} (h : Preserves d d') (hx : Wrapped g x d) :
    Wrapped g x d' := by
  obtain ⟨c, inner, k, q, hinner, hk, hc, hq, horigins⟩ := hx
  obtain ⟨q', hq', hsub⟩ := h.provenance c q hc.1 hq
  exact ⟨c, inner, k, q', h.mapping x inner hinner, h.unbound k _ hk.1 hk.2,
    h.unbound c _ hc.1 hc.2, hq', fun p hp y hy => hsub y (horigins p hp y hy)⟩

/-- What is known of the pass over the assertions. -/
theorem outcome_assertions (hg : g.Acyclic)
    (h : (assertions : Pass α).apply deduplicate journal g = .ok (rev, journal')) :
    ∃ d, Outcome g (Unwrapped g) (Relieves g) Vouches (IsRelieved g) (Wrapped g) deduplicate journal d ∧
      rev = ⟨d.output, d.dirty, d.mapping⟩ := by
  refine exists_outcome (l := g.expressions) (k := Prod.fst) (f := fun x => wrapAssertion x.1 x.2)
    hg (fun d hr => runs_get_bind.1 hr) Generation.nodup_expressions ?_
    (fun _ _ _ h => wrapped_of_preserves h) ?_ h
  · rintro x ⟨e, he, -⟩
    exact ⟨(x, e), Generation.mem_expressions.2 he, rfl⟩
  · intro x hx d d' hd hin hkept _ hr
    exact moves_wrapAssertion hg hd hin hkept (Generation.mem_expressions.1 hx) hr

omit [Scalar α] in
/-- What is created for the assertions says that something is true. -/
theorem uses_theTruth {due : NodeId → Prop} {W : Draft α → NodeId → Node α → Prop}
    (h : Moves (Act.Gentle due W Vouches) (start g deduplicate journal) d) {c : NodeId}
    {e : Expression} (hfree : d.Unbound c) (hc : d.output.node? c = some (.expression e)) :
    e.op = .is ∧ ∃ k ∈ e.operands, d.Unbound k ∧ d.output.node? k = some theTruth := by
  refine (h.invariant (coherent_start g deduplicate journal)
    (I := fun d => ∀ c e, d.Unbound c → d.output.node? c = some (.expression e) →
      e.op = .is ∧ ∃ k ∈ e.operands, d.Unbound k ∧ d.output.node? k = some theTruth)
    (fun c e _ hc => ?_) fun d a d' _ ha hmove hI c e hfree hc => ?_).1 c e hfree hc
  · simp [start, Generation.node?, Generation.get?, Generation.empty] at hc
  have herase : ∀ id, a ≠ .erase id := by rintro id rfl; exact ha
  have hredirect : ∀ id t, a ≠ .redirect id t := by rintro id t rfl; exact ha
  have hpres := hmove.preserves herase hredirect
  rcases hmove.unbound_cases herase hredirect hfree hc with ⟨hfree', hc'⟩ | ⟨id, rfl⟩
  · obtain ⟨hop, k, hk, hkfree, hktruth⟩ := hI c e hfree' hc'
    exact ⟨hop, k, hk, hpres.unbound k _ hkfree hktruth⟩
  · obtain ⟨-, heq | ⟨inner, k, heq, -, hkfree, hktruth⟩⟩ := ha
    · cases heq
    · cases heq
      exact ⟨rfl, k, by simp, hpres.unbound k _ hkfree hktruth⟩

/-! Leaves. -/

/-- What a leaf becomes, if it does not stay as it is. A parameter whose numbers are equal to plain
ones stays. -/
def retouched? : Node α → Option (Node α)
  | .constant c => c.toSet.toOption.map fun s => .literal s.stripped (carriedUnit? s)
  | .literal s u => (carriedUnit? s).map fun v => .literal s.stripped (u.or (some v))
  | .parameter p =>
    if needsStripping p && !(stripParameter p == p) then some (.parameter (stripParameter p)) else none
  | .expression _ => none

/-- A parameter stays as it is only if it is in the plain unit, or in one that the plain unit is equal
to. -/
theorem one_beq_unit_of_retouched? {p : Parameter α} (h : retouched? (.parameter p) = none)
    (hunit : p.unit.isOne = false) : ((.one : MeasureUnit α) == p.unit) = true := by
  have hneeds : needsStripping p := by simp [needsStripping, hunit]
  have hsame : (stripParameter p == p) = true := by simpa [retouched?, hneeds] using h
  have hunits : ((stripParameter p).unit == p.unit) = true := by
    change (_ && _) = true at hsame
    simp only [Bool.and_eq_true] at hsame
    exact hsame.1.1.1.1.1.1.1.2
  rwa [stripParameter, if_neg (Bool.eq_false_iff.1 hunit)] at hunits

/-- The leaves that are not plain yet. -/
def Unplain (g : Generation α) (x : NodeId) : Prop :=
  ∃ n, g.node? x = some n ∧ (retouched? n).isSome

/-- What is left of such a leaf. -/
def IsRetouched (g : Generation α) (x : NodeId) (m : Node α) : Prop :=
  ∃ n, g.node? x = some n ∧ retouched? n = some m

theorem expression?_of_retouched? {n m : Node α} (h : retouched? n = some m) :
    m.expression? = none := by
  cases n with
  | constant c =>
    obtain ⟨s, -, rfl⟩ := Option.map_eq_some_iff.1 h
    rfl
  | literal s u =>
    obtain ⟨s, -, rfl⟩ := Option.map_eq_some_iff.1 h
    rfl
  | parameter p =>
    rw [retouched?] at h
    split_ifs at h
    cases h
    rfl
  | expression e => cases h

theorem images_leaves (d : Draft α) (i : NodeId) (m : Node α) (_ : d.input = g)
    (_ : Unplain g i) (h : IsRetouched g i m) : d.Images (g.operands i) m.operands := by
  obtain ⟨n, hn, hm⟩ := h
  rw [Generation.operands_of_node? hn]
  have hleaf := expression?_of_retouched? hm
  cases m with
  | expression e => cases hleaf
  | _ =>
    cases n with
    | expression e => cases hm
    | _ => exact .nil

theorem moves_stripLeaf (hg : g.Acyclic) {n : Node α} (hd : d.Coherent) (hin : d.input = g)
    (hkept : ∀ i, d.isRemoved i = false) (hn : g.node? id = some n) (hintact : Intact id d)
    (hr : Runs (stripLeaf id n) d ⟨⟩ d') :
    Moves (Act.Gentle (fun x => x = id ∧ Unplain g x) (fun _ => IsRetouched g) fun _ _ _ => False)
        d d' ∧
      (Unplain g id → Stands id (IsRetouched g id) d' ∧ True ∧ d'.dirty) := by
  have hid : d.input.contains id := hin ▸ Generation.contains_of_node? hn
  -- a leaf that changes is written once, whatever it is
  have hwrite : ∀ {m j}, retouched? n = some m → Move (.write id m) d d' →
      d'.mapping.get? id = some j → d'.output.node? j = some m →
      Moves (Act.Gentle (fun x => x = id ∧ Unplain g x) (fun _ => IsRetouched g) fun _ _ _ => False)
        d d' ∧ (Unplain g id → Stands id (IsRetouched g id) d' ∧ True ∧ d'.dirty) := by
    intro m j hm hmove hmap hnode
    refine ⟨.single (a := .write id m) ⟨⟨rfl, n, hn, hm ▸ rfl⟩, n, hn, hm⟩ hmove, fun _ =>
      ⟨⟨j, m, hmap, hnode, n, hn, ?_⟩, trivial, by cases hmove <;> rfl⟩⟩
    rw [Node.skeleton_of_leaf (expression?_of_retouched? hm), hm]
  have hidle : ∀ {d' : Draft α}, Moves (fun _ a => a.Under g id) d d' → retouched? n = none →
      Moves (Act.Gentle (fun x => x = id ∧ Unplain g x) (fun _ => IsRetouched g) fun _ _ _ => False)
        d d' ∧ (Unplain g id → Stands id (IsRetouched g id) d' ∧ True ∧ d'.dirty) := by
    intro d' hmoves hm
    refine ⟨hmoves.mono fun _ _ ha => ha.gentle, fun ⟨n', hn', hsome⟩ => ?_⟩
    cases hn.symm.trans hn'
    rw [hm] at hsome
    cases hsome
  cases n with
  | constant c =>
    rw [stripLeaf] at hr
    split at hr
    · rename_i s hs
      obtain ⟨j, hr⟩ := runs_discard.1 hr
      obtain ⟨hmove, hmap, hnode⟩ := move_replaceLeaf hd hid (hkept id) hr
      exact hwrite (by rw [retouched?, hs]; rfl) hmove hmap hnode
    · exact absurd hr runs_throw
  | literal s u =>
    rw [stripLeaf] at hr
    split at hr
    · rename_i v hv
      obtain ⟨j, hr⟩ := runs_discard.1 hr
      obtain ⟨hmove, hmap, hnode⟩ := move_replaceLeaf hd hid (hkept id) hr
      exact hwrite (by rw [retouched?, hv]; rfl) hmove hmap hnode
    · rename_i hv
      obtain ⟨-, rfl⟩ := runs_pure.1 hr
      exact hidle (.refl _) (by rw [retouched?, hv]; rfl)
  | parameter p =>
    rw [stripLeaf] at hr
    split_ifs at hr with hneeds
    · obtain ⟨r, hr⟩ := runs_discard.1 hr
      rcases moves_editParameter hg hd hin hn (hkept id) (parameter_of_intact hin hn hintact) hr with
        ⟨hsame, hmoves, -⟩ | ⟨hchanged, hmove, j, -, hmap, hnode⟩
      · exact hidle hmoves (by simp [retouched?, hsame])
      · exact hwrite (by simp [retouched?, hneeds, hchanged]) hmove hmap hnode
    · obtain ⟨-, rfl⟩ := runs_pure.1 hr
      exact hidle (.refl _) (by simp [retouched?, hneeds])
  | expression e =>
    obtain ⟨-, rfl⟩ := runs_pure.1 hr
    exact hidle (.refl _) rfl

/-- What is known of the pass over the leaves. -/
theorem outcome_leaves (hg : g.Acyclic)
    (h : (leaves : Pass α).apply deduplicate journal g = .ok (rev, journal')) :
    ∃ d, Outcome g (Unplain g) (fun _ => IsRetouched g) (fun _ _ _ => False) (IsRetouched g)
      (fun _ _ => True) deduplicate journal d ∧ rev = ⟨d.output, d.dirty, d.mapping⟩ := by
  refine exists_outcome (l := g.toList) (k := Prod.fst) (f := fun x => stripLeaf x.1 x.2.node)
    hg (fun d hr => runs_get_bind.1 hr) Generation.nodup_toList ?_ (fun _ _ _ _ _ => trivial) ?_ h
  · rintro x ⟨n, hn, -⟩
    obtain ⟨e, he, -⟩ := Option.map_eq_some_iff.1 hn
    exact ⟨(x, e), Generation.mem_toList.2 he, rfl⟩
  · intro x hx d d' hd hin hkept hintact hr
    have hn : g.node? x.1 = some x.2.node := by
      rw [Generation.node?, Generation.mem_toList.1 hx]
      rfl
    exact moves_stripLeaf hg hd hin hkept hn hintact hr

end Pass

end ParameterSolver
