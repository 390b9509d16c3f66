import ParameterSolver.Proofs.Draft.Changes
import ParameterSolver.Proofs.Draft.Traces

/-! Changes of input nodes, taken apart into moves, and the copies that close a draft. -/

namespace ParameterSolver

variable {α : Type} [Scalar α]

namespace Draft

variable {g : Generation α} {P : Draft α → Act α → Prop} {d d' : Draft α} {id : NodeId} {n : Node α}
  {p : Provenance} {C : Draft α → Node α → Prop} {l : List (Operand α)} {op : Operator}
  {asserted : Bool}


omit [Scalar α] in
theorem move_emit {j : NodeId} (hd : d.Coherent) (hid : d.input.contains id)
    (hremoved : d.isRemoved id = false) (hp : d.input.Cites [id] p ∨
      ∃ k, d.mapping.get? id = some k ∧ (∃ q, d.output.node? k = some (.parameter q)) ∧
        d.output.provenance? k = some p)
    (hr : Runs (emit id n p) d j d') :
    Move (.write id n) d d' ∧ d'.mapping.get? id = some j ∧ d'.output.node? j = some n := by
  unfold emit markDirty at hr
  rw [runs_modify_bind, runs_get_bind] at hr
  have hmapped : ({ d with dirty := true } : Draft α).mapped? id = d.mapping.get? id :=
    hd.mapped?_eq id
  rw [hmapped] at hr
  cases hmap : d.mapping.get? id with
  | some out =>
    rw [hmap] at hr
    dsimp only at hr
    split at hr
    · rename_i o' hrep
      rw [runs_set_bind] at hr
      obtain ⟨rfl, rfl⟩ := runs_pure.1 hr
      have hrep' := Generation.rewritten_of_replace hrep
      refine ⟨.replace hmap hrep' (hp.imp_right ?_), hmap, hrep'.node?_self⟩
      rintro ⟨k, hk, hprov⟩
      cases hmap.symm.trans hk
      exact hprov
    · exact absurd hr runs_throw
  | none =>
    rw [hmap] at hr
    obtain ⟨k, d₁, hins, hr₁⟩ := runs_bind.1 hr
    rw [runs_modify_bind] at hr₁
    obtain ⟨rfl, rfl⟩ := runs_pure.1 hr₁
    obtain ⟨o', henter, rfl⟩ := entered_of_runs hins
    refine ⟨.place hid hremoved hmap henter (hp.resolve_right ?_),
      NodeMap.get?_insert_self (Generation.ne_null_of_contains hid), henter.node?_self⟩
    rintro ⟨k, hk, -⟩
    rw [hmap] at hk
    cases hk

omit [Scalar α] in
theorem move_replaceLeaf {j : NodeId} (hd : d.Coherent) (hid : d.input.contains id)
    (hremoved : d.isRemoved id = false) (hr : Runs (replaceLeaf id n) d j d') :
    Move (.write id n) d d' ∧ d'.mapping.get? id = some j ∧ d'.output.node? j = some n := by
  unfold replaceLeaf at hr
  obtain ⟨p, d₀, hp, hr₀⟩ := runs_bind.1 hr
  obtain ⟨hp, rfl⟩ := of_runs_inputProvenance hp
  exact move_emit hd hid hremoved (Or.inl (cites_of_provenance? hp)) hr₀

/-- Changing a parameter that has not been changed before. -/
theorem moves_editParameter (hg : g.Acyclic) {q : Parameter α} {change : Parameter α → Parameter α}
    {r : Option NodeId} (hd : d.Coherent) (hin : d.input = g)
    (hn : g.node? id = some (.parameter q)) (hremoved : d.isRemoved id = false)
    (hintact : ∀ j, d.mapping.get? id = some j → d.output.node? j = some (.parameter q))
    (hr : Runs (editParameter id change) d r d') :
    ((change q == q) = true ∧ Moves (fun _ a => a.Under g id) d d' ∧
        (∀ j, r = some j → d'.mapping.get? id = some j)) ∨
      ((change q == q) = false ∧ Move (.write id (.parameter (change q))) d d' ∧
        ∃ j, r = some j ∧ d'.mapping.get? id = some j ∧
          d'.output.node? j = some (.parameter (change q))) := by
  have hid : d.input.contains id := hin ▸ Generation.contains_of_node? hn
  have hcurrent : (d.mapping.get? id).elim (d.input.parameter? id) d.output.parameter? = some q := by
    cases hmap : d.mapping.get? id with
    | none => simp [hin, Generation.parameter?, hn, Node.parameter?]
    | some j => simp [Generation.parameter?, hintact j hmap, Node.parameter?]
  rw [runs_editParameter_iff (by simp [hremoved]) (hd.mapped?_eq id) hcurrent] at hr
  split_ifs at hr with hsame
  · obtain ⟨h, hsome, -⟩ := moves_copy hg hd hin hr
    exact Or.inl ⟨hsame, h, hsome⟩
  · refine Or.inr ⟨Bool.eq_false_iff.2 hsame, ?_⟩
    have hwrite : ∀ {p d₁}, (d.input.Cites [id] p ∨
        ∃ k, d.mapping.get? id = some k ∧ (∃ q, d.output.node? k = some (.parameter q)) ∧
          d.output.provenance? k = some p) → d₁ = d →
        Runs (some <$> emit id (.parameter (change q)) p) d₁ r d' →
        Move (.write id (.parameter (change q))) d d' ∧ ∃ j, r = some j ∧
          d'.mapping.get? id = some j ∧ d'.output.node? j = some (.parameter (change q)) := by
      rintro p d₁ hp rfl hrun
      obtain ⟨j, hemit, rfl⟩ := runs_map.1 hrun
      obtain ⟨hmove, hmap, hnode⟩ := move_emit hd hid hremoved hp hemit
      exact ⟨hmove, j, rfl, hmap, hnode⟩
    obtain ⟨p, d₁, hp, hr₁⟩ := runs_bind.1 hr
    cases hprov : (d.mapping.get? id).bind d.output.provenance? with
    | none =>
      rw [hprov] at hp
      obtain ⟨hp, rfl⟩ := of_runs_inputProvenance hp
      exact hwrite (Or.inl (cites_of_provenance? hp)) rfl hr₁
    | some p' =>
      rw [hprov] at hp
      obtain ⟨rfl, rfl⟩ := runs_pure.1 hp
      obtain ⟨k, hk, hprov⟩ := Option.bind_eq_some_iff.1 hprov
      exact hwrite (Or.inr ⟨k, hk, ⟨q, hintact k hk⟩, hprov⟩) rfl hr₁

theorem move_remove (hd : d.Coherent) (hid : d.input.contains id) {r : Unit}
    (hr : Runs (remove id) d r d') : Move (.erase id) d d' := by
  have hnull := Generation.ne_null_of_contains hid
  have hinsert : ∀ i, (d.removed.insert id ()).contains i ↔ d.isRemoved i ∨ i = id := fun i =>
    NodeMap.contains_insert hnull
  unfold remove markDirty markRemoved log at hr
  rw [runs_modify_bind, runs_modify_bind, runs_modify_bind, runs_get_bind] at hr
  rw [runs_modify.1 hr]
  cases hmap : d.mapping.get? id with
  | none =>
    refine Move.erase hid (?_ : Erased id [] d _)
    refine ⟨rfl, ⟨fun _ h => h, fun _ => by simp, fun _ _ => by simp, by simp⟩, fun _ => by simp,
      rfl, by simp [hmap], by simp, fun i j => by simp, fun i => ?_, rfl, rfl⟩
    refine (hinsert i).trans ?_
    simp
  | some out =>
    dsimp only
    have hgone := (Generation.cleared_of_remove d.output out).2 (hd.mapped id out hmap).2
    have herase : ∀ i, (d.mapping.erase id).get? i = if i = id then none else d.mapping.get? i :=
      NodeMap.get?_erase_of_ne hnull
    refine Move.erase hid (?_ : Erased id (d.output.remove out).1 d _)
    constructor
    case input => rfl
    case output => exact (Generation.cleared_of_remove d.output out).1
    case provenance? => exact Generation.provenance?_remove
    case origins => rfl
    case self =>
      intro j hj
      cases hmap.symm.trans hj
      exact hgone
    case least => exact fun B hstart hB => Generation.remove_subset hB (hstart out hmap)
    case mapping =>
      intro i j
      refine (get?_removeOutput out i j).trans ?_
      change (d.mapping.erase id).get? i = some j ∧ _ ↔ _
      rw [herase]
      by_cases hi : i = id
      · rw [if_pos hi, hi, hmap]
        refine iff_of_false (by simp) ?_
        rintro ⟨⟨⟩, hj⟩
        exact hj hgone
      · rw [if_neg hi]
    case removed =>
      intro i
      refine (isRemoved_removeOutput out i).trans ?_
      change (d.removed.insert id ()).contains i ∨ (∃ k ∈ _, (d.mapping.erase id).get? i = some k) ↔ _
      rw [hinsert, herase, or_assoc]
      refine or_congr_right ⟨?_, ?_⟩
      · rintro (hi | ⟨k, hk, hi⟩)
        · exact Or.inl hi
        · split_ifs at hi
          exact Or.inr ⟨k, hk, hi⟩
      · rintro (hi | ⟨k, hk, hi⟩)
        · exact Or.inl hi
        · by_cases hiid : i = id
          · exact Or.inl hiid
          · exact Or.inr ⟨k, hk, by rw [if_neg hiid, hi]⟩
    case dirty => rfl
    case created => rfl

omit [Scalar α] in
theorem move_absorb {out : NodeId} {sources : List NodeId} {r : Unit}
    (hout : ∀ n, d.output.node? out = some n →
      ∃ e, n = .expression e ∧ (d.Unbound out ∨ e.op.isCanonical))
    (hr : Runs (absorb out sources) d r d') : Move (.credit out sources) d d' := by
  unfold absorb at hr
  obtain ⟨q, d₀, hq, hr₀⟩ := runs_bind.1 hr
  obtain ⟨hq, rfl⟩ := cites_of_runs hq
  rw [runs_modify.1 hr₀]
  exact .credit hq hout

/-- The edit puts into an expression what it has already. -/
def IdleEdit (edit : ExpressionEdit α) (e : Expression) : Prop :=
  edit.op.getD e.op = e.op ∧ edit.asserted.getD e.asserted = e.asserted ∧
    edit.operands.all (isInputs · e.operands)

/-- What a change of an expression amounts to after its operands are there: the expression is
written, or removed since an operand is gone. -/
inductive Concludes (id : NodeId) (op : Operator) (l : List (Operand α)) (asserted : Bool)
    (d : Draft α) (r : Option NodeId) (d' : Draft α) : Prop
  | written (js : List NodeId) (j : NodeId) (hjs : List.Forall₂ (Operand.Names d) l js)
    (hmove : Move (.write id (.expression ⟨op, js, asserted⟩)) d d') (hr : r = some j)
    (hmap : d'.mapping.get? id = some j)
    (hnode : d'.output.node? j = some (.expression ⟨op, js, asserted⟩))
  | removed (o : NodeId) (ho : .input o ∈ l) (hgone : d.isRemoved o) (hmove : Move (.erase id) d d')
    (hr : r = none)

/-- Changing an expression is a copy, or brings the operands and settles the expression. -/
theorem moves_editExpression (edit : ExpressionEdit α) (hg : g.Acyclic) {e : Expression}
    {r : Option NodeId} (hd : d.Coherent) (hin : d.input = g)
    (hn : g.node? id = some (.expression e)) (hremoved : d.isRemoved id = false)
    (hop : edit.op.getD e.op = op) (hl : edit.operands.getD (e.operands.map .input) = l)
    (hasserted : edit.asserted.getD e.asserted = asserted)
    (hops : ∀ o, .input o ∈ l → Relation.TransGen g.Uses id o)
    (hlit : ∀ s, .literal s ∈ l → ∀ d, C d (.literal s none))
    (hr : Runs (editExpression id edit) d r d') :
    (IdleEdit edit e ∧ Moves (fun _ a => a.Under g id) d d' ∧
        (∀ j, r = some j → d'.mapping.get? id = some j) ∧ (r = none → d'.isRemoved id)) ∨
      (¬ IdleEdit edit e ∧ ∃ d₁, Moves (fun d a => a.Builds g id C d) d d₁ ∧ Leaves id d d₁ ∧
        Concludes id op l asserted d₁ r d') := by
  have he : d.input.expression? id = some e := by
    rw [hin]
    exact Generation.expression?_eq.2 hn
  unfold editExpression at hr
  rw [runs_get_bind] at hr
  simp only [hremoved, Bool.false_eq_true, if_false, he, hl, hop, hasserted] at hr
  split_ifs at hr with hidle
  · simp only [Bool.and_eq_true, decide_eq_true_eq] at hidle
    exact Or.inl ⟨⟨hop.trans hidle.1.1, hasserted.trans hidle.1.2, hidle.2⟩, moves_copy hg hd hin hr⟩
  · have hnot : ¬ IdleEdit edit e := by
      rintro ⟨h₁, h₂, h₃⟩
      rw [hop] at h₁
      rw [hasserted] at h₂
      exact hidle (by simp [h₁, h₂, h₃])
    refine Or.inr ⟨hnot, ?_⟩
    obtain ⟨p, d₀, hp, hr₀⟩ := runs_bind.1 hr
    obtain ⟨hp, rfl⟩ := of_runs_inputProvenance hp
    have hcites := cites_of_provenance? hp
    obtain ⟨rs, d₁, hcol, hr₁⟩ := runs_bind.1 hr₀
    obtain ⟨h₁, hsome, hnone⟩ := moves_resolveAll (C := C) hg hd hin (hin ▸ hcites) hops hlit hcol
    have hleaves : Leaves id _ d₁ := h₁.leaves fun _ _ ha => ⟨ha.adds, ha.ne hg⟩
    refine ⟨d₁, h₁, hleaves, ?_⟩
    have hd₁ := h₁.coherent hd
    have hid₁ : d₁.input.contains id := by
      rw [h₁.input, hin]
      exact Generation.contains_of_node? hn
    cases rs with
    | none =>
      obtain ⟨u, d₂, hrem, hr₂⟩ := runs_bind.1 hr₁
      obtain ⟨rfl, rfl⟩ := runs_pure.1 hr₂
      obtain ⟨o, ho, hgone⟩ := hnone rfl
      exact .removed o ho hgone (move_remove hd₁ hid₁ hrem) rfl
    | some js =>
      obtain ⟨j, hemit, rfl⟩ := runs_map.1 hr₁
      obtain ⟨hmove, hmap, hnode⟩ := move_emit hd₁ hid₁ (hleaves.removed.trans hremoved)
        (Or.inl (h₁.input ▸ hcites)) hemit
      exact .written js j (hsome js rfl) hmove rfl hmap hnode

end Draft

/-! Redirecting, on the graph that is redirected in. -/

namespace Generation

variable {g g' g'' : Generation α} {old target : NodeId}

/-- The nodes in `D` use `target` in the place of `old`. -/
structure Diverts (g : Generation α) (old target : NodeId) (D : Set NodeId) (g' : Generation α) :
    Prop where
  done : ∀ j ∈ D, g'.node? j = (g.node? j).map fun n =>
    n.withOperands (n.operands.map fun o => if o = old then target else o)
  rest : ∀ j ∉ D, g'.node? j = g.node? j
  provenance? : ∀ j, g'.provenance? j = g.provenance? j
  origins : g'.origins = g.origins
  issued : ∀ o, g.Issued o → g'.Issued o
  linked : g'.Linked

omit [Scalar α] in
theorem Diverts.start (hg : g.Linked) : g.Diverts old target ∅ g :=
  ⟨by simp, fun _ _ => rfl, fun _ => rfl, rfl, fun _ h => h, hg⟩

omit [Scalar α] in
/-- One more node is diverted. One that has been diverted before stays as it is. -/
theorem Diverts.replace {D : Set NodeId} {u : NodeId} {e : Expression} {p : Provenance}
    (h : g.Diverts old target D g') (hn : g'.node? u = some (.expression e))
    (hp : g'.provenance? u = some p) (hr : g'.Rewritten u (.expression
      { e with operands := e.operands.map fun o => if o = old then target else o }) p g'') :
    g.Diverts old target (D ∪ {u}) g'' := by
  have hself : g''.node? u = (g.node? u).map fun n =>
      n.withOperands (n.operands.map fun o => if o = old then target else o) := by
    rw [hr.node?_self]
    by_cases hu : u ∈ D
    · have hdone := h.done u hu
      rw [hn] at hdone
      obtain ⟨n, hgn, hne⟩ := Option.map_eq_some_iff.1 hdone.symm
      rw [hgn]
      cases n with
      | expression x =>
        cases hne
        simp only [Option.map_some, Node.withOperands, Node.operands, List.map_map]
        congr 3
        refine List.map_congr_left fun o _ => ?_
        simp only [Function.comp_apply]
        split_ifs with h₁ h₂ <;> simp_all
      | _ => cases hne
    · rw [← h.rest u hu, hn]
      rfl
  refine ⟨?_, fun j hj => ?_, fun j => ?_, hr.origins.trans h.origins,
    fun o ho => hr.issued o (h.issued o ho), hr.linked h.linked⟩
  · rintro j (hj | rfl)
    · by_cases hju : j = u
      · rw [hju, hself]
      · rw [hr.node?_of_ne hju, h.done j hj]
    · exact hself
  · simp only [Set.mem_union, Set.mem_singleton_iff, not_or] at hj
    rw [hr.node?_of_ne hj.2, h.rest j hj.1]
  · rw [hr.provenance?]
    split_ifs with hju
    · rw [hju, ← h.provenance?, hp]
    · exact h.provenance? j

omit [Scalar α] in
/-- Once all users are diverted, nothing uses `old`. -/
theorem Diverts.users_eq {D : Set NodeId} (h : g.Diverts old target D g') (hg : g.Linked)
    (hne : old ≠ target) (hD : ∀ u ∈ g.users old, u ∈ D) : g'.users old = [] := by
  refine List.eq_nil_iff_forall_not_mem.2 fun u hu => ?_
  have hop := (h.linked.users old u).1 hu
  by_cases huD : u ∈ D
  · obtain ⟨n', hn'⟩ := node?_of_mem_operands hop
    rw [operands_of_node? hn'] at hop
    rw [h.done u huD] at hn'
    obtain ⟨n, -, rfl⟩ := Option.map_eq_some_iff.1 hn'
    cases n with
    | expression e =>
      obtain ⟨o, -, ho⟩ := List.mem_map.1 hop
      split_ifs at ho with hold
      · exact hne ho.symm
      · exact hold ho
    | _ => cases hop
  · rw [operands_congr (h.rest u huD), ← hg.users] at hop
    exact huD (hD u hop)

omit [Scalar α] in
theorem Diverts.node?_eq {D : Set NodeId} (h : g.Diverts old target D g') (hg : g.Linked)
    (hD : ∀ u ∈ g.users old, u ∈ D) (j : NodeId) : g'.node? j = (g.node? j).map fun n =>
      n.withOperands (n.operands.map fun o => if o = old then target else o) := by
  by_cases hj : j ∈ D
  · exact h.done j hj
  rw [h.rest j hj]
  cases hn : g.node? j with
  | none => rfl
  | some n =>
    have hnot : old ∉ n.operands := fun ho =>
      hj (hD j ((hg.users old j).2 (by rwa [operands_of_node? hn])))
    have hmap : n.operands.map (fun o => if o = old then target else o) = n.operands :=
      (List.map_congr_left fun o ho => if_neg fun heq => hnot (by rwa [← heq])).trans (List.map_id _)
    rw [Option.map_some, hmap, Node.withOperands_operands]

end Generation

namespace Draft

variable {d d' : Draft α} {id old target : NodeId}

omit [Scalar α] in
theorem diverts_of_runs_rewire {D : Set NodeId} {u : NodeId} {r : Unit} {g : Generation α}
    (h : g.Diverts old target D d.output) (hr : Runs (rewire old target u) d r d') :
    (∃ o', d' = { d with output := o' } ∧ g.Diverts old target (D ∪ {u}) o') ∨
      (d' = d ∧ ∀ e, d.output.node? u ≠ some (.expression e)) := by
  unfold rewire at hr
  rw [runs_get_bind] at hr
  split at hr
  · rename_i e p users hget
    have hn : d.output.node? u = some (.expression e) := by rw [Generation.node?, hget]; rfl
    have hp : d.output.provenance? u = some p := by rw [Generation.provenance?, hget]; rfl
    dsimp only at hr
    split at hr
    · rename_i o' hrep
      rw [runs_set.1 hr]
      exact Or.inl ⟨o', rfl, h.replace hn hp (Generation.rewritten_of_replace hrep)⟩
    · exact absurd hr runs_throw
  · rename_i hget
    obtain ⟨-, rfl⟩ := runs_pure.1 hr
    refine Or.inr ⟨rfl, fun e he => ?_⟩
    obtain ⟨⟨node, p, users⟩, hentry, hnode⟩ := Option.map_eq_some_iff.1 he
    dsimp only at hnode
    subst hnode
    exact hget e p users hentry

omit [Scalar α] in
/-- All users come to use `target`. -/
theorem diverts_of_runs {us : List NodeId} {r : PUnit} {g : Generation α}
    (hus : ∀ u ∈ us, ∃ e, g.node? u = some (.expression e)) {D : Set NodeId}
    (h : g.Diverts old target D d.output) (hr : Runs (us.forM (rewire old target)) d r d') :
    ∃ o', d' = { d with output := o' } ∧ g.Diverts old target (D ∪ { u | u ∈ us }) o' := by
  induction us generalizing d D with
  | nil =>
    obtain ⟨-, rfl⟩ := runs_pure.1 hr
    exact ⟨_, rfl, by simpa using h⟩
  | cons u us ih =>
    rw [List.forM_eq_forM, List.forM_cons] at hr
    obtain ⟨_, d₁, hu, hr₁⟩ := runs_bind.1 hr
    rcases diverts_of_runs_rewire h hu with ⟨o₁, rfl, h₁⟩ | ⟨-, hnot⟩
    · obtain ⟨o', rfl, h'⟩ := ih (fun x hx => hus x (.tail _ hx)) h₁ hr₁
      refine ⟨o', rfl, ?_⟩
      have hset : D ∪ {u} ∪ { x | x ∈ us } = D ∪ { x | x ∈ u :: us } := by
        ext x
        simp only [Set.mem_union, Set.mem_singleton_iff, Set.mem_ofPred_eq, List.mem_cons, or_assoc]
      rwa [hset] at h'
    · exfalso
      obtain ⟨e, he⟩ := hus u (by simp)
      by_cases huD : u ∈ D
      · have hdone := h.done u huD
        rw [he] at hdone
        exact hnot _ hdone
      · exact hnot e ((h.rest u huD).trans he)

omit [Scalar α] in
theorem move_redirect {p : Parameter α} (hd : d.Coherent) (hid : d.input.contains id)
    (hremoved : d.isRemoved id = false) (ht : d.output.node? target = some (.parameter p))
    (hfree : d.Unbound target) {r : Unit} (hr : Runs (redirect id target) d r d') :
    Move (.redirect id target) d d' := by
  have hnull := Generation.ne_null_of_contains hid
  unfold redirect markDirty at hr
  rw [runs_get_bind] at hr
  simp only [Generation.contains_of_node? ht, Bool.not_true, Bool.false_eq_true, if_false] at hr
  rw [runs_modify_bind] at hr
  obtain ⟨q, d₀, hprov, hr₀⟩ := runs_bind.1 hr
  obtain ⟨hq, rfl⟩ := of_runs_inputProvenance hprov
  have hcites : d.input.Cites [id] q := cites_of_provenance? hq
  rw [runs_get_bind, runs_modify_bind] at hr₀
  refine .redirect (q := q) hid hremoved ht hfree hcites ?_
  cases hmap : d.mapping.get? id with
  | none =>
    simp only [hmap] at hr₀
    obtain ⟨-, rfl⟩ := runs_pure.1 hr₀
    constructor
    case input => rfl
    case node? =>
      intro j
      have hmap' : ∀ n : Node α, n.withOperands (n.operands.map (d.diverted id target)) = n := by
        intro n
        have hid' : n.operands.map (d.diverted id target) = n.operands :=
          (List.map_congr_left fun o _ => by simp [diverted, hmap]).trans (List.map_id _)
        rw [hid', Node.withOperands_operands]
      simp [hmap, hmap', Generation.node?_addProvenance]
    case provenance? =>
      intro j
      simp [hmap, Generation.provenance?_addProvenance]
    case origins => rfl
    case issued => exact fun o ho => ho.addProvenance
    case linked => exact hd.linked.addProvenance
    case mapping => exact NodeMap.get?_insert_of_ne hnull
    case removed => rfl
    case dirty => rfl
    case created => rfl
  | some old =>
    have hne : old ≠ target := fun h => hfree id (h ▸ hmap)
    have hcont : (d.output.addProvenance target q).contains old := by
      obtain ⟨n, hn⟩ := Generation.contains_iff.1 (hd.mapped id old hmap).2
      exact Generation.contains_of_node? ((Generation.node?_addProvenance old).trans hn)
    simp only [hmap, runs_get_bind, hne, decide_false, Bool.false_or, hcont, Bool.not_true,
      Bool.false_eq_true, if_false] at hr₀
    obtain ⟨_, d₁, hloop, hr₁⟩ := runs_bind.1 hr₀
    have hlinked : (d.output.addProvenance target q).Linked := hd.linked.addProvenance
    obtain ⟨o', rfl, hdiv⟩ := diverts_of_runs (fun u hu => by
      obtain ⟨e, he, -⟩ := Generation.mem_operands_iff.1 ((hlinked.users old u).1 hu)
      exact ⟨e, Generation.expression?_eq.1 he⟩) (Generation.Diverts.start hlinked) hloop
    have hD : ∀ u ∈ (d.output.addProvenance target q).users old,
        u ∈ (∅ ∪ { u | u ∈ (d.output.addProvenance target q).users old } : Set NodeId) :=
      fun u hu => Or.inr hu
    have husers := hdiv.users_eq hlinked hne hD
    have hnode := hdiv.node?_eq hlinked hD
    have hold : o'.contains old := by
      obtain ⟨n, hn⟩ := Generation.contains_iff.1 hcont
      exact Generation.contains_of_node? (by rw [hnode, hn]; rfl)
    have hrem := Generation.removed_of_remove hold husers
    have hinsert := (NodeMap.binds_insert hnull).gone hd.injective hmap hne
    rw [runs_modify.1 hr₁]
    dsimp only
    rw [removeOutput_eq hold husers hinsert]
    constructor
    case input => rfl
    case node? =>
      intro j
      refine (hrem.node? j).trans ?_
      have hdiverted : d.diverted id target = fun o => if o = old then target else o := by
        funext o
        simp only [diverted, hmap, Option.some.injEq, eq_comm (a := old)]
      rw [hmap, hnode, Generation.node?_addProvenance, hdiverted]
      simp only [Option.some.injEq, eq_comm (a := old)]
    case provenance? =>
      intro j
      refine (Generation.provenance?_remove j).trans ?_
      rw [Generation.remove_fst hold husers, hdiv.provenance?, Generation.provenance?_addProvenance,
        hmap]
      simp only [List.mem_singleton, Option.some.injEq, eq_comm (a := old)]
    case origins => exact hdiv.origins
    case issued => exact fun o ho => hrem.issued o (hdiv.issued o ho.addProvenance)
    case linked => exact hrem.linked husers hdiv.linked
    case mapping =>
      intro i
      dsimp only
      rw [NodeMap.insert_insert]
      exact NodeMap.get?_insert_of_ne hnull i
    case removed => rfl
    case dirty => rfl
    case created => rfl

/-- Every input node has an output node or is removed. -/
def Closed (d : Draft α) : Prop :=
  ∀ i, d.input.contains i → (∃ j, d.mapping.get? i = some j) ∨ d.isRemoved i

theorem runs_close {rev : Revision α} : Runs close d rev d' ↔
    Runs (d.input.order.forM fun id => discard (copy id)) d ⟨⟩ d' ∧
      rev = ⟨d'.output, d'.dirty, d'.mapping⟩ := by
  unfold close
  rw [runs_get_bind, runs_bind]
  simp only [runs_get_bind, runs_pure]
  constructor
  · rintro ⟨_, d₁, hloop, rfl, rfl⟩
    exact ⟨hloop, rfl⟩
  · rintro ⟨hloop, rfl⟩
    exact ⟨⟨⟩, d', hloop, rfl, rfl⟩

/-- Closing a draft only copies. -/
theorem moves_close {g : Generation α} (hg : g.Acyclic) (hd : d.Coherent) (hin : d.input = g)
    {rev : Revision α} (hr : Runs close d rev d') :
    Moves (fun _ a => ∃ i, a = .copy i ∨ a = .drop i) d d' ∧ d'.Closed ∧
      rev = ⟨d'.output, d'.dirty, d'.mapping⟩ := by
  have hadds : ∀ {a : Act α}, (∃ i, a = .copy i ∨ a = .drop i) → a.Adds := by
    rintro a ⟨i, rfl | rfl⟩ <;> trivial
  obtain ⟨hloop, rfl⟩ := runs_close.1 hr
  obtain ⟨hmoves, hall⟩ := runs_forM (l := d.input.order) (d := d)
    (P := fun done d' => Moves (fun _ a => ∃ i, a = .copy i ∨ a = .drop i) d d' ∧
      ∀ i ∈ done, (∃ j, d'.mapping.get? i = some j) ∨ d'.isRemoved i)
    (fun done x rest _ d₁ d₂ _ ⟨h₁, hall⟩ hr => by
      obtain ⟨r, hr⟩ := runs_discard.1 hr
      obtain ⟨h₂, hsome, hnone⟩ := moves_copy hg (h₁.coherent hd) (h₁.input.trans hin) hr
      have hret := h₂.retains fun _ _ ha => ha.adds
      refine ⟨h₁.trans (h₂.mono fun _ _ ha => ha.copies), fun i hi => ?_⟩
      rcases List.mem_append.1 hi with hi | hi
      · exact (hall i hi).imp (fun ⟨j, hj⟩ => ⟨j, hret.mapping i j hj⟩) (hret.removed i)
      · rw [List.mem_singleton.1 hi]
        cases r with
        | none => exact Or.inr (hnone rfl)
        | some j => exact Or.inl ⟨j, hsome j rfl⟩)
    (List.nil_append _) ⟨.refl d, by simp⟩ hloop
  refine ⟨hmoves, fun i hi => hall i ?_, rfl⟩
  rw [hmoves.input] at hi
  exact NodeMap.mem_keys.2 hi

end Draft

end ParameterSolver
