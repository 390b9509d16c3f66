import ParameterSolver.Proofs.Draft.Advances

/-! Changes of input nodes. On a sturdy draft they do not fail and leave it sturdy, also those that
remove a node with everything that uses it. -/

namespace ParameterSolver.Draft

variable {α : Type} [Scalar α] {height level : NodeId → ℕ} {T : Set NodeId} {d d' : Draft α}
  {g o' : Generation α} {id j : NodeId} {n : Node α} {p : Provenance}

/-- Content for an input node that is not done with, in the place of its copy or in a new node. -/
theorem Sturdy.emit (h : Sturdy g height T level d) (hid : g.contains id) (hT : id ∉ T)
    (hremoved : d.isRemoved id = false) (hn : n.Proper) (hp : ∃ o, o ∈ p)
    (hops : ∀ o ∈ n.operands, d.output.contains o ∧ level o < height id)
    (hpar : ∀ p, g.node? id = some (.parameter p) → ∃ p', n = .parameter p')
    (hforeign : ∀ e, n = .expression e → e.op.isCanonical = false → g.Foreign id) :
    ∃ k level' d', Runs (Draft.emit id n p) d k d' ∧ Sturdy g height T level' d' ∧ d'.dirty ∧
      d'.removed = d.removed ∧ d'.mapping.get? id = some k ∧ d'.output.node? k = some n := by
  have h₁ := h.dirtied
  cases hmap : d.mapping.get? id with
  | some j =>
    obtain ⟨o', hrep, hr, ho'⟩ := h.orderly.replace (h.mapped id j hmap).2 hn hp
      fun o ho => (hops o ho).1
    refine ⟨j, level, { d with dirty := true, output := o' }, ?_, ?_, rfl, rfl, hmap,
      hr.node?_self⟩
    · unfold Draft.emit markDirty
      rw [runs_modify_bind, runs_get_bind, h₁.mapped?_eq, hmap]
      dsimp only
      rw [hrep]
      exact runs_set_bind.2 (runs_pure.2 ⟨rfl, rfl⟩)
    · refine h₁.replace hr ho' (fun o ho => Or.inl ?_) (fun i p hi hp => ?_) fun e he hc =>
        ⟨id, hT, hforeign e he hc, hmap⟩
      · rw [h.high id j hmap hT]
        exact (hops o ho).2
      · rw [h.injective i id j hi hmap] at hp
        exact hpar p hp
  | none =>
    obtain ⟨j, o', hins, hi, ho'⟩ := h₁.orderly.insert hn hp fun o ho => (hops o ho).1
    have h₂ := h₁.insertFor hi ho' (fun o ho => (hops o ho).2) hid hremoved hmap hpar
      fun e he hc => ⟨hT, hforeign e he hc⟩
    refine ⟨j, _, _, ?_, h₂, rfl, rfl, ?_, hi.node?_self⟩
    · unfold Draft.emit markDirty
      rw [runs_modify_bind, runs_get_bind, h₁.mapped?_eq, hmap]
      exact runs_bind.2 ⟨j, _, runs_insert_of_ok hins,
        runs_modify_bind.2 (runs_pure.2 ⟨rfl, rfl⟩)⟩
    · exact NodeMap.get?_insert_self (Generation.ne_null_of_contains hid)

theorem Sturdy.replaceLeaf (hg : g.Orderly) (h : Sturdy g height T level d)
    (hid : g.contains id) (hT : id ∉ T) (hremoved : d.isRemoved id = false) (s : ValueSet α)
    (u : Option (MeasureUnit α)) (hpar : ∀ p, g.node? id ≠ some (.parameter p)) :
    ∃ k level' d', Runs (Draft.replaceLeaf id (.literal s u)) d k d' ∧
      Sturdy g height T level' d' ∧ d'.dirty ∧ d'.removed = d.removed := by
  obtain ⟨p, hp, hprov⟩ := runs_inputProvenance hg h.input hid
  obtain ⟨k, level', d', hr, h', hdirty, hrem, -⟩ := h.emit hid hT hremoved
    (Node.proper_literal s u) hp (by simp [Node.operands]) (fun p hp => absurd hp (hpar p))
    (by simp)
  exact ⟨k, level', d', runs_bind.2 ⟨p, d, hprov, hr⟩, h', hdirty, hrem⟩

/-- Copying a parameter removes nothing. -/
theorem removed_of_copy {q : Parameter α} {r : Option NodeId}
    (hn : d.input.node? id = some (.parameter q)) (hr : Runs (Draft.copy id) d r d') :
    d'.removed = d.removed := by
  unfold Draft.copy at hr
  rw [runs_get_bind, Draft.copyWith, runs_get_bind] at hr
  split_ifs at hr
  · rw [(runs_pure.1 hr).2]
  · split at hr
    · rw [(runs_pure.1 hr).2]
    · obtain ⟨entry, hentry, hnode⟩ := Option.map_eq_some_iff.1 hn
      rw [hentry] at hr
      dsimp only at hr
      rw [hnode] at hr
      unfold Draft.insertCopy at hr
      obtain ⟨out, d₁, hins, hr₁⟩ := runs_bind.1 hr
      unfold Draft.insert at hins
      rw [runs_get_bind] at hins
      split at hins
      · rw [runs_set_bind] at hins
        rw [(runs_pure.1 hins).2] at hr₁
        rw [runs_modify_bind] at hr₁
        rw [(runs_pure.1 hr₁).2]
      · exact absurd hins runs_throw

/-- A change of a parameter that is not removed, by where the parameter is found. -/
theorem runs_editParameter_iff {change : Parameter α → Parameter α} {m : Option NodeId}
    {q : Parameter α} {r : Option NodeId} (hremoved : ¬ d.isRemoved id) (hm : d.mapped? id = m)
    (hq : m.elim (d.input.parameter? id) d.output.parameter? = some q) :
    Runs (Draft.editParameter id change) d r d' ↔
      Runs (if change q == q then Draft.copy id else do
        let provenance ← (m.bind d.output.provenance?).elim (Draft.inputProvenance id) pure
        some <$> Draft.emit id (.parameter (change q)) provenance) d r d' := by
  unfold Draft.editParameter
  rw [runs_get_bind, if_neg hremoved, hm]
  cases m with
  | none =>
    rw [Option.elim_none] at hq
    simp only [hq]
    rfl
  | some j =>
    rw [Option.elim_some] at hq
    simp only [hq, Option.bind_some]
    cases d.output.provenance? j <;> rfl

theorem Sturdy.editParameter (hg : g.Orderly) (hh : g.Heights height)
    (h : Sturdy g height T level d) {q : Parameter α} (hn : g.node? id = some (.parameter q))
    (hT : id ∉ T) (change : Parameter α → Parameter α) :
    ∃ r level' d', Runs (Draft.editParameter id change) d r d' ∧ Sturdy g height T level' d' ∧
      d'.removed = d.removed ∧ (d.dirty → d'.dirty) ∧ Lands (height id + 1) r level' d' := by
  have hid := Generation.contains_of_node? hn
  by_cases hremoved : d.isRemoved id
  · refine ⟨none, level, d, ?_, h, rfl, fun h => h, by simp [Lands]⟩
    unfold Draft.editParameter
    rw [runs_get_bind, if_pos hremoved]
    exact runs_pure.2 ⟨rfl, rfl⟩
  obtain ⟨q', hq'⟩ : ∃ q', (d.mapping.get? id).elim (d.input.parameter? id) d.output.parameter?
      = some q' := by
    cases hmap : d.mapping.get? id with
    | none => exact ⟨q, by simp [h.input, Generation.parameter?, hn, Node.parameter?]⟩
    | some j =>
      obtain ⟨p', hp'⟩ := h.parameters id j q hmap hn
      exact ⟨p', by simp [Generation.parameter?, hp', Node.parameter?]⟩
  simp only [runs_editParameter_iff hremoved (h.mapped?_eq id) hq']
  by_cases hsame : change q' == q'
  · obtain ⟨r, level', d', hr, h', hgrows, hlands⟩ := h.copy hg hh hid
    refine ⟨r, level', d', ?_, h', removed_of_copy (by rw [h.input, hn]) hr, hgrows.dirty, hlands⟩
    rwa [if_pos hsame]
  · obtain ⟨p, hp, hprov⟩ : ∃ p, (∃ o, o ∈ p) ∧
        Runs (((d.mapping.get? id).bind d.output.provenance?).elim (Draft.inputProvenance id) pure)
          d p d := by
      cases hmap : d.mapping.get? id with
      | none => exact runs_inputProvenance hg h.input hid
      | some j =>
        obtain ⟨p, hp, ho⟩ := h.orderly.origin (h.mapped id j hmap).2
        rw [Option.bind_some, hp]
        exact ⟨p, ho, runs_pure.2 ⟨rfl, rfl⟩⟩
    obtain ⟨k, level', d', hr, h', hdirty, hrem, hk, -⟩ := h.emit hid hT
      (Bool.eq_false_iff.2 hremoved) (Node.proper_parameter (change q')) hp
      (by simp [Node.operands]) (fun _ _ => ⟨_, rfl⟩) (by simp)
    refine ⟨some k, level', d', ?_, h', hrem, fun _ => hdirty, ?_⟩
    · rw [if_neg hsame]
      exact runs_bind.2 ⟨p, d, hprov, runs_map.2 ⟨k, hr, rfl⟩⟩
    · rintro _ ⟨⟩
      exact ⟨(h'.mapped id k hk).2, Nat.lt_succ_of_le (h'.low id k hk)⟩

/-- Removing an output node takes out its users as well, and removes the input nodes behind them. -/
theorem clears_removeOutput (h : d.output.Orderly) (j : NodeId) :
    Clears (d.output.remove j).1 d (d.removeOutput j) := by
  constructor
  case input => rfl
  case output => exact (Generation.cleared_of_remove d.output j).1
  case orderly => exact h.remove j
  case mapping => exact get?_removeOutput j
  case removed =>
    intro i hi
    refine ((isRemoved_removeOutput j i).1 hi).imp_right ?_
    rintro ⟨k, hgone, hk⟩
    refine Option.eq_none_iff_forall_ne_some.2 fun k' hk' => ?_
    obtain ⟨hk'', hgone'⟩ := (get?_removeOutput j i k').1 hk'
    cases hk.symm.trans hk''
    exact hgone' hgone
  case mono => exact fun i hi => (isRemoved_removeOutput j i).2 (Or.inl hi)
  case stale => exact fun i k hk hi => (isRemoved_removeOutput j i).2 (Or.inr ⟨k, hk, hi⟩)
  case created => rfl

theorem Sturdy.remove (h : Sturdy g height T level d) (hid : g.contains id) :
    ∃ d', Runs (Draft.remove id) d ⟨⟩ d' ∧ Sturdy g height T level d' ∧ d'.dirty ∧
      d'.isRemoved id := by
  have hnull := Generation.ne_null_of_contains hid
  have hinsert : ∀ i, (d.removed.insert id ()).contains i ↔ d.isRemoved i ∨ i = id := fun i =>
    NodeMap.contains_insert hnull
  suffices hclears : ∃ gone d', Runs (Draft.remove id) d ⟨⟩ d' ∧ Clears gone d d' ∧ d'.dirty ∧
      d'.isRemoved id by
    obtain ⟨gone, d', hr, hclears, hdirty, hrem⟩ := hclears
    exact ⟨d', hr, h.clears hclears hdirty, hdirty, hrem⟩
  unfold Draft.remove markDirty markRemoved
  simp only [runs_modify_bind, runs_get_bind]
  cases hmap : d.mapping.get? id with
  | none =>
    refine ⟨[], _, runs_modify.2 rfl, ?_, rfl, (hinsert id).2 (Or.inr rfl)⟩
    refine ⟨rfl, ⟨fun _ h => h, fun j => by simp, fun o u => by simp, by simp⟩, h.orderly,
      fun i j => by simp, fun i hi => ?_, fun i hi => (hinsert i).2 (Or.inl hi), by simp, rfl⟩
    rcases (hinsert i).1 hi with hi | rfl
    · exact Or.inl hi
    · exact Or.inr hmap
  | some out =>
    have hclears := clears_removeOutput (d := { d with
      dirty := true, removed := d.removed.insert id (), mapping := d.mapping.erase id })
      h.orderly out
    have hgone := (Generation.cleared_of_remove d.output out).2 (h.mapped id out hmap).2
    have herase : ∀ i, (d.mapping.erase id).get? i = if i = id then none else d.mapping.get? i :=
      NodeMap.get?_erase_of_ne hnull
    refine ⟨_, _, runs_modify.2 rfl, ⟨hclears.input, hclears.output, hclears.orderly, fun i k => ?_,
      fun i hi => ?_, fun i hi => hclears.mono i ((hinsert i).2 (Or.inl hi)), fun i k hk hi => ?_,
      hclears.created⟩, rfl, hclears.mono id ((hinsert id).2 (Or.inr rfl))⟩
    · refine (hclears.mapping i k).trans ?_
      change (d.mapping.erase id).get? i = some k ∧ _ ↔ _
      rw [herase]
      by_cases hi : i = id
      · rw [if_pos hi, hi, hmap]
        refine iff_of_false (by simp) ?_
        rintro ⟨⟨⟩, hk⟩
        exact hk hgone
      · rw [if_neg hi]
    · rcases hclears.removed i hi with hi | hi
      · rcases (hinsert i).1 hi with hi | rfl
        · exact Or.inl hi
        · refine Or.inr (Option.eq_none_iff_forall_ne_some.2 fun k hk => ?_)
          have hk' := ((hclears.mapping i k).1 hk).1
          change (d.mapping.erase i).get? i = some k at hk'
          rw [herase, if_pos rfl] at hk'
          cases hk'
      · exact Or.inr hi
    · by_cases hid' : i = id
      · exact hclears.mono i ((hinsert i).2 (Or.inr hid'))
      · refine hclears.stale i k hk ?_
        change (d.mapping.erase id).get? i = some k
        rw [herase, if_neg hid', hi]

section EditExpression

variable {e : Expression} {edit : ExpressionEdit α} {op : Operator} {l : List (Operand α)}

/-- A change that is one. The expression is written anew, or removed if an operand is gone. -/
theorem Sturdy.rewriteExpression (hg : g.Orderly) (hh : g.Heights height)
    (h : Sturdy g height T level d) (hn : g.node? id = some (.expression e)) (hT : id ∉ T)
    (hremoved : d.isRemoved id = false) (hop : edit.op.getD e.op = op)
    (hl : edit.operands.getD (e.operands.map .input) = l)
    (hkind : op.isCanonical ∨ op = e.op)
    (hbelow : ∀ a ∈ l, a.Below g height (height id) level d)
    (harity : op.arity.accepts l.length)
    (hnew : (op = e.op && edit.asserted.getD e.asserted = e.asserted
      && edit.operands.all (isInputs · e.operands)) = false) :
    ∃ r level' d', Runs (Draft.editExpression id edit) d r d' ∧ Sturdy g height T level' d' ∧
      d'.dirty ∧ ((∃ k e', r = some k ∧ d'.mapping.get? id = some k ∧
        d'.output.node? k = some (.expression e') ∧ e'.op = op) ∨ r = none ∧ d'.isRemoved id) := by
  have hid := Generation.contains_of_node? hn
  have he : d.input.expression? id = some e := by
    rw [h.input, Generation.expression?, hn]
    rfl
  obtain ⟨p, hp, hprov⟩ := runs_inputProvenance hg h.input hid
  obtain ⟨r, level₁, d₁, hr, h₁, hgrows, hres⟩ := h.resolveAll hg hh hp (hh.pos id hid) hbelow
  have hremoved₁ : d₁.isRemoved id = false := by rw [hgrows.removed id le_rfl, hremoved]
  have hrun : ∀ {r' : Option NodeId} {d' : Draft α},
      Runs (r.elim (Draft.remove id >>= fun _ => pure none) fun operands =>
        some <$> Draft.emit id (.expression ⟨op, operands, edit.asserted.getD e.asserted⟩) p) d₁ r' d' →
      Runs (Draft.editExpression id edit) d r' d' := by
    intro r' d' hr'
    unfold Draft.editExpression
    rw [runs_get_bind]
    simp only [hremoved, Bool.false_eq_true, if_false, he, hop, hl]
    rw [if_neg (by rw [hnew]; simp), runs_bind]
    refine ⟨p, d, hprov, runs_bind.2 ⟨r, d₁, hr, ?_⟩⟩
    cases r <;> exact hr'
  cases r with
  | none =>
    obtain ⟨d', hr', h', hdirty, hrem⟩ := h₁.remove hid
    exact ⟨none, level₁, d', hrun (runs_bind.2 ⟨⟨⟩, d', hr', runs_pure.2 ⟨rfl, rfl⟩⟩), h', hdirty,
      Or.inr ⟨rfl, hrem⟩⟩
  | some js =>
    obtain ⟨hlen, hjs⟩ := hres js rfl
    have hproper : Node.Proper (α := α) (.expression ⟨op, js, edit.asserted.getD e.asserted⟩) :=
      Node.proper_expression (by rw [hlen]; exact harity)
    obtain ⟨k, level', d', hr', h', hdirty, -, hk, hnode⟩ := h₁.emit hid hT hremoved₁ hproper hp hjs
      (fun p hp => by rw [hn] at hp; cases hp) fun _ he hc => by
        cases he
        rcases hkind with hkind | rfl
        · simp [hkind] at hc
        · exact ⟨e, hn, hc⟩
    exact ⟨some k, level', d', hrun (runs_map.2 ⟨k, hr', rfl⟩), h', hdirty,
      Or.inl ⟨k, _, rfl, hk, hnode, rfl⟩⟩

theorem Sturdy.editExpression (hg : g.Orderly) (hh : g.Heights height)
    (h : Sturdy g height T level d) (hn : g.node? id = some (.expression e)) (hT : id ∉ T)
    (hop : edit.op.getD e.op = op) (hl : edit.operands.getD (e.operands.map .input) = l)
    (hkind : op.isCanonical ∨ op = e.op)
    (hbelow : ∀ a ∈ l, a.Below g height (height id) level d)
    (harity : op.arity.accepts l.length) :
    ∃ r level' d', Runs (Draft.editExpression id edit) d r d' ∧ Sturdy g height T level' d' ∧
      (d.dirty → d'.dirty) ∧ Lands (height id + 1) r level' d' := by
  have hid := Generation.contains_of_node? hn
  by_cases hremoved : d.isRemoved id
  · refine ⟨none, level, d, ?_, h, fun h => h, by simp [Lands]⟩
    unfold Draft.editExpression
    rw [runs_get_bind, if_pos hremoved]
    exact runs_pure.2 ⟨rfl, rfl⟩
  by_cases hnew : (op = e.op && edit.asserted.getD e.asserted = e.asserted
      && edit.operands.all (isInputs · e.operands)) = true
  · obtain ⟨r, level', d', hr, h', hgrows, hlands⟩ := h.copy hg hh hid
    refine ⟨r, level', d', ?_, h', hgrows.dirty, hlands⟩
    have he : d.input.expression? id = some e := by
      rw [h.input, Generation.expression?, hn]
      rfl
    unfold Draft.editExpression
    rw [runs_get_bind]
    simp only [hremoved, Bool.false_eq_true, if_false, he, hop]
    rwa [if_pos hnew]
  · obtain ⟨r, level', d', hr, h', hdirty, hcases⟩ := h.rewriteExpression hg hh hn hT
      (Bool.eq_false_iff.2 hremoved) hop hl hkind hbelow harity (Bool.eq_false_iff.2 hnew)
    refine ⟨r, level', d', hr, h', fun _ => hdirty, fun k hk => ?_⟩
    rcases hcases with ⟨k', e', rfl, hk', -⟩ | ⟨rfl, -⟩
    · cases hk
      exact ⟨(h'.mapped id k hk').2, Nat.lt_succ_of_le (h'.low id k hk')⟩
    · cases hk

end EditExpression

theorem Sturdy.absorb (hg : g.Orderly) (h : Sturdy g height T level d) {sources : List NodeId}
    (hne : sources ≠ []) (hs : ∀ id ∈ sources, g.contains id) (out : NodeId) :
    ∃ d', Runs (Draft.absorb out sources) d ⟨⟩ d' ∧ Sturdy g height T level d' ∧
      (d.dirty → d'.dirty) := by
  obtain ⟨p, -, hprov⟩ := runs_provenanceOf hg h.input hne hs
  exact ⟨_, runs_bind.2 ⟨p, d, hprov, runs_modify.2 rfl⟩, h.addProvenance out p, fun h => h⟩

section Redirect

variable {old target u : NodeId} {e : Expression} {q : Parameter α}

/-- One user comes to use `target`, which lies at the bottom, in the place of `old`. -/
theorem Sturdy.rewire (h : Sturdy g height T level d) (hne : old ≠ target)
    (hold : 0 < level old) (ht : d.output.node? target = some (.parameter q))
    (hlevel : level target = 0) (hu : u ∈ d.output.users old) :
    ∃ o', (∀ m, Runs (Draft.rewire old target u) { d with mapping := m } ⟨⟩
        { d with mapping := m, output := o' }) ∧
      Sturdy g height T level { d with output := o' } ∧
      o'.node? target = some (.parameter q) ∧
      (∀ x, x ∈ o'.users old ↔ x ∈ d.output.users old ∧ x ≠ u) := by
  have hop := (h.orderly.users old u).1 hu
  obtain ⟨n, hn⟩ := Generation.node?_of_mem_operands hop
  obtain ⟨entry, hentry, rfl⟩ := Option.map_eq_some_iff.1 hn
  obtain ⟨node, provenance, users⟩ := entry
  dsimp only at hn
  rw [Generation.operands_of_node? hn] at hop
  cases node with
  | expression e =>
    have hproper := h.orderly.entries u _ hentry
    have hops : ∀ o ∈ e.operands.map (fun o => if o = old then target else o),
        (d.output.contains o ∧ (level o < level u ∨ level o = level u ∧ o.rank < u.rank)) ∧
          o ≠ old := by
      intro o ho
      obtain ⟨i, hi, rfl⟩ := List.mem_map.1 ho
      have hdesc := h.descends u
      rw [Generation.operands_of_node? hn] at hdesc
      split_ifs with hiold
      · have := hdesc old (hiold ▸ hi)
        refine ⟨⟨Generation.contains_of_node? ht, Or.inl ?_⟩, hne.symm⟩
        omega
      · exact ⟨⟨h.orderly.contains hn hi, hdesc i hi⟩, hiold⟩
    have hproper' : Node.Proper (α := α) (.expression
        { e with operands := e.operands.map fun o => if o = old then target else o }) := by
      refine Node.proper_expression ?_
      rw [List.length_map]
      exact hproper.node.arity e rfl
    obtain ⟨o', hrep, hr, ho'⟩ := h.orderly.replace (Generation.contains_of_node? hn) hproper'
      hproper.origin fun o ho => (hops o ho).1.1
    have hut : u ≠ target := by
      rintro rfl
      rw [hn] at ht
      cases ht
    refine ⟨o', fun m => ?_, ?_, ?_, fun x => ?_⟩
    · unfold Draft.rewire
      rw [runs_get_bind]
      dsimp only
      rw [hentry]
      dsimp only
      rw [hrep]
      exact runs_set.2 rfl
    · refine h.replace hr ho' (fun o ho => (hops o ho).1.2) (fun i p hi hp => ?_) fun e' he' hc => ?_
      · obtain ⟨p', hp'⟩ := h.parameters i u p hi hp
        rw [hn] at hp'
        cases hp'
      · cases he'
        exact h.canonical u e hn hc
    · rw [hr.node?_of_ne hut.symm, ht]
    · have hgone : old ∉ e.operands.map fun o => if o = old then target else o :=
        fun hmem => (hops old hmem).2 rfl
      rw [hr.users, Generation.operands_of_node? hn]
      simp only [Node.operands, hgone, and_false, or_false]
      have hop' : old ∈ e.operands := hop
      simp [hop']
  | parameter _ | literal _ _ | constant _ => cases hop

/-- All users come to use `target`. The induction is on the users that still use `old`. -/
theorem Sturdy.rewireAll (h : Sturdy g height T level d) (hne : old ≠ target)
    (hold : 0 < level old) (ht : d.output.node? target = some (.parameter q))
    (hlevel : level target = 0) {us : List NodeId} (hnd : us.Nodup)
    (hus : ∀ x, x ∈ us ↔ x ∈ d.output.users old) :
    ∃ o', (∀ m, Runs (us.forM (Draft.rewire old target)) { d with mapping := m } ⟨⟩
        { d with mapping := m, output := o' }) ∧
      Sturdy g height T level { d with output := o' } ∧
      o'.node? target = some (.parameter q) ∧ o'.users old = [] := by
  induction us generalizing d with
  | nil =>
    refine ⟨d.output, fun m => runs_pure.2 ⟨rfl, rfl⟩, h, ht, List.eq_nil_iff_forall_not_mem.2 fun x hx => ?_⟩
    simpa using (hus x).2 hx
  | cons u us ih =>
    obtain ⟨hu, hnd⟩ := List.nodup_cons.1 hnd
    obtain ⟨o₁, hr₁, h₁, ht₁, husers⟩ := h.rewire hne hold ht hlevel ((hus u).1 (by simp))
    obtain ⟨o₂, hr₂, h₂, ht₂, hnil⟩ := ih h₁ ht₁ hnd fun x => by
      rw [husers, ← hus, List.mem_cons]
      constructor
      · exact fun hx => ⟨Or.inr hx, fun hxu => hu (hxu ▸ hx)⟩
      · exact fun hx => hx.1.resolve_left hx.2
    refine ⟨o₂, fun m => ?_, h₂, ht₂, hnil⟩
    rw [List.forM_eq_forM, List.forM_cons]
    exact runs_bind.2 ⟨⟨⟩, _, hr₁ m, hr₂ m⟩

/-- The parameter `target` stands for an input node from now on, whose output node is gone. -/
theorem Sturdy.rebind (h : Sturdy g height T level d) (hid : g.contains id)
    (hremoved : d.isRemoved id = false) (ht : d.output.node? target = some (.parameter q))
    (hspare : ∀ i, d.mapping.get? i ≠ some target) (hlevel : level target = 0) (ho' : o'.Orderly)
    (hissued : ∀ o, d.output.Issued o → o'.Issued o)
    (hnode : ∀ j, o'.node? j = if d.mapping.get? id = some j then none else d.output.node? j) :
    Sturdy g height (T ∪ {id}) level
      { d with output := o', mapping := d.mapping.insert id target } := by
  have hbinds : d.mapping.Binds id target (d.mapping.insert id target) :=
    NodeMap.binds_insert (Generation.ne_null_of_contains hid)
  have hsome : ∀ j n, o'.node? j = some n →
      d.output.node? j = some n ∧ d.mapping.get? id ≠ some j := by
    intro j n hj
    rw [hnode] at hj
    split_ifs at hj with hid'
    exact ⟨hj, hid'⟩
  have ht' : o'.node? target = some (.parameter q) := by rw [hnode, if_neg (hspare id), ht]
  constructor
  case input => exact h.input
  case orderly => exact ho'
  case mapped =>
    intro i k hk
    rcases hbinds.cases_of_injective h.injective hk with ⟨rfl, rfl⟩ | ⟨-, hk, hne⟩
    · exact ⟨hid, Generation.contains_of_node? ht'⟩
    · obtain ⟨n, hn⟩ := Generation.contains_iff.1 (h.mapped i k hk).2
      exact ⟨(h.mapped i k hk).1,
        Generation.contains_of_node? (by rw [hnode, if_neg hne, hn] : o'.node? k = some n)⟩
  case kept =>
    intro i k hk
    rcases hbinds.cases hk with ⟨rfl, rfl⟩ | ⟨-, hk⟩
    · exact hremoved
    · exact h.kept i k hk
  case injective =>
    exact fun i i' k hk hk' => hbinds.injective hspare h.injective hk hk'
  case low =>
    intro i k hk
    rcases hbinds.cases hk with ⟨rfl, rfl⟩ | ⟨-, hk⟩
    · rw [hlevel]
      exact Nat.zero_le _
    · exact h.low i k hk
  case high =>
    intro i k hk hi
    rcases hbinds.cases hk with ⟨rfl, -⟩ | ⟨-, hk⟩
    · exact absurd (Or.inr rfl) hi
    · exact h.high i k hk fun hiT => hi (Or.inl hiT)
  case descends =>
    intro k o ho
    obtain ⟨n, hn⟩ := Generation.node?_of_mem_operands ho
    rw [Generation.operands_congr (hn.trans (hsome k n hn).1.symm)] at ho
    exact h.descends k o ho
  case parameters =>
    intro i k p hk hp
    rcases hbinds.cases_of_injective h.injective hk with ⟨rfl, rfl⟩ | ⟨-, hk, hne⟩
    · exact ⟨q, ht'⟩
    · obtain ⟨p', hp'⟩ := h.parameters i k p hk hp
      exact ⟨p', by rw [hnode, if_neg hne, hp']⟩
  case created =>
    intro e c hc
    obtain ⟨hi, hops, hlt⟩ := h.created e c hc
    exact ⟨hissued c hi, fun o ho => hissued o (hops o ho), hlt⟩
  case canonical =>
    intro k e hk hc
    obtain ⟨hk', hne⟩ := hsome k _ hk
    obtain ⟨i, hiT, hforeign, hi⟩ := h.canonical k e hk' hc
    have hiid : i ≠ id := fun heq => hne (heq ▸ hi)
    refine ⟨i, ?_, hforeign, ?_⟩
    · rintro (hiT' | hi')
      · exact hiT hiT'
      · exact hiid hi'
    · exact (hbinds.of_ne hiid).trans hi
  case done =>
    rintro i (hiT | rfl) hforeign
    · exact (h.done i hiT hforeign).imp_left hbinds.exists_get?
    · exact Or.inl ⟨target, hbinds.self⟩
  case clean => exact h.clean

/-- A node gives way to a parameter at the bottom. -/
theorem Sturdy.redirect (hg : g.Orderly) (hh : g.Heights height) (h : Sturdy g height T level d)
    (hid : g.contains id) (hT : id ∉ T) (hremoved : d.isRemoved id = false)
    (ht : d.output.node? target = some (.parameter q))
    (hspare : ∀ i, d.mapping.get? i ≠ some target) (hlevel : level target = 0) :
    ∃ d', Runs (Draft.redirect id target) d ⟨⟩ d' ∧ Sturdy g height (T ∪ {id}) level d' ∧
      d'.dirty := by
  obtain ⟨p, -, hprov⟩ := runs_inputProvenance hg h.dirtied.input hid
  have h₁ : Sturdy g height T level
      { d with dirty := true, output := d.output.addProvenance target p } :=
    (h.addProvenance target p).dirtied
  have ht₁ : (d.output.addProvenance target p).node? target = some (.parameter q) := by
    rw [Generation.node?_addProvenance, ht]
  have ht₀ := Generation.contains_of_node? ht
  cases hmap : d.mapping.get? id with
  | none =>
    refine ⟨_, runs_redirect_of_vacant ht₀ hprov fun old hold => ?_, ?_, rfl⟩
    · rw [hmap] at hold
      cases hold
    refine h₁.rebind hid hremoved ht₁ hspare hlevel h₁.orderly (fun _ h => h) fun j => ?_
    rw [hmap]
    rfl
  | some old =>
    have hne : old ≠ target := fun heq => hspare id (heq ▸ hmap)
    have hold := (h₁.mapped id old hmap).2
    have hpos : 0 < level old := by
      rw [h.high id old hmap hT]
      exact hh.pos id hid
    obtain ⟨o', hr, h₂, ht₂, husers⟩ := h₁.rewireAll hne hpos ht₁ hlevel
      (h₁.orderly.nodup_users old) fun _ => Iff.rfl
    have hold' : o'.contains old := (h₂.mapped id old hmap).2
    have hrem := Generation.removed_of_remove hold' husers
    have hinsert := (NodeMap.binds_insert (Generation.ne_null_of_contains hid)).gone h.injective hmap hne
    have hrewired := runs_redirect_of_rewired ht₀ hprov hmap hne
      ((Generation.contains_addProvenance old).symm.trans hold) (hr (d.mapping.insert id target))
    rw [removeOutput_eq hold' husers hinsert] at hrewired
    simp only [NodeMap.insert_insert] at hrewired
    refine ⟨_, hrewired, h₂.rebind hid hremoved ht₂ hspare hlevel (h₂.orderly.remove old)
      hrem.issued fun j => ?_, rfl⟩
    rw [hrem.node?, hmap]
    simp [eq_comm]

end Redirect

/-- Closing copies what is left. -/
theorem Sturdy.close (hg : g.Orderly) (hh : g.Heights height) (h : Sturdy g height T level d) :
    ∃ level' d', Runs Draft.close d ⟨d'.output, d'.dirty, d'.mapping⟩ d' ∧
      Sturdy g height T level' d' ∧ (d.dirty → d'.dirty) := by
  obtain ⟨d', hr, level', h', hdirty⟩ := exists_runs_forM (l := g.order)
    (f := fun id => discard (Draft.copy id)) (P := fun _ d' => ∃ level', Sturdy g height T level' d' ∧
      (d.dirty → d'.dirty)) (fun done id rest hl d₁ ⟨level₁, h₁, hdirty⟩ => by
        have hid : g.contains id := NodeMap.mem_keys.1 (hl ▸ by simp : id ∈ g.order)
        obtain ⟨r, level₂, d₂, hr, h₂, hgrows, -⟩ := h₁.copy hg hh hid
        exact ⟨d₂, runs_discard.2 ⟨r, hr⟩, level₂, h₂, fun hd => hgrows.dirty (hdirty hd)⟩)
    ⟨level, h, fun hd => hd⟩
  refine ⟨level', d', ?_, h', hdirty⟩
  unfold Draft.close
  rw [runs_get_bind, h.input]
  exact runs_bind.2 ⟨⟨⟩, d', hr, runs_get_bind.2 (runs_pure.2 ⟨rfl, rfl⟩)⟩

end ParameterSolver.Draft
