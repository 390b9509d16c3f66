import ParameterSolver.Proofs.Draft.Advances
import ParameterSolver.Proofs.Draft.Copying
import ParameterSolver.Proofs.Draft.Rewiring

/-! Expressions that are created again. What is remembered of an expression is the node it was created
as. The node is that expression for as long as it and its operands are there, unless a call writes
something else into it, which is possible once an input node has been redirected to it. Redirecting
itself does no harm, since an operand that is rewired goes. -/

namespace ParameterSolver

variable {α : Type}

/-- The call writes the output node of an input node. -/
def Call.Writes : Call α → NodeId → Prop
  | editParameter id _, i | editExpression id _, i | editOperands id _, i | replaceLeaf id _, i => i = id
  | _, _ => False

namespace Draft

variable {d d' d'' : Draft α} {id i j target : NodeId} {n : Node α} {q : Provenance}

/-- A remembered expression is what it was created as, while its operands are there. -/
structure Faithful (d : Draft α) : Prop where
  issued : ∀ e c, (e, c) ∈ d.created → d.output.Issued c ∧ ∀ o ∈ e.operands, d.output.Issued o
  node? : ∀ e c, (e, c) ∈ d.created → d.output.contains c → (∀ o ∈ e.operands, d.output.contains o) →
    d.output.node? c = some (.expression e)
  created : d.deduplicate = false → d.created = []

theorem faithful_start (g : Generation α) (deduplicate : Bool) (journal : Journal) :
    (start g deduplicate journal).Faithful := ⟨by simp [start], by simp [start], fun _ => rfl⟩

/-- Ids are not given again, and what is there was there before, unchanged in what is remembered. -/
theorem Faithful.keep (h : d.Faithful) (hc : d'.created = d.created)
    (hdedup : d'.deduplicate = d.deduplicate) (hissued : ∀ k, d.output.Issued k → d'.output.Issued k)
    (hcont : ∀ k, d.output.Issued k → d'.output.contains k → d.output.contains k)
    (hnode : ∀ e c, (e, c) ∈ d.created → d.output.node? c = some (.expression e) →
      d'.output.contains c → (∀ o ∈ e.operands, d'.output.contains o) →
      d'.output.node? c = some (.expression e)) : d'.Faithful := by
  refine ⟨fun e c hec => ?_, fun e c hec hc' ho => ?_, fun h' => ?_⟩
  · obtain ⟨hi, hall⟩ := h.issued e c (hc ▸ hec)
    exact ⟨hissued c hi, fun o ho => hissued o (hall o ho)⟩
  · rw [hc] at hec
    obtain ⟨hi, hall⟩ := h.issued e c hec
    refine hnode e c hec (h.node? e c hec (hcont c hi hc') fun o ho' => ?_) hc' ho
    exact hcont o (hall o ho') (ho o ho')
  · rw [hc, h.created (hdedup ▸ h')]

theorem Faithful.same (h : d.Faithful) (ho : d'.output = d.output) (hc : d'.created = d.created)
    (hdedup : d'.deduplicate = d.deduplicate) : d'.Faithful :=
  h.keep hc hdedup (fun _ hk => ho ▸ hk) (fun _ _ hk => ho ▸ hk) fun _ _ _ hn _ _ => ho ▸ hn

theorem Copying.contains (h : Copying d d') {k : NodeId} (hk : d.output.Issued k) :
    d'.output.contains k = d.output.contains k := by
  rw [Bool.eq_iff_iff, Generation.contains_iff, Generation.contains_iff, (h.issued k hk).2]

theorem Faithful.copying (h : d.Faithful) (hd : Copying d d') : d'.Faithful := by
  refine h.keep hd.created hd.deduplicate (fun k hk => (hd.issued k hk).1)
    (fun k hk hk' => hd.contains hk ▸ hk') fun e c hec hn _ _ => ?_
  rw [(hd.issued c (h.issued e c hec).1).2, hn]

theorem Faithful.insert {o' : Generation α} (h : d.Faithful) (henter : d.output.Entered j n q o') :
    Faithful { d with output := o' } := by
  refine h.keep rfl rfl henter.issued (fun k hk hk' => ?_) fun e c hec hn _ _ => ?_
  · obtain ⟨m, hm⟩ := Generation.contains_iff.1 hk'
    exact Generation.contains_of_node? ((henter.node?_of_ne (henter.ne_of_issued hk)).symm.trans hm)
  · exact (henter.node?_of_ne (henter.ne_of_issued (h.issued e c hec).1)).trans hn

theorem Faithful.addProvenance (h : d.Faithful) (out : NodeId) :
    Faithful { d with output := d.output.addProvenance out q } := by
  refine h.keep rfl rfl (fun k hk => hk.addProvenance) (fun k _ hk => ?_) fun e c _ hn _ _ => ?_
  · rwa [← Generation.contains_addProvenance]
  · exact (Generation.node?_addProvenance c).trans hn

/-- Writing a node does no harm to what is remembered if it is not the node of an expression, or keeps
what it is. -/
theorem Faithful.replace {o' : Generation α} (h : d.Faithful) (hr : d.output.Rewritten j n q o')
    (hkept : ∀ e, (e, j) ∈ d.created → d.output.node? j = some n) :
    Faithful { d with output := o' } := by
  refine h.keep rfl rfl hr.issued (fun k _ hk => hr.contains_iff.1 hk) fun e c hec hn _ _ => ?_
  by_cases hcj : c = j
  · subst hcj
    rw [hr.node?_self, ← hkept e hec, hn]
  · exact (hr.node?_of_ne hcj).trans hn

theorem Faithful.removeOutput (h : d.Faithful) (out : NodeId) : (d.removeOutput out).Faithful := by
  have hclear := (Generation.cleared_of_remove d.output out).1
  refine h.keep rfl rfl hclear.issued (fun k _ hk => (hclear.contains_iff.1 hk).1)
    fun e c _ hn hc _ => ?_
  exact (hclear.node? c).trans ((if_neg (hclear.contains_iff.1 hc).2).trans hn)

theorem Faithful.remember {e : Expression} {c : NodeId} (h : d.Faithful) (hdedup : d.deduplicate)
    (hn : d.output.node? c = some (.expression e)) (ho : ∀ o ∈ e.operands, d.output.contains o) :
    Faithful { d with created := (e, c) :: d.created } := by
  refine ⟨fun e' k hek => ?_, fun e' k hek hk ho' => ?_, fun hnot => ?_⟩
  · rcases List.mem_cons.1 hek with heq | hek
    · cases heq
      exact ⟨Generation.issued_of_contains (Generation.contains_of_node? hn),
        fun o ho' => Generation.issued_of_contains (ho o ho')⟩
    · exact h.issued e' k hek
  · rcases List.mem_cons.1 hek with heq | hek
    · cases heq
      exact hn
    · exact h.node? e' k hek hk ho'
  · rw [show d.deduplicate = false from hnot] at hdedup
    cases hdedup

/-- An expression whose operands are still there has not been rewired. -/
theorem Redirects.faithful (hr : Redirects id target d d') (hd : d.output.Linked) (h : d.Faithful) :
    d'.Faithful := by
  cases hr with
  | seat hq _ => exact (h.addProvenance target).same rfl rfl rfl
  | @swap q old o' hq hold hne hdiv hgone =>
    have hclear := (Generation.cleared_of_remove o' old).1
    rw [hgone] at hclear
    have hnode := hdiv.node?_eq hd.addProvenance fun _ hu => hu
    refine h.keep rfl rfl (fun k hk => ?_) (fun k _ hk => ?_) fun e c _ hn hc ho => ?_
    · exact hclear.issued k (hdiv.issued k hk.addProvenance)
    · obtain ⟨m, hm⟩ := Generation.contains_iff.1 (hclear.contains_iff.1 hk).1
      rw [hnode, Generation.node?_addProvenance] at hm
      obtain ⟨m', hm', -⟩ := Option.map_eq_some_iff.1 hm
      exact Generation.contains_of_node? hm'
    · have hsame : e.operands.map (fun o => if o = old then target else o) = e.operands := by
        refine (List.map_congr_left fun o ho' => if_neg ?_).trans (List.map_id _)
        rintro rfl
        exact (hclear.contains_iff.1 (ho o ho')).2 (by simp)
      refine (hclear.node? c).trans ((if_neg (hclear.contains_iff.1 hc).2).trans ?_)
      rw [hnode, Generation.node?_addProvenance, hn]
      simp only [Option.map_some, Node.withOperands, Node.operands, hsame]

/-- The input node stands for a remembered expression, which has become something else. -/
def Overwritten (id : NodeId) (d d' : Draft α) : Prop :=
  ∃ e j, d.mapping.get? id = some j ∧ (e, j) ∈ d.created ∧ d'.output.contains j ∧
    d'.output.node? j ≠ d.output.node? j

/-- Copying neither makes a node stand for a remembered expression nor writes one. -/
theorem Copying.overwritten (h : Copying d d') (hf : d.Faithful) (ho : Overwritten id d' d'') :
    Overwritten id d d'' := by
  obtain ⟨e, j, hmap, hec, hc, hne⟩ := ho
  rw [h.created] at hec
  have hissued := (hf.issued e j hec).1
  rw [(h.issued j hissued).2] at hne
  refine ⟨e, j, (h.bound id j hmap).resolve_right fun hnew => hnew.1 hissued, hec, hc, hne⟩

theorem ensures_emit_faithful (h : d.Faithful) (hd : d.Anchored) : Ensures (emit id n q) d
    (fun _ d' => ¬ Overwritten id d d' → d'.Faithful) Faithful := by
  have hmark : Faithful { d with dirty := true } := h.same rfl rfl rfl
  refine hd.ensures_emit hmark (fun j o' hj hrep hnot => hmark.replace hrep fun e hec => ?_)
    fun j o' henter _ => (hmark.insert henter).same rfl rfl rfl
  -- The node is written and still there, so that it has stayed what it was.
  by_contra hne
  refine hnot ⟨e, j, hj, hec, Generation.contains_of_node? hrep.node?_self, fun heq => hne ?_⟩
  exact heq.symm.trans hrep.node?_self

theorem Copying.emit_faithful (h : Copying d d') (hf : d.Faithful) : Ensures (emit id n q) d'
    (fun _ d'' => ¬ Overwritten id d d'' → d''.Faithful) Faithful :=
  (ensures_emit_faithful (hf.copying h) h.anchored).mono
    (fun _ _ _ h' hnot => h' fun ho => hnot (h.overwritten hf ho)) fun _ h' => h'

theorem ensures_createLeaf_faithful {sources : List NodeId} (h : d.Faithful) : Ensures (do
    let q ← provenanceOf sources
    markDirty
    Draft.insert n q) d (fun _ => Faithful) Faithful := by
  have hmark : Faithful { d with dirty := true } := h.same rfl rfl rfl
  exact ensures_createLeaf h hmark fun _ _ _ henter => hmark.insert henter

variable [Scalar α]

theorem ensures_remove_faithful (h : d.Faithful) :
    Ensures (remove id) d (fun _ => Faithful) Faithful := by
  refine ensures_removal (fun _ _ => h.same rfl rfl rfl) fun _ out _ => ?_
  have hstrike : Faithful { d with
      dirty := true, removed := d.removed.insert id (), mapping := d.mapping.erase id } :=
    h.same rfl rfl rfl
  exact (hstrike.removeOutput out).same rfl rfl rfl

theorem Copying.remove_faithful (h : Copying d d') (hf : d.Faithful) : Ensures (remove id) d'
    (fun _ d'' => ¬ Overwritten id d d'' → d''.Faithful) Faithful :=
  (ensures_remove_faithful (hf.copying h)).mono (fun _ _ _ h' _ => h') fun _ h' => h'

theorem ensures_editParameter_faithful {change : Parameter α → Parameter α} (h : d.Faithful)
    (hd : d.Anchored) : Ensures (editParameter id change) d
      (fun _ d' => ¬ Overwritten id d d' → d'.Faithful) Faithful :=
  hd.ensures_editParameter (fun _ _ h' _ => h.copying h') (fun _ h' => h.copying h')
    fun _ _ _ => ensures_emit_faithful h hd

theorem ensures_editExpression_faithful {edit : ExpressionEdit α} (h : d.Faithful) (hd : d.Anchored) :
    Ensures (editExpression id edit) d (fun _ d' => ¬ Overwritten id d d' → d'.Faithful) Faithful :=
  hd.ensures_editExpression (fun _ _ h' _ => h.copying h') (fun _ h' => h.copying h')
    (fun _ h' => h'.remove_faithful h) fun _ h' _ _ _ => h'.emit_faithful h

theorem ensures_editOperands_faithful {change : ℕ → NodeId → Operand α} (h : d.Faithful)
    (hd : d.Anchored) : Ensures (editOperands id change) d
      (fun _ d' => ¬ Overwritten id d d' → d'.Faithful) Faithful :=
  hd.ensures_editOperands (fun _ _ h' _ => h.copying h') (fun _ h' => h.copying h')
    (fun _ h' => h'.remove_faithful h) fun _ h' _ _ _ => h'.emit_faithful h

/-- The node is the expression over what the operands stand for, with the origins of the sources. -/
structure Creates (g : Generation α) (op : Operator) (operands : List (Operand α)) (asserted : Bool)
    (sources : List NodeId) (j : NodeId) (d : Draft α) : Prop where
  node? : ∃ js, List.Forall₂ (fun x k => x.Names d k) operands js ∧
    d.output.node? j = some (.expression ⟨op, js, asserted⟩)
  provenance? : ∃ p, d.output.provenance? j = some p ∧
    ∀ s ∈ sources, ∀ q, g.provenance? s = some q → ∀ x ∈ q, x ∈ p

omit [Scalar α] in
theorem contains_of_anchored {operands : List (Operand α)} {js : List NodeId} (hd : d.Anchored)
    (h : List.Forall₂ (fun x k => x.Names d k) operands js) : ∀ o ∈ js, d.output.contains o := by
  induction h with
  | nil => simp
  | @cons x j _ _ hj _ ih =>
    refine List.forall_mem_cons.2 ⟨?_, ih⟩
    cases x with
    | input o => exact hd o j hj
    | output c => exact hj.2
    | literal s => exact Generation.contains_of_node? hj.1

omit [Scalar α] in
/-- What operands stand for does not depend on what else is there. -/
theorem names_of_node? {operands : List (Operand α)} {js : List NodeId}
    (hmap : d'.mapping = d.mapping)
    (hnode : ∀ k m, d.output.node? k = some m → d'.output.node? k = some m)
    (h : List.Forall₂ (fun x k => x.Names d k) operands js) :
    List.Forall₂ (fun x k => x.Names d' k) operands js := by
  refine h.imp fun x k hx => ?_
  cases x with
  | input o =>
    rw [Operand.Names] at hx ⊢
    rwa [hmap]
  | output c =>
    obtain ⟨rfl, hc⟩ := hx
    obtain ⟨m, hm⟩ := Generation.contains_iff.1 hc
    exact ⟨rfl, Generation.contains_of_node? (hnode k m hm)⟩
  | literal s => exact ⟨hnode k _ hx.1, fun i hi => hx.2 i (hmap ▸ hi)⟩

/-- An expression that is created is what has been asked for, be it new or not. -/
theorem ensures_createExpression {op : Operator} {operands : List (Operand α)} {asserted : Bool}
    {sources : List NodeId} (h : d.Faithful) (hd : d.Anchored) :
    Ensures (createExpression op operands asserted sources) d (fun r d' => d'.Faithful ∧
      ∀ j, r = some j → Creates d.input op operands asserted sources j d') Faithful := by
  have hfrom : ∀ q, Runs (provenanceOf sources) d q d → ∀ s ∈ sources, ∀ p,
      d.input.provenance? s = some p → ∀ x ∈ p, x ∈ q :=
    fun q hq s hs p hp x hx => ((cites_of_runs hq).1 x).2 ⟨s, hs, p, hp, hx⟩
  refine hd.ensures_createExpression (fun d₁ h₁ => ⟨h.copying h₁, by simp⟩) (fun _ => h.copying)
    (fun _ h₁ => (h.copying h₁).same rfl rfl rfl) (fun d₁ js q c h₁ hq hjs hc => ?_)
    fun d₁ js q c o' h₁ hq hjs henter => ?_
  · have hf := h.copying h₁
    obtain ⟨hmem, hcont⟩ := mem_created_of_reusable? hc
    refine ⟨hf.addProvenance c, ?_⟩
    rintro j ⟨⟩
    obtain ⟨p, hp⟩ := Generation.exists_provenance? hcont
    refine ⟨⟨js, names_of_node? (d := d₁) rfl (fun k m hm => ?_) hjs, ?_⟩, p.union q, ?_,
      fun s hs r hr x hx => ?_⟩
    · exact (Generation.node?_addProvenance k).trans hm
    · exact (Generation.node?_addProvenance c).trans
        (hf.node? _ _ hmem hcont (contains_of_anchored h₁.anchored hjs))
    · rw [Generation.provenance?_addProvenance, if_pos rfl, hp]
      rfl
    · exact SortedSet.mem_union.2 (Or.inr (hfrom q hq s hs r hr x hx))
  · have hmark : Faithful { d₁ with dirty := true } := (h.copying h₁).same rfl rfl rfl
    have hops := contains_of_anchored h₁.anchored hjs
    refine ⟨?_, ?_⟩
    · split_ifs with hdedup
      · exact (hmark.insert henter).remember hdedup henter.node?_self
          fun o ho => henter.contains (hops o ho)
      · exact hmark.insert henter
    rintro j ⟨⟩
    refine ⟨⟨js, names_of_node? (d := d₁) rfl (fun k m hm => ?_) hjs, henter.node?_self⟩, q, ?_,
      hfrom q hq⟩
    · exact (henter.node?_of_ne (henter.ne_of_contains (Generation.contains_of_node? hm))).trans hm
    · exact (henter.provenance? c).trans (if_pos rfl)

theorem ensures_act_faithful (h : d.Faithful) (hd : d.Healthy) (c : Call α) : Ensures c.act d
    (fun _ d' => (∀ id, c.Writes id → ¬ Overwritten id d d') → d'.Faithful) Faithful := by
  cases c with
  | copy id =>
    exact ensures_map.2 ((brings_copy hd.mapped).mono (fun _ _ _ h' _ => h.copying h'.1)
      fun _ h' => h.copying h')
  | remove id => exact (ensures_remove_faithful h).mono (fun _ _ _ h' _ => h') fun _ h' => h'
  | editParameter id change =>
    exact ensures_map.2 ((ensures_editParameter_faithful h hd.mapped).mono
      (fun _ _ _ h' hnot => h' (hnot id rfl)) fun _ h' => h')
  | editExpression id edit =>
    exact ensures_map.2 ((ensures_editExpression_faithful h hd.mapped).mono
      (fun _ _ _ h' hnot => h' (hnot id rfl)) fun _ h' => h')
  | editOperands id change =>
    exact ensures_map.2 ((ensures_editOperands_faithful h hd.mapped).mono
      (fun _ _ _ h' hnot => h' (hnot id rfl)) fun _ h' => h')
  | replaceLeaf id node =>
    refine ensures_map.2 (ensures_inputProvenance_bind h fun q => ?_)
    exact (ensures_emit_faithful h hd.mapped).mono (fun _ _ _ h' hnot => h' (hnot id rfl)) fun _ h' => h'
  | createExpression op operands asserted sources =>
    exact ensures_map.2 ((ensures_createExpression h hd.mapped).mono (fun _ _ _ h' _ => h'.1)
      fun _ h' => h')
  | createParameter p sources =>
    exact ensures_map.2 ((ensures_createLeaf_faithful h).mono (fun _ _ _ h' _ => h') fun _ h' => h')
  | createLiteral value sources =>
    exact ensures_map.2 ((ensures_createLeaf_faithful h).mono (fun _ _ _ h' _ => h') fun _ h' => h')
  | absorb out sources =>
    exact ensures_provenanceOf_bind h fun _ _ => ensures_modify.2 fun _ => h.addProvenance out
  | redirect id target =>
    refine (redirects hd.output.toLinked).mono (fun _ _ _ h' _ => ?_) fun d' h' => ?_
    · exact h'.2.faithful hd.output.toLinked h
    · rcases h' with rfl | rfl
      · exact h
      · exact h.same rfl rfl rfl

end Draft

/-- The call writes something else into the node of a remembered expression. -/
def Call.Overwrites [Scalar α] (c : Call α) (d : Draft α) : Prop :=
  ∃ id, c.Writes id ∧ Draft.Overwritten id d (d.after c)

namespace Draft

variable {g : Generation α} {d d' : Draft α} {op : Operator} {operands : List (Operand α)}
  {asserted : Bool} {sources : List NodeId} {j : NodeId}

theorem Steps.deduplicate (h : Steps d d') : d'.deduplicate = d.deduplicate := by
  induction h with
  | refl => rfl
  | tail _ hstep ih => cases hstep <;> exact ih

variable [Scalar α]

theorem Healthy.input_afterAll (hd : d.Healthy) (calls : List (Call α)) :
    (d.afterAll calls).input = d.input := by
  induction calls generalizing d with
  | nil => rfl
  | cons c calls ih =>
    have hsteps := steps_after hd.output.toLinked c
    exact (ih (hsteps.healthy hd)).trans hsteps.input

/-- None of the calls writes something else into the node of a remembered expression. -/
def KeepsCreated (d : Draft α) : List (Call α) → Prop
  | [] => True
  | c :: calls => ¬ c.Overwrites d ∧ (d.after c).KeepsCreated calls

theorem keepsCreated_of_forall {calls : List (Call α)} (h : ∀ c ∈ calls, ∀ id, ¬ c.Writes id) :
    d.KeepsCreated calls := by
  induction calls generalizing d with
  | nil => trivial
  | cons c calls ih =>
    refine ⟨?_, ih fun c hc => h c (.tail _ hc)⟩
    rintro ⟨id, hid, -⟩
    exact h c List.mem_cons_self id hid

theorem Faithful.after (h : d.Faithful) (hd : d.Healthy) {c : Call α} (hc : ¬ c.Overwrites d) :
    (d.after c).Faithful := by
  have hafter : Ensures c.act d
      (fun _ d' => (∀ id, c.Writes id → ¬ Overwritten id d d') → d'.Faithful)
      (fun d' => (∀ id, c.Writes id → ¬ Overwritten id d d') → d'.Faithful) :=
    (ensures_act_faithful h hd c).mono (fun _ _ _ h => h) fun _ h _ => h
  exact hafter.left fun id hid ho => hc ⟨id, hid, ho⟩

/-- Where nothing is used again, nothing is remembered that could be overwritten. -/
theorem Faithful.afterAll (h : d.Faithful) (hd : d.Healthy) {calls : List (Call α)}
    (hcalls : d.deduplicate = true → d.KeepsCreated calls) : (d.afterAll calls).Faithful := by
  induction calls generalizing d with
  | nil => exact h
  | cons c calls ih =>
    have hsteps := steps_after hd.output.toLinked c
    have hnot : ¬ c.Overwrites d := by
      cases hdedup : d.deduplicate with
      | true => exact (hcalls hdedup).1
      | false =>
        rintro ⟨id, -, e, k, -, hek, -⟩
        rw [h.created hdedup] at hek
        cases hek
    refine ih (h.after hd hnot) (hsteps.healthy hd) fun hdedup => ?_
    exact (hcalls (hsteps.deduplicate ▸ hdedup)).2

/-- Creating an expression gives a node that is the expression over what its operands stand for, with
the origins of its sources, whether the node is new or has been created before: whatever was called
earlier, on a graph with circles as well, unless a call has written something else into the node of an
expression that was created. -/
theorem creates_createExpression (hv : g.validate = .ok ()) {deduplicate : Bool} {journal : Journal}
    {calls : List (Call α)} (hd : (start g deduplicate journal).afterAll calls = d)
    (hcalls : deduplicate = true → (start g deduplicate journal).KeepsCreated calls)
    (hr : Runs (createExpression op operands asserted sources) d (some j) d') :
    Creates g op operands asserted sources j d' := by
  have hstart := healthy_start hv deduplicate journal
  have hfaithful := (faithful_start g deduplicate journal).afterAll hstart hcalls
  have hhealthy := hstart.afterAll calls
  have hin : d.input = g := hd ▸ hstart.input_afterAll calls
  rw [hd] at hfaithful hhealthy
  have hcreates := ((ensures_createExpression hfaithful hhealthy.mapped).of_runs hr).2 j rfl
  rwa [hin] at hcreates

end Draft

namespace Sample

/-- Two numbers and their sum. -/
def total : Blueprint Float := (pair.addExpression .add [.nth 0, .nth 1]).2

/-- Another sum of the same numbers takes the place of the one that is there. -/
def sharing : List (Call Float) :=
  [.createExpression .add [.input (.nth 0), .input (.nth 1)] false [.nth 0],
    .redirect (.nth 2) (.nth 2)]

/-- After that the sum is changed into a product. -/
def overwriting : List (Call Float) := sharing ++ [.editExpression (.nth 2) { op := some .multiply }]

theorem not_writes_sharing : ∀ c ∈ sharing, ∀ id, ¬ c.Writes id := by
  intro c hc id
  rcases List.mem_pair.1 hc with rfl | rfl <;> exact not_false

end Sample

/-- A sum is asked for, and a product is given. -/
theorem Draft.multiply_of_add : Sample.total.generation.validate = .ok () ∧
    ∃ d', Runs (createExpression .add [.input (.nth 0), .input (.nth 1)] false [.nth 0])
        ((start Sample.total.generation true .empty).afterAll Sample.overwriting) (some (.nth 2)) d' ∧
      d'.mapping.get? (.nth 0) = some (.nth 0) ∧ d'.mapping.get? (.nth 1) = some (.nth 1) ∧
      d'.output.expression? (.nth 2) = some ⟨.multiply, [.nth 0, .nth 1], false⟩ := by
  refine ⟨rfl, _, rfl, ?_, ?_, ?_⟩ <;> decide +kernel

/-- The sum is given again, as long as nobody has changed it. -/
theorem Draft.creates_createExpression_total : ∃ d',
    Runs (createExpression .add [.input (.nth 0), .input (.nth 1)] false [.nth 1])
      ((start Sample.total.generation true .empty).afterAll Sample.sharing) (some (.nth 2)) d' ∧
    Creates Sample.total.generation .add [.input (.nth 0), .input (.nth 1)] false [.nth 1] (.nth 2) d' := by
  obtain ⟨d', hr⟩ : ∃ d', Runs (createExpression .add [.input (.nth 0), .input (.nth 1)] false [.nth 1])
      ((start Sample.total.generation true .empty).afterAll Sample.sharing) (some (.nth 2)) d' := by
    refine ⟨_, rfl⟩
  refine ⟨d', hr, ?_⟩
  exact creates_createExpression rfl rfl (fun _ => keepsCreated_of_forall Sample.not_writes_sharing) hr

end ParameterSolver
