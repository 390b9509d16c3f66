import ParameterSolver.Proofs.Draft.Calls

/-! Bystanders. An edit that is about the nodes of a set gives no other node an output node and removes
no other node, as long as the set holds the operands of its nodes; and no edit of a draft warns. -/

namespace ParameterSolver

open Draft

variable {α β γ : Type}

namespace Journal

variable {j : Journal}

theorem count_add (l l' : Level) (source message : String) :
    (j.add l source message).count l' = j.count l' + if l = l' then 1 else 0 := by
  simp only [count, atLevel, toList, add, Array.toList_push, List.filter_append, List.length_append]
  split_ifs with h <;> simp [h]

theorem count_add_of_ne {l l' : Level} (h : l ≠ l') (source message : String) :
    (j.add l source message).count l' = j.count l' := by
  rw [count_add, if_neg h, Nat.add_zero]

end Journal

/-- The nodes hold their operands. -/
def Generation.Downward (g : Generation α) (D : Set NodeId) : Prop :=
  ∀ i ∈ D, ∀ o ∈ g.operands i, o ∈ D

theorem Generation.downward_univ (g : Generation α) : g.Downward Set.univ := fun _ _ _ _ => trivial

namespace Draft

/-- Since the draft `d` only nodes in `D` have been given an output node or been removed, and nobody
has been warned. -/
structure Stays (D : Set NodeId) (d d' : Draft α) : Prop where
  input : d'.input = d.input
  mapping : ∀ i ∉ D, d.mapping.get? i = none → d'.mapping.get? i = none
  removed : ∀ i ∉ D, d.mapping.get? i = none → d'.isRemoved i = d.isRemoved i
  warnings : d'.journal.count .warn = d.journal.count .warn

/-- The edit is about nodes in `D` and does not warn. -/
def Minds (D : Set NodeId) (m : Edit α β) (d : Draft α) : Prop :=
  ∀ r d', Runs m d r d' → Stays D d d'

variable {D : Set NodeId} {d d' d'' : Draft α} {id : NodeId}

theorem Stays.refl (D : Set NodeId) (d : Draft α) : Stays D d d :=
  ⟨rfl, fun _ _ h => h, fun _ _ _ => rfl, rfl⟩

theorem Stays.trans (h : Stays D d d') (h' : Stays D d' d'') : Stays D d d'' where
  input := h'.input.trans h.input
  mapping i hi hm := h'.mapping i hi (h.mapping i hi hm)
  removed i hi hm := (h'.removed i hi (h.mapping i hi hm)).trans (h.removed i hi hm)
  warnings := h'.warnings.trans h.warnings

theorem Stays.downward (h : Stays D d d') (hD : d.input.Downward D) : d'.input.Downward D := by
  rwa [h.input]

/-- What bystanders are told by does not change. -/
theorem Stays.of_same (hin : d'.input = d.input) (hmap : d'.mapping = d.mapping)
    (hremoved : d'.removed = d.removed) (hj : d'.journal = d.journal) : Stays D d d' :=
  ⟨hin, fun _ _ h => by rwa [hmap], fun _ _ _ => by rw [isRemoved, hremoved]; rfl, by rw [hj]⟩

theorem Stays.bind (hid : id ∈ D) (j : NodeId) :
    Stays D d { d with mapping := d.mapping.insert id j } := by
  refine ⟨rfl, fun i hi h => (NodeMap.get?_insert_other ?_).trans h, fun _ _ _ => rfl, rfl⟩
  rintro rfl
  exact hi hid

theorem Stays.strike (hid : id ∈ D) : Stays D d { d with removed := d.removed.insert id () } := by
  refine ⟨rfl, fun _ _ h => h, fun i hi _ => congrArg Option.isSome (NodeMap.get?_insert_other ?_), rfl⟩
  rintro rfl
  exact hi hid

theorem Stays.removeOutput (out : NodeId) : Stays D d (d.removeOutput out) := by
  refine ⟨rfl, fun i _ h => ?_, fun i _ h => ?_, rfl⟩
  · refine Option.eq_none_iff_forall_ne_some.2 fun k hk => ?_
    rw [get?_removeOutput, h] at hk
    cases hk.1
  · rw [Bool.eq_iff_iff, isRemoved_removeOutput]
    simp [h]

theorem Stays.erase (D : Set NodeId) (id : NodeId) :
    Stays D d { d with mapping := d.mapping.erase id } := by
  refine ⟨rfl, fun i _ h => ?_, fun _ _ _ => rfl, rfl⟩
  cases id with
  | null => exact h
  | nth k =>
    rw [NodeMap.get?_erase, h]
    exact ite_self none

section Combinators

theorem minds_pure (x : β) : Minds D (pure x) d := fun _ _ hr => by
  obtain ⟨-, rfl⟩ := runs_pure.1 hr
  exact .refl D _

theorem minds_throw (e : SolveError α) : Minds D (throw e : Edit α β) d := fun _ _ hr =>
  absurd hr runs_throw

theorem minds_throw_bind (e : SolveError α) (f : β → Edit α γ) : Minds D (throw e >>= f) d :=
  fun _ _ hr => by
    obtain ⟨_, _, hthrow, -⟩ := runs_bind.1 hr
    exact absurd hthrow runs_throw

theorem Minds.bind {m : Edit α β} {f : β → Edit α γ} (h : Minds D m d)
    (hf : ∀ x d', Stays D d d' → Minds D (f x) d') : Minds D (m >>= f) d := fun r d' hr => by
  obtain ⟨x, d₁, hm, hr₁⟩ := runs_bind.1 hr
  exact (h x d₁ hm).trans (hf x d₁ (h x d₁ hm) r d' hr₁)

theorem Minds.get_bind {f : Draft α → Edit α β} (h : Minds D (f d) d) : Minds D (get >>= f) d :=
  fun r d' hr => h r d' (runs_get_bind.1 hr)

theorem minds_modify {f : Draft α → Draft α} (h : Stays D d (f d)) : Minds D (modify f) d :=
  fun _ _ hr => runs_modify.1 hr ▸ h

theorem minds_set (h : Stays D d d') : Minds D (set d') d := fun _ _ hr => runs_set.1 hr ▸ h

theorem Minds.modify_bind {f : Draft α → Draft α} {k : PUnit → Edit α β} (h : Stays D d (f d))
    (hk : ∀ d', Stays D d d' → Minds D (k ⟨⟩) d') : Minds D (modify f >>= k) d :=
  (minds_modify h).bind fun _ => hk

theorem Minds.set_bind {k : PUnit → Edit α β} (h : Stays D d d')
    (hk : ∀ d', Stays D d d' → Minds D (k ⟨⟩) d') : Minds D (set d' >>= k) d :=
  (minds_set h).bind fun _ => hk

theorem Minds.map {m : Edit α β} {f : β → γ} (h : Minds D m d) : Minds D (f <$> m) d :=
  fun _ d' hr => by
    obtain ⟨x, hm, -⟩ := runs_map.1 hr
    exact h x d' hm

theorem minds_forM {f : β → Edit α PUnit} {l : List β}
    (hf : ∀ x ∈ l, ∀ d', Stays D d d' → Minds D (f x) d') : Minds D (l.forM f) d := by
  intro _ _ hr
  refine runs_forM (l := l) (P := fun _ => Stays D d) (fun done x rest hl d₁ d₂ r h hx => ?_)
    (List.nil_append _) (.refl D d) hr
  exact h.trans (hf x (hl ▸ by simp) d₁ h r d₂ hx)

theorem minds_collect {f : β → Edit α (Option γ)} {l : List β}
    (hf : ∀ x ∈ l, ∀ d', Stays D d d' → Minds D (f x) d') : Minds D (collect f l) d := by
  induction l generalizing d with
  | nil => exact minds_pure _
  | cons x l ih =>
    refine (hf x (by simp) d (.refl D d)).bind fun y d₁ h₁ => ?_
    cases y with
    | none => exact minds_pure _
    | some y =>
      exact (ih fun z hz d' h => hf z (.tail _ hz) d' (h₁.trans h)).bind fun _ _ _ => minds_pure _

end Combinators

section Edits

variable {n : Node α} {q : Provenance} {sources : List NodeId}

theorem minds_log {l : Level} (hl : l ≠ .warn) (source message : String) :
    Minds D (log l source message) d :=
  minds_modify ⟨rfl, fun _ _ h => h, fun _ _ _ => rfl, Journal.count_add_of_ne hl _ _⟩

theorem minds_markDirty : Minds D markDirty d := minds_modify (.of_same rfl rfl rfl rfl)

theorem minds_markRemoved (hid : id ∈ D) : Minds D (markRemoved id) d := minds_modify (.strike hid)

theorem minds_insert : Minds D (Draft.insert n q) d := by
  refine .get_bind ?_
  split
  · exact .set_bind (.of_same rfl rfl rfl rfl) fun _ _ => minds_pure _
  · exact minds_throw _

theorem minds_inputProvenance : Minds D (inputProvenance id) d := by
  refine .get_bind ?_
  split
  · exact minds_pure _
  · exact minds_throw _

theorem minds_provenanceOf : Minds D (provenanceOf sources) d := fun _ _ hr => by
  obtain ⟨-, rfl⟩ := cites_of_runs hr
  exact .refl D _

theorem minds_insertCopy (hid : id ∈ D) : Minds D (insertCopy id n q) d :=
  minds_insert.bind fun j _ _ => .modify_bind (.bind hid j) fun _ _ => minds_pure _

theorem minds_emit (hid : id ∈ D) : Minds D (emit id n q) d := by
  refine minds_markDirty.bind fun _ d₁ _ => .get_bind ?_
  split
  · split
    · exact .set_bind (.of_same rfl rfl rfl rfl) fun _ _ => minds_pure _
    · exact minds_throw _
  · exact minds_insert.bind fun j _ _ => .modify_bind (.bind hid j) fun _ _ => minds_pure _

theorem minds_replaceLeaf (hid : id ∈ D) : Minds D (replaceLeaf id n) d :=
  minds_inputProvenance.bind fun _ _ _ => minds_emit hid

theorem minds_absorb {out : NodeId} : Minds D (absorb out sources) d :=
  minds_provenanceOf.bind fun _ _ _ => minds_modify (.of_same rfl rfl rfl rfl)

theorem minds_rewire {old target user : NodeId} : Minds D (rewire old target user) d := by
  refine .get_bind ?_
  split
  · dsimp only
    split
    · exact minds_set (.of_same rfl rfl rfl rfl)
    · exact minds_throw _
  · exact minds_pure _

theorem minds_redirect {target : NodeId} (hid : id ∈ D) : Minds D (redirect id target) d := by
  refine .get_bind ?_
  split_ifs
  · exact minds_throw_bind _ _
  refine minds_markDirty.bind fun _ _ _ => minds_inputProvenance.bind fun q d₁ _ => ?_
  have hcredit : Stays D d₁ { d₁ with output := d₁.output.addProvenance target q } :=
    .of_same rfl rfl rfl rfl
  have hseat : Stays D d₁ { d₁ with
      output := d₁.output.addProvenance target q, mapping := d₁.mapping.insert id target } :=
    hcredit.trans (.bind hid target)
  refine .get_bind (.modify_bind hseat fun d₂ _ => ?_)
  split
  · exact minds_pure _
  refine .get_bind ?_
  split_ifs
  · exact minds_pure _
  refine (minds_forM fun _ _ _ _ => minds_rewire).bind fun _ d₃ _ => ?_
  exact minds_modify ((Stays.removeOutput _).trans (.bind hid target))

theorem minds_remove [Scalar α] (hid : id ∈ D) : Minds D (remove id) d := by
  refine minds_markDirty.bind fun _ _ _ => (minds_markRemoved hid).bind fun _ d₁ _ => ?_
  refine .modify_bind ?_ fun _ _ => .get_bind (minds_log (by decide) _ _)
  split
  · exact (Stays.erase D id).trans (.removeOutput _)
  · exact .refl D d₁

variable [Scalar α] (hD : d.input.Downward D)

include hD

theorem minds_copyWith {fuel : ℕ} (hid : id ∈ D) : Minds D (copyWith fuel id) d := by
  induction fuel generalizing id d with
  | zero => exact minds_throw _
  | succ fuel ih =>
    refine .get_bind ?_
    split_ifs
    · exact minds_pure _
    split
    · exact minds_pure _
    split
    · exact minds_throw _
    rename_i entry hentry
    split
    · rename_i e he
      have hn : d.input.node? id = some (.expression e) := by
        rw [Generation.node?, hentry, ← he]
        rfl
      have hops : ∀ o ∈ e.operands, o ∈ D := fun o ho => hD id hid o (by
        rwa [Generation.operands_of_node? hn])
      refine (minds_collect fun o ho d' h => ih (h.downward hD) (hops o ho)).bind fun r d₁ _ => ?_
      cases r with
      | none =>
        refine .get_bind ((minds_log (by decide) _ _).bind fun _ _ _ => ?_)
        exact (minds_markRemoved hid).bind fun _ _ _ => minds_markDirty.bind fun _ _ _ => minds_pure _
      | some operands => exact minds_insertCopy hid
    · exact minds_insertCopy hid

theorem minds_copy (hid : id ∈ D) : Minds D (copy id) d := .get_bind (minds_copyWith hD hid)

theorem minds_resolve {x : Operand α} (hx : ∀ o, x = .input o → o ∈ D) :
    Minds D (resolve q x) d := by
  cases x with
  | input o => exact minds_copy hD (hx o rfl)
  | output c =>
    refine .get_bind ?_
    split_ifs
    · exact minds_pure _
    · exact minds_throw _
  | literal s => exact minds_insert.map

theorem minds_resolveAll {l : List (Operand α)} (hl : ∀ o, .input o ∈ l → o ∈ D) :
    Minds D (collect (resolve q) l) d :=
  minds_collect fun _ hx _ h => minds_resolve (h.downward hD) fun o ho => hl o (ho ▸ hx)

theorem minds_editParameter {change : Parameter α → Parameter α} (hid : id ∈ D) :
    Minds D (editParameter id change) d := by
  refine .get_bind ?_
  split_ifs
  · exact minds_pure _
  dsimp only
  split
  · exact minds_throw _
  split_ifs
  · exact minds_copy hD hid
  split
  · exact (minds_emit hid).map
  · exact minds_inputProvenance.bind fun _ _ _ => (minds_emit hid).map

theorem minds_editExpression {edit : ExpressionEdit α} (hid : id ∈ D)
    (hedit : ∀ l, edit.operands = some l → ∀ o, .input o ∈ l → o ∈ D) :
    Minds D (editExpression id edit) d := by
  refine .get_bind ?_
  split_ifs
  · exact minds_pure _
  split
  · exact minds_throw _
  rename_i e he
  dsimp only
  split_ifs
  · exact minds_copy hD hid
  have hops : ∀ o, Operand.input o ∈ edit.operands.getD (e.operands.map .input) → o ∈ D := by
    intro o ho
    cases hl : edit.operands with
    | some l =>
      rw [hl] at ho
      exact hedit l hl o ho
    | none =>
      rw [hl] at ho
      obtain ⟨o', ho', heq⟩ := List.mem_map.1 ho
      cases heq
      refine hD id hid o ?_
      rwa [Generation.operands_of_node? (Generation.expression?_eq.1 he)]
  refine minds_inputProvenance.bind fun q d₁ h₁ => ?_
  refine (minds_resolveAll (h₁.downward hD) hops).bind fun r d₂ _ => ?_
  cases r with
  | none => exact (minds_remove hid).bind fun _ _ _ => minds_pure _
  | some operands => exact (minds_emit hid).map

theorem minds_createExpression {op : Operator} {operands : List (Operand α)} {asserted : Bool}
    (hl : ∀ o, .input o ∈ operands → o ∈ D) :
    Minds D (createExpression op operands asserted sources) d := by
  refine minds_provenanceOf.bind fun q d₁ h₁ => ?_
  refine (minds_resolveAll (h₁.downward hD) hl).bind fun r d₂ _ => ?_
  cases r with
  | none => exact minds_pure _
  | some operands =>
    refine .get_bind ?_
    split
    · exact .set_bind (.of_same rfl rfl rfl rfl) fun _ _ => minds_pure _
    · refine minds_markDirty.bind fun _ _ _ => minds_insert.bind fun c d₃ _ => .modify_bind ?_
        fun _ _ => minds_pure _
      split_ifs
      · exact .of_same rfl rfl rfl rfl
      · exact .refl D d₃

end Edits

section Close

theorem minds_createParameter {p : Parameter α} {sources : List NodeId} :
    Minds D (createParameter p sources) d :=
  minds_provenanceOf.bind fun _ _ _ => minds_markDirty.bind fun _ _ _ => minds_insert

theorem minds_close [Scalar α] : Minds Set.univ close d := by
  refine .get_bind ((minds_forM fun id _ _ _ => .map ?_).bind fun _ _ _ => .get_bind (minds_pure _))
  exact minds_copy (Generation.downward_univ _) trivial

end Close

end Draft

end ParameterSolver
