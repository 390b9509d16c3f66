import ParameterSolver.Proofs.Draft.Copying
import ParameterSolver.Proofs.Draft.Rewiring

/-! What is removed stays removed. It has no output node either, unless a call gives it one that does
not look whether the node has been removed: putting a leaf in its place, and redirecting it. -/

namespace ParameterSolver

variable {α : Type}

namespace Draft

variable {d d' d'' : Draft α} {id i j target : NodeId} {n : Node α} {q : Provenance}

/-- The node is removed, and has an output node all the same. -/
def Torn (d : Draft α) (i : NodeId) : Prop := d.isRemoved i ∧ ∃ j, d.mapping.get? i = some j

/-- What is removed stays removed, and nothing new is torn but what is in `A`. -/
structure Parts (A : Set NodeId) (d d' : Draft α) : Prop where
  removed : ∀ i, d.isRemoved i → d'.isRemoved i
  torn : ∀ i, d'.Torn i → d.Torn i ∨ i ∈ A

section Parts

variable {A : Set NodeId}

theorem Parts.refl (A : Set NodeId) (d : Draft α) : Parts A d d := ⟨fun _ h => h, fun _ h => Or.inl h⟩

theorem Parts.trans (h : Parts A d d') (h' : Parts A d' d'') : Parts A d d'' :=
  ⟨fun i hi => h'.removed i (h.removed i hi), fun i hi => (h'.torn i hi).elim (h.torn i) Or.inr⟩

/-- Neither table changes. -/
theorem Parts.same (hr : d'.removed = d.removed) (hm : d'.mapping = d.mapping) : Parts A d d' := by
  refine ⟨fun i hi => ?_, fun i hi => Or.inl ?_⟩
  · rwa [isRemoved, hr]
  · rwa [Torn, isRemoved, hr, hm] at hi

theorem Copying.parts (h : Copying d d') : Parts A d d' := by
  refine ⟨h.removed, fun i ⟨hi, j, hj⟩ => Or.inl ?_⟩
  rcases h.struck i hi with hi' | hnone
  · rcases h.bound i j hj with hj' | ⟨-, hi'', -⟩
    · exact ⟨hi', j, hj'⟩
    · rw [hi] at hi''
      cases hi''
  · rw [hnone] at hj
    cases hj

/-- A node that comes to stand for something is torn only if it has been removed. -/
theorem parts_bind {o' : Generation α} {dirty : Bool} (hA : d.isRemoved id → id ∈ A) :
    Parts A d { d with dirty, output := o', mapping := d.mapping.insert id j } := by
  refine ⟨fun _ h => h, fun i ⟨hi, k, hk⟩ => ?_⟩
  rcases NodeMap.get?_insert_cases hk with ⟨rfl, -⟩ | hk
  · exact Or.inr (hA hi)
  · exact Or.inl ⟨hi, k, hk⟩

/-- What goes with an output node has nothing else that stands for it. -/
theorem parts_removeOutput (out : NodeId) : Parts A d (d.removeOutput out) := by
  refine ⟨fun i hi => (isRemoved_removeOutput out i).2 (Or.inl hi), fun i ⟨hi, j, hj⟩ => Or.inl ?_⟩
  obtain ⟨hj, hkept⟩ := (get?_removeOutput out i j).1 hj
  rcases (isRemoved_removeOutput out i).1 hi with hi | ⟨k, hk, hik⟩
  · exact ⟨hi, j, hj⟩
  · rw [hj] at hik
    exact absurd (Option.some.inj hik ▸ hk) hkept

theorem Redirects.parts (h : Redirects id target d d') (hA : d.isRemoved id → id ∈ A) :
    Parts A d d' := by
  cases h with
  | seat hq _ => exact parts_bind hA
  | @swap q old o' hq hold hne hdiv hgone =>
    have hnull := NodeMap.ne_null_of_get? hold
    have hseat : Parts A d { d with
        dirty := true, output := o', mapping := d.mapping.insert id target } := parts_bind hA
    refine (hseat.trans (parts_removeOutput old)).trans ⟨fun _ h => h, fun i ⟨hi, j, hj⟩ => ?_⟩
    rcases NodeMap.get?_insert_cases hj with ⟨rfl, -⟩ | hj
    · -- The node itself does not go, since the target stands for it already.
      rcases (isRemoved_removeOutput old i).1 hi with hi | ⟨k, hk, hik⟩
      · exact Or.inr (hA hi)
      · dsimp only at hk hik
        rw [hgone, List.mem_singleton] at hk
        rw [NodeMap.get?_insert_self hnull, hk] at hik
        exact absurd (Option.some.inj hik).symm hne
    · exact Or.inl ⟨hi, j, hj⟩

/-- Only a write that succeeds can tear the node. -/
theorem ensures_emit_parts {B : Set NodeId} (hd : d.Anchored) (hA : d.isRemoved id → id ∈ A) :
    Ensures (emit id n q) d (fun _ => Parts A d) (Parts B d) :=
  hd.ensures_emit (.same rfl rfl) (fun _ _ _ _ => .same rfl rfl) fun _ _ _ => parts_bind hA

theorem Copying.emit_parts (h : Copying d d') (hremoved : d'.isRemoved id = false) :
    Ensures (emit id n q) d' (fun _ => Parts A d) (Parts A d) :=
  (ensures_emit_parts h.anchored fun h => absurd hremoved (by simp [h])).mono
    (fun _ _ _ h' => h.parts.trans h') fun _ h' => h.parts.trans h'

theorem runs_emit (hd : d.Anchored) (hid : id ≠ .null) (hr : Runs (emit id n q) d j d') :
    d'.mapping.get? id = some j := by
  have hemit : Ensures (emit id n q) d (fun j d' => d'.mapping.get? id = some j) fun _ => True :=
    hd.ensures_emit trivial (fun _ _ hj _ => hj) fun _ _ _ => NodeMap.get?_insert_self hid
  exact hemit.of_runs hr

theorem ensures_createLeaf_parts {sources : List NodeId} : Ensures (do
    let q ← provenanceOf sources
    markDirty
    Draft.insert n q) d (fun _ => Parts A d) (Parts A d) :=
  ensures_createLeaf (.refl A d) (.same rfl rfl) fun _ _ _ _ => .same rfl rfl

variable [Scalar α]

theorem ensures_copy_parts (hd : d.Anchored) :
    Ensures (copy id) d (fun _ => Parts A d) (Parts A d) :=
  (brings_copy hd).mono (fun _ _ _ h => h.1.parts) fun _ h => h.parts

omit [Scalar α] in
/-- A node that stands for nothing is not torn when it is removed. -/
theorem parts_strike {m : NodeMap NodeId}
    (hm : ∀ i j, m.get? i = some j → d.mapping.get? i = some j ∧ i ≠ id) :
    Parts A d { d with dirty := true, removed := d.removed.insert id (), mapping := m } := by
  refine ⟨fun i hi => ?_, fun i ⟨hi, j, hj⟩ => Or.inl ?_⟩
  · cases hid : id with
    | null => exact hi
    | nth k => exact (NodeMap.contains_insert (by simp)).2 (Or.inl hi)
  · obtain ⟨hj', hne⟩ := hm i j hj
    obtain ⟨x, hx⟩ := NodeMap.contains_iff.1 hi
    rcases NodeMap.get?_insert_cases hx with ⟨hid, -⟩ | hx
    · exact absurd hid hne
    · exact ⟨NodeMap.contains_iff.2 ⟨x, hx⟩, j, hj'⟩

theorem ensures_remove_parts : Ensures (remove id) d (fun _ => Parts A d) (Parts A d) := by
  refine ensures_removal (fun _ hmap => ?_) fun _ out hmap => ?_
  · have hstrike : Parts A d { d with dirty := true, removed := d.removed.insert id () } := by
      refine parts_strike fun i j hj => ⟨hj, ?_⟩
      rintro rfl
      rw [hmap] at hj
      cases hj
    exact hstrike.trans (.same rfl rfl)
  · have hstrike : Parts A d { d with
        dirty := true, removed := d.removed.insert id (), mapping := d.mapping.erase id } := by
      refine parts_strike fun i j hj => ?_
      rw [NodeMap.get?_erase_of_ne (NodeMap.ne_null_of_get? hmap)] at hj
      split_ifs at hj with hne
      exact ⟨hj, hne⟩
    exact (hstrike.trans (parts_removeOutput out)).trans (.same rfl rfl)

theorem ensures_editParameter_parts {change : Parameter α → Parameter α} (hd : d.Anchored) :
    Ensures (editParameter id change) d (fun _ => Parts A d) (Parts A d) :=
  hd.ensures_editParameter (fun _ _ h => h.parts) (fun _ h => h.parts) fun hremoved _ _ =>
    (Copying.refl hd).emit_parts hremoved

theorem Copying.remove_parts (h : Copying d d') :
    Ensures (remove id) d' (fun _ => Parts A d) (Parts A d) :=
  ensures_remove_parts.mono (fun _ _ _ h' => h.parts.trans h') fun _ h' => h.parts.trans h'

theorem ensures_editExpression_parts {edit : ExpressionEdit α} (hd : d.Anchored) :
    Ensures (editExpression id edit) d (fun _ => Parts A d) (Parts A d) :=
  hd.ensures_editExpression (fun _ _ h => h.parts) (fun _ h => h.parts) (fun _ h => h.remove_parts)
    fun _ h hremoved _ _ => h.emit_parts hremoved

theorem ensures_editOperands_parts {change : ℕ → NodeId → Operand α} (hd : d.Anchored) :
    Ensures (editOperands id change) d (fun _ => Parts A d) (Parts A d) :=
  hd.ensures_editOperands (fun _ _ h => h.parts) (fun _ h => h.parts) (fun _ h => h.remove_parts)
    fun _ h hremoved _ _ => h.emit_parts hremoved

theorem ensures_createExpression_parts {op : Operator} {operands : List (Operand α)} {asserted : Bool}
    {sources : List NodeId} (hd : d.Anchored) :
    Ensures (createExpression op operands asserted sources) d (fun _ => Parts A d) (Parts A d) :=
  hd.ensures_createExpression (fun _ h => h.parts) (fun _ h => h.parts)
    (fun _ h => h.parts.trans (.same rfl rfl)) (fun _ _ _ _ h _ _ _ => h.parts.trans (.same rfl rfl))
    fun _ _ _ _ _ h _ _ _ => h.parts.trans (.same rfl rfl)

end Parts

end Draft

/-- The call gives a node an output node that has been removed. -/
def Call.Revives [Scalar α] (c : Call α) (d : Draft α) (i : NodeId) : Prop :=
  d.isRemoved i ∧ Succeeds c.act d ∧
    ((∃ target, c = .redirect i target) ∨ ∃ node, c = .replaceLeaf i node)

namespace Draft

variable {g : Generation α} {d d' : Draft α} {i : NodeId}

theorem Healthy.anchored (hd : d.Healthy) : d.Anchored := hd.mapped

variable [Scalar α]

/-- A call tears no node but one that it revives. -/
theorem Healthy.parts (hd : d.Healthy) (c : Call α) : Parts { i | c.Revives d i } d (d.after c) := by
  have hrefl : Parts { i | c.Revives d i } d d := .refl _ d
  refine Ensures.left (?_ : Ensures c.act d (fun _ => Parts { i | c.Revives d i } d) _)
  cases c with
  | copy id => exact ensures_map.2 (ensures_copy_parts hd.anchored)
  | remove id => exact ensures_remove_parts
  | editParameter id change => exact ensures_map.2 (ensures_editParameter_parts hd.anchored)
  | editExpression id edit => exact ensures_map.2 (ensures_editExpression_parts hd.anchored)
  | editOperands id change => exact ensures_map.2 (ensures_editOperands_parts hd.anchored)
  | replaceLeaf id node =>
    refine Ensures.mono (Q := fun _ => Parts { i | i = id ∧ d.isRemoved id } d)
      (ensures_map.2 (ensures_inputProvenance_bind hrefl fun q =>
        ensures_emit_parts hd.anchored fun hi => ⟨rfl, hi⟩)) (fun r d' hr h => ?_) fun _ h => h
    refine ⟨h.removed, fun i hi => (h.torn i hi).imp_right ?_⟩
    rintro ⟨rfl, hremoved⟩
    exact ⟨hremoved, ⟨r, d', hr⟩, Or.inr ⟨node, rfl⟩⟩
  | createExpression op operands asserted sources =>
    exact ensures_map.2 (ensures_createExpression_parts hd.anchored)
  | createParameter p sources => exact ensures_map.2 ensures_createLeaf_parts
  | createLiteral value sources => exact ensures_map.2 ensures_createLeaf_parts
  | absorb out sources =>
    exact ensures_provenanceOf_bind hrefl fun q _ => ensures_modify.2 (.same rfl rfl)
  | redirect id target =>
    refine (redirects hd.output.toLinked).mono (fun r d' hr h => ?_) fun d' h => ?_
    · exact h.2.parts fun hremoved => ⟨hremoved, ⟨r, d', hr⟩, Or.inl ⟨target, rfl⟩⟩
    · rcases h with rfl | rfl
      · exact hrefl
      · exact .same rfl rfl

/-- A call that revives a node gives it an output node. -/
theorem Healthy.exists_of_revives (hd : d.Healthy) {c : Call α} (hc : c.Revives d i) :
    ∃ j, (d.after c).mapping.get? i = some j := by
  obtain ⟨-, ⟨r, d', hr⟩, ⟨target, rfl⟩ | ⟨node, rfl⟩⟩ := hc <;>
    have hafter : d.after _ = d' := congrArg Prod.snd hr
  · rw [hafter]
    obtain ⟨-, h⟩ := (redirects hd.output.toLinked).of_runs hr
    cases h with
    | seat hq _ | swap hq _ _ _ _ =>
      exact ⟨target, NodeMap.get?_insert_self (Generation.ne_null_of_contains
        (Generation.contains_of_provenance? hq))⟩
  · rw [hafter]
    obtain ⟨j, hj⟩ := runs_discard.1 hr
    obtain ⟨p, d₁, hp, hemit⟩ := runs_bind.1 hj
    obtain ⟨hp, rfl⟩ := of_runs_inputProvenance hp
    refine ⟨j, runs_emit hd.anchored ?_ hemit⟩
    exact Generation.ne_null_of_contains (Generation.contains_of_provenance? hp)

/-- None of the calls revives the node. -/
def Spares (d : Draft α) (i : NodeId) : List (Call α) → Prop
  | [] => True
  | c :: calls => ¬ c.Revives d i ∧ (d.after c).Spares i calls

theorem Healthy.parts_afterAll (hd : d.Healthy) (calls : List (Call α)) :
    (∀ i, d.isRemoved i → (d.afterAll calls).isRemoved i) ∧
      ∀ i, d.Spares i calls → (d.afterAll calls).Torn i → d.Torn i := by
  induction calls generalizing d with
  | nil => exact ⟨fun _ h => h, fun _ _ h => h⟩
  | cons c calls ih =>
    have hparts := hd.parts c
    obtain ⟨hremoved, htorn⟩ := ih ((steps_after hd.output.toLinked c).healthy hd)
    refine ⟨fun i hi => hremoved i (hparts.removed i hi), fun i hspares hi => ?_⟩
    exact (hparts.torn i (htorn i hspares.2 hi)).resolve_right hspares.1

/-- Without calls that redirect the node or put a leaf in its place, it is not revived. -/
theorem spares_of_forall {calls : List (Call α)}
    (h : ∀ c ∈ calls, (∀ target, c ≠ .redirect i target) ∧ ∀ node, c ≠ .replaceLeaf i node) :
    d.Spares i calls := by
  induction calls generalizing d with
  | nil => trivial
  | cons c calls ih =>
    obtain ⟨hredirect, hreplace⟩ := h c List.mem_cons_self
    refine ⟨?_, ih fun c hc => h c (.tail _ hc)⟩
    rintro ⟨-, -, ⟨target, hc⟩ | ⟨node, hc⟩⟩
    · exact hredirect target hc
    · exact hreplace node hc

/-- A removed node stays removed, whatever is called later, also by calls that fail, and when the draft
is closed. It stands for nothing and closing leaves it out, as long as no call revives it. A call that
does makes it stand for something. -/
theorem removed_for_good (hv : g.validate = .ok ()) {deduplicate : Bool} {journal : Journal}
    {calls later : List (Call α)} (hd : (start g deduplicate journal).afterAll (calls ++ later) = d)
    (hi : ((start g deduplicate journal).afterAll calls).isRemoved i) :
    d.isRemoved i ∧
      ((start g deduplicate journal).Spares i (calls ++ later) → d.mapped? i = none ∧
        ∀ rev d', Runs close d rev d' → d'.isRemoved i ∧ rev.mapping.get? i = none) ∧
      ∀ c, c.Revives d i → (d.after c).isRemoved i ∧ ∃ j, (d.after c).mapped? i = some j := by
  have hstart := healthy_start hv deduplicate journal
  have hhealthy : d.Healthy := hd ▸ hstart.afterAll (calls ++ later)
  have hremoved : d.isRemoved i := by
    rw [← hd, afterAll, List.foldl_append]
    exact ((hstart.afterAll calls).parts_afterAll later).1 i hi
  refine ⟨hremoved, fun hspares => ?_, fun c hc => ⟨(hhealthy.parts c).removed i hremoved, ?_⟩⟩
  · have hnot : ¬ d.Torn i := by
      intro htorn
      rw [← hd] at htorn
      obtain ⟨-, j, hj⟩ := (hstart.parts_afterAll _).2 i hspares htorn
      rw [start, NodeMap.get?_empty] at hj
      cases hj
    have hnone : ∀ {d' : Draft α}, d'.isRemoved i → ¬ d'.Torn i → d'.mapping.get? i = none :=
      fun h hnot => Option.eq_none_iff_forall_ne_some.2 fun j hj => hnot ⟨h, j, hj⟩
    refine ⟨(hhealthy.anchored.mapped?_eq i).trans (hnone hremoved hnot), fun rev d' hr => ?_⟩
    obtain ⟨hcopying, hrev⟩ := (copying_close hhealthy.anchored).of_runs hr
    have hparts : Parts ∅ d d' := hcopying.parts
    have hremoved' := hparts.removed i hremoved
    rw [hrev]
    exact ⟨hremoved', hnone hremoved' fun h => (hparts.torn i h).elim hnot (by simp)⟩
  · obtain ⟨j, hj⟩ := hhealthy.exists_of_revives hc
    exact ⟨j, (((steps_after hhealthy.output.toLinked c).healthy hhealthy).anchored.mapped?_eq i).trans hj⟩

end Draft

namespace Sample

/-- A node is removed and redirected afterwards. -/
def reviving : List (Call Float) :=
  [.createParameter { Parameter.real with name := some "p" } [.nth 0], .remove (.nth 1),
    .redirect (.nth 1) (.nth 0)]

/-- Removes one of the numbers, with the sum and what is said of it, which have been copied. -/
def removing : List (Call Float) := [.copy (.nth 3), .remove (.nth 1)]

/-- Tries to bring the removed nodes back. -/
def retrying : List (Call Float) :=
  [.copy (.nth 3), .editExpression (.nth 2) { op := some .multiply }, .redirect (.nth 0) (.nth 0)]

end Sample

/-- A removed node stands for something, and is there when the draft is closed. -/
theorem Draft.torn_of_redirect : Sample.pair.generation.validate = .ok () ∧
    ((start Sample.pair.generation false .empty).afterAll Sample.reviving).isRemoved (.nth 1) ∧
    ((start Sample.pair.generation false .empty).afterAll Sample.reviving).mapped? (.nth 1)
      = some (.nth 0) ∧
    ∃ rev d', Runs close ((start Sample.pair.generation false .empty).afterAll Sample.reviving) rev d' ∧
      d'.isRemoved (.nth 1) ∧ rev.mapping.get? (.nth 1) = some (.nth 0) := by
  refine ⟨rfl, ?_, ?_, _, _, rfl, ?_, ?_⟩ <;> decide +kernel

/-- Nothing brings a removed node back that is neither redirected nor replaced by a leaf. -/
theorem Draft.removed_for_good_sum :
    ((start Sample.sum.generation false .empty).afterAll Sample.removing).isRemoved (.nth 2) ∧
    ((start Sample.sum.generation false .empty).afterAll
      (Sample.removing ++ Sample.retrying)).isRemoved (.nth 2) ∧
    ((start Sample.sum.generation false .empty).afterAll
      (Sample.removing ++ Sample.retrying)).mapped? (.nth 2) = none := by
  have hremoved : ((start Sample.sum.generation false .empty).afterAll Sample.removing).isRemoved
      (.nth 2) := by decide +kernel
  have hspares : (start Sample.sum.generation false .empty).Spares (.nth 2)
      (Sample.removing ++ Sample.retrying) :=
    spares_of_forall (by simp [Sample.removing, Sample.retrying])
  obtain ⟨h, hnone, -⟩ := removed_for_good Sample.sum_validate rfl hremoved
  exact ⟨hremoved, h, (hnone hspares).1⟩

end ParameterSolver
