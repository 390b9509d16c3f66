import ParameterSolver.Proofs.Draft.Transcripts
import ParameterSolver.Proofs.Draft.WellFormed

/-! What the flag of a draft says. While a draft is clean every bound output node is a copy, whatever
was called; but two things go unnoticed. A call that fails may leave literals that it has written for
its operands, and output nodes may be given more origins. Where neither happens, a clean draft is a
plain copy. -/

namespace ParameterSolver

variable {α : Type}

/-- The graph `g'` holds a copy of `g`, which `f` leads to. Copies may have more origins, and there may
be more literals, which nothing uses. -/
structure Generation.Embeds (g : Generation α) (f : NodeId → NodeId) (g' : Generation α) : Prop where
  injOn : Set.InjOn f { i | g.contains i }
  node? : ∀ i, g.contains i →
    g'.node? (f i) = (g.node? i).map fun n => n.withOperands (n.operands.map f)
  provenance? : ∀ i p, g.provenance? i = some p → ∃ q, g'.provenance? (f i) = some q ∧ ∀ x ∈ p, x ∈ q
  extra : ∀ j, g'.contains j → (∃ i, g.contains i ∧ f i = j) ∨
    (∃ s, g'.node? j = some (.literal s none)) ∧ ∀ k, j ∉ g'.operands k

/-- The call has a literal among its operands, which is written before it can fail. -/
def Call.Inlines : Call α → Prop
  | editExpression _ edit => ∃ l, edit.operands = some l ∧ ∃ s, .literal s ∈ l
  | editOperands _ change => ∃ k o s, change k o = .literal s
  | createExpression _ operands _ _ => ∃ s, .literal s ∈ operands
  | _ => False

theorem Ensures.of_runs {β : Type} {m : Edit α β} {d d' : Draft α} {Q : β → Draft α → Prop}
    {E : Draft α → Prop} {r : β} (h : Ensures m d Q E) (hr : Runs m d r d') : Q r d' := by
  unfold Ensures at h
  rwa [hr] at h

namespace Draft

variable {g : Generation α} {A F F' : Prop} {S : Set NodeId} {d d' d'' : Draft α} {id : NodeId}

theorem Steps.dirty (h : Steps d d') (hd : d.dirty) : d'.dirty := by
  induction h with
  | refl => exact hd
  | tail _ hstep ih => cases hstep <;> first | exact ih | rfl

/-- More input nodes have output nodes, all of them in `S`. -/
structure Adopts (S : Set NodeId) (d d' : Draft α) : Prop where
  kept : ∀ i j, d.mapping.get? i = some j → d'.mapping.get? i = some j
  new : ∀ i j, d'.mapping.get? i = some j → d.mapping.get? i = some j ∨ i ∈ S

theorem Adopts.refl (S : Set NodeId) (d : Draft α) : Adopts S d d :=
  ⟨fun _ _ h => h, fun _ _ h => Or.inl h⟩

theorem Adopts.trans (h : Adopts S d d') (h' : Adopts S d' d'') : Adopts S d d'' :=
  ⟨fun i j hj => h'.kept i j (h.kept i j hj),
    fun i j hj => (h'.new i j hj).elim (h.new i j) Or.inr⟩

theorem Adopts.mono {T : Set NodeId} (h : Adopts S d d') (hST : S ⊆ T) : Adopts T d d' :=
  ⟨h.kept, fun i j hj => (h.new i j hj).imp_right fun hi => hST hi⟩

theorem adopts_bind {j : NodeId} {o' : Generation α} (hid : id ≠ .null)
    (hmap : d.mapping.get? id = none) (hS : id ∈ S) :
    Adopts S d { d with output := o', mapping := d.mapping.insert id j } := by
  refine ⟨fun i k hk => get?_bound_of_none hid hmap hk, fun i k hk => ?_⟩
  rcases get?_bound hid hk with ⟨rfl, -⟩ | ⟨-, hk⟩
  · exact Or.inr hS
  · exact Or.inl hk

/-- Nothing has been done but copying, if `A` does not hold and `F` does not. Otherwise copies may have
been given more origins or there may be literals that are not copies. -/
structure Plain (g : Generation α) (A F : Prop) (d : Draft α) : Prop where
  input : d.input = g
  removed : ∀ i, d.isRemoved i = false
  created : d.created = []
  transcribes : Transcribes g d
  injective : ∀ i i' j, d.mapping.get? i = some j → d.mapping.get? i' = some j → i = i'
  origins : ∀ i j, d.mapping.get? i = some j → ∃ p q, g.provenance? i = some p ∧
    d.output.provenance? j = some q ∧ (∀ x ∈ p, x ∈ q) ∧ (q = p ∨ A)
  extra : ∀ j, d.output.contains j → (∃ i, d.mapping.get? i = some j) ∨
    F ∧ ∃ s, d.output.node? j = some (.literal s none)
  -- Only what is off every circle can be copied, since its operands are copied first.
  acyclic : ∀ i j, d.mapping.get? i = some j → ¬ Relation.TransGen g.Uses i i

theorem plain_start (g : Generation α) (A F : Prop) (deduplicate : Bool) (journal : Journal) :
    Plain g A F (start g deduplicate journal) := by
  refine ⟨rfl, ?_, rfl, fun i j hj => ?_, ?_, ?_, ?_, ?_⟩
  · simp [start, isRemoved, NodeMap.contains]
  · simp [start] at hj
  all_goals simp [start, NodeMap.contains, Generation.contains, Generation.empty]

namespace Plain

theorem mono (h : Plain g A F d) (hF : F → F') : Plain g A F' d :=
  ⟨h.input, h.removed, h.created, h.transcribes, h.injective, h.origins,
    fun j hj => (h.extra j hj).imp_right (And.imp_left hF), h.acyclic⟩

theorem mapped?_eq (h : Plain g A F d) (i : NodeId) : d.mapped? i = d.mapping.get? i := by
  unfold mapped?
  cases hj : d.mapping.get? i with
  | none => rfl
  | some j => simp [(h.transcribes.contains hj).2]

/-- A node can be copied whose operands have been, which shows that it is on no circle. -/
theorem bind {n : Node α} {js : List NodeId} {q : Provenance} {j : NodeId} {o' : Generation α}
    (h : Plain g A F d) (hn : g.node? id = some n) (hmap : d.mapping.get? id = none)
    (hjs : d.Images n.operands js) (henter : d.output.Entered j (n.withOperands js) q o')
    (hq : g.provenance? id = some q) :
    Plain g A F { d with output := o', mapping := d.mapping.insert id j } := by
  have hnull := Generation.ne_null_of_contains (Generation.contains_of_node? hn)
  have hfresh : ∀ i, d.mapping.get? i ≠ some j := fun i hi =>
    henter.ne_of_contains (h.transcribes.contains hi).2 rfl
  have hcircle : ¬ Relation.TransGen g.Uses id id := by
    intro hpath
    obtain ⟨o, ho, hpath⟩ := Relation.TransGen.head'_iff.1 hpath
    rw [Generation.Uses, Generation.operands_of_node? hn] at ho
    obtain ⟨k, -, hk⟩ := hjs.exists_image ho
    obtain ⟨c, hc⟩ := h.transcribes.exists_of_reaches hk hpath
    rw [hmap] at hc
    cases hc
  refine ⟨h.input, h.removed, h.created, h.transcribes.bind hn hmap hjs henter, ?_, ?_, ?_, ?_⟩
  · exact fun i i' k hk hk' => (NodeMap.binds_insert hnull).injective hfresh h.injective hk hk'
  · intro i k hk
    rcases get?_bound hnull hk with ⟨rfl, rfl⟩ | ⟨-, hk⟩
    · exact ⟨q, q, hq, by rw [henter.provenance?, if_pos rfl], fun _ hx => hx, Or.inl rfl⟩
    · obtain ⟨p, q', hp, hq', hrest⟩ := h.origins i k hk
      refine ⟨p, q', hp, ?_, hrest⟩
      rw [henter.provenance?, if_neg (henter.ne_of_contains (h.transcribes.contains hk).2), hq']
  · intro k hk
    obtain ⟨m, hm⟩ := Generation.contains_iff.1 hk
    change o'.node? k = some m at hm
    by_cases hkj : k = j
    · exact Or.inl ⟨id, by rw [hkj]; exact NodeMap.get?_insert_self hnull⟩
    · rw [henter.node?_of_ne hkj] at hm
      refine (h.extra k (Generation.contains_of_node? hm)).imp ?_ (And.imp_right ?_)
      · rintro ⟨i, hi⟩
        exact ⟨i, get?_bound_of_none hnull hmap hi⟩
      · rintro ⟨s, hs⟩
        exact ⟨s, (henter.node?_of_ne hkj).trans hs⟩
  · intro i k hk
    rcases get?_bound hnull hk with ⟨rfl, -⟩ | ⟨-, hk⟩
    · exact hcircle
    · exact h.acyclic i k hk

theorem insertLiteral {s : ValueSet α} {q : Provenance} {j : NodeId} {o' : Generation α}
    (h : Plain g A F d) (hF : F) (henter : d.output.Entered j (.literal s none) q o') :
    Plain g A F { d with output := o' } := by
  have hret := retains_insert henter
  refine ⟨h.input, h.removed, h.created, fun i k hk => ?_, h.injective, fun i k hk => ?_, fun k hk => ?_,
    h.acyclic⟩
  · obtain ⟨n, js, hn, hjs, hnode⟩ := h.transcribes i k hk
    exact ⟨n, js, hn, hjs, hret.node? k _ hnode⟩
  · obtain ⟨p, q', hp, hq', hrest⟩ := h.origins i k hk
    refine ⟨p, q', hp, ?_, hrest⟩
    rw [henter.provenance?, if_neg (henter.ne_of_contains (h.transcribes.contains hk).2), hq']
  · obtain ⟨m, hm⟩ := Generation.contains_iff.1 hk
    change o'.node? k = some m at hm
    by_cases hkj : k = j
    · exact Or.inr ⟨hF, s, by rw [hkj]; exact henter.node?_self⟩
    · rw [henter.node?_of_ne hkj] at hm
      refine (h.extra k (Generation.contains_of_node? hm)).imp_right (And.imp_right ?_)
      rintro ⟨s', hs'⟩
      exact ⟨s', (henter.node?_of_ne hkj).trans hs'⟩

theorem credit {out : NodeId} {q : Provenance} (h : Plain g A F d) (hA : A) :
    Plain g A F { d with output := d.output.addProvenance out q } := by
  refine ⟨h.input, h.removed, h.created, fun i k hk => ?_, h.injective, fun i k hk => ?_, fun k hk => ?_,
    h.acyclic⟩
  · obtain ⟨n, js, hn, hjs, hnode⟩ := h.transcribes i k hk
    exact ⟨n, js, hn, hjs, (Generation.node?_addProvenance k).trans hnode⟩
  · obtain ⟨p, q', hp, hq', hpq, -⟩ := h.origins i k hk
    refine ⟨p, if k = out then q'.union q else q', hp, ?_, fun x hx => ?_, Or.inr hA⟩
    · rw [Generation.provenance?_addProvenance, hq']
      split_ifs <;> rfl
    · split_ifs
      · exact SortedSet.mem_union.2 (Or.inl (hpq x hx))
      · exact hpq x hx
  · rw [Generation.contains_iff, Generation.node?_addProvenance, ← Generation.contains_iff] at hk
    refine (h.extra k hk).imp_right (And.imp_right ?_)
    rintro ⟨s, hs⟩
    exact ⟨s, (Generation.node?_addProvenance k).trans hs⟩

end Plain

section Edits

variable {β γ : Type} {n : Node α} {q : Provenance}

theorem ensures_insert : Ensures (Draft.insert n q) d
    (fun j d' => ∃ o', d.output.Entered j n q o' ∧ d' = { d with output := o' }) (· = d) := by
  refine ensures_get_bind.2 ?_
  split
  · rename_i j o' hins
    exact ensures_set_bind.2 (ensures_pure.2 ⟨o', Generation.entered_of_insert hins, rfl⟩)
  · exact ensures_throw.2 rfl

theorem ensures_insert_bind {f : NodeId → Edit α β} {Q : β → Draft α → Prop} {E : Draft α → Prop}
    (hE : E d) (hf : ∀ j o', d.output.Entered j n q o' → Ensures (f j) { d with output := o' } Q E) :
    Ensures (Draft.insert n q >>= f) d Q E := by
  refine ensures_bind.2 (ensures_insert.mono (fun j d' _ h => ?_) fun d' h => ?_)
  · obtain ⟨o', henter, rfl⟩ := h
    exact hf j o' henter
  · rwa [h]

theorem ensures_collect {f : β → Edit α (Option γ)} {l : List β} {I E : Draft α → Prop}
    {K : Draft α → Draft α → Prop} {R : β → γ → Draft α → Prop} (hrefl : ∀ d, K d d)
    (htrans : ∀ d d' d'', K d d' → K d' d'' → K d d'') (hR : ∀ x y d d', K d d' → R x y d → R x y d')
    (hf : ∀ x ∈ l, ∀ d, I d →
      Ensures (f x) d (fun r d' => I d' ∧ K d d' ∧ ∃ y, r = some y ∧ R x y d') E) (hd : I d) :
    Ensures (collect f l) d
      (fun r d' => I d' ∧ K d d' ∧ ∃ ys, r = some ys ∧ List.Forall₂ (fun x y => R x y d') l ys) E := by
  induction l generalizing d with
  | nil => exact ensures_pure.2 ⟨hd, hrefl d, [], rfl, .nil⟩
  | cons x l ih =>
    refine ensures_bind.2 ((hf x (by simp) d hd).mono (fun r d₁ _ h => ?_) fun _ h => h)
    obtain ⟨h₁, hK₁, y, rfl, hy⟩ := h
    refine ensures_bind.2 ((ih (fun z hz => hf z (.tail _ hz)) h₁).mono (fun r d₂ _ h => ?_) fun _ h => h)
    obtain ⟨h₂, hK₂, ys, rfl, hys⟩ := h
    exact ensures_pure.2 ⟨h₂, htrans _ _ _ hK₁ hK₂, y :: ys, rfl, .cons (hR x y _ _ hK₂ hy) hys⟩

/-- The node has got an output node, and so have only nodes that it is made of. -/
def Copied (g : Generation α) (id : NodeId) (d : Draft α) (r : Option NodeId) (d' : Draft α) : Prop :=
  Adopts { i | Relation.ReflTransGen g.Uses id i } d d' ∧ ∃ j, r = some j ∧ d'.mapping.get? id = some j

theorem Plain.insertCopy {js : List NodeId} (h : Plain g A F d) (hn : g.node? id = some n)
    (hmap : d.mapping.get? id = none) (hjs : d.Images n.operands js) (hq : g.provenance? id = some q) :
    Ensures (insertCopy id (n.withOperands js) q) d
      (fun r d' => Plain g A F d' ∧ Copied g id d r d') (Plain g A F) := by
  have hnull := Generation.ne_null_of_contains (Generation.contains_of_node? hn)
  refine ensures_insert_bind h fun j o' henter => ?_
  refine ensures_modify_bind.2 (ensures_pure.2 ⟨h.bind hn hmap hjs henter hq, ?_, j, rfl, ?_⟩)
  · exact adopts_bind hnull hmap Relation.ReflTransGen.refl
  · exact NodeMap.get?_insert_self hnull

theorem ensures_emit : Ensures (emit id n q) d (fun _ d' => d'.dirty) (·.dirty) := by
  refine ensures_modify_bind.2 (ensures_get_bind.2 ?_)
  split
  · split
    · exact ensures_set_bind.2 (ensures_pure.2 rfl)
    · exact ensures_throw.2 rfl
  · exact ensures_insert_bind rfl fun _ _ _ => ensures_modify_bind.2 (ensures_pure.2 rfl)

theorem ensures_redirect {target : NodeId} (hd : d.output.Linked) :
    Ensures (redirect id target) d (fun _ d' => d'.dirty) (fun d' => d'.dirty ∨ d' = d) := by
  by_cases htarget : d.output.contains target
  · -- Marking a draft twice is marking it once, and from there on the steps keep the mark.
    have hgoes : Goes (redirect id target) { d with dirty := true } fun _ _ => True :=
      goes_redirect hd
    have hdirty : Ensures (redirect id target) { d with dirty := true } (fun _ d' => d'.dirty)
        (fun d' => d'.dirty ∨ d' = d) :=
      Ensures.mono hgoes (fun _ d' _ h => h.1.dirty rfl) fun d' h => Or.inl (h.dirty rfl)
    rw [redirect, ensures_get_bind] at hdirty ⊢
    simp only [htarget, Bool.not_true, Bool.false_eq_true, reduceIte] at hdirty ⊢
    exact hdirty
  · refine ensures_get_bind.2 ?_
    simp only [htarget, Bool.not_false, reduceIte]
    exact Or.inr rfl

/-- Creating a leaf fails before anything is written. -/
theorem Plain.createLeaf {sources : List NodeId} (h : Plain g A F d) : Ensures (do
      let q ← provenanceOf sources
      markDirty
      Draft.insert n q) d (fun _ d' => d'.dirty ∨ Plain g A F d')
      (fun d' => d'.dirty ∨ Plain g A F d') := by
  refine ensures_provenanceOf_bind (Or.inr h) fun q _ => ?_
  refine ensures_modify_bind.2 (ensures_insert.mono (fun c d₂ _ h₂ => ?_) fun d₂ h₂ => Or.inl (h₂ ▸ rfl))
  obtain ⟨o', -, rfl⟩ := h₂
  exact Or.inl rfl

theorem Plain.replaceLeaf (h : Plain g A F d) : Ensures (replaceLeaf id n) d
    (fun _ d' => d'.dirty ∨ Plain g A F d') (fun d' => d'.dirty ∨ Plain g A F d') := by
  refine ensures_inputProvenance_bind (Or.inr h) fun q => ?_
  exact ensures_emit.mono (fun _ _ _ h => Or.inl h) fun _ h => Or.inl h

theorem Plain.absorb {out : NodeId} {sources : List NodeId} (h : Plain g A F d) (hA : A) :
    Ensures (absorb out sources) d (fun _ => Plain g A F) (Plain g A F) :=
  ensures_provenanceOf_bind h fun _ _ => ensures_modify.2 (h.credit hA)

variable [Scalar α]

theorem Plain.copyOperands {fuel : ℕ} {l : List NodeId} (h : Plain g A F d) (hl : ∀ o ∈ l, g.Uses id o)
    (hcopy : ∀ o ∈ l, ∀ d, Plain g A F d → Ensures (Draft.copyWith fuel o) d
      (fun r d' => Plain g A F d' ∧ Copied g o d r d') (Plain g A F)) :
    Ensures (collect (Draft.copyWith fuel) l) d (fun r d' => Plain g A F d' ∧
      Adopts { i | Relation.TransGen g.Uses id i } d d' ∧ ∃ js, r = some js ∧ d'.Images l js)
      (Plain g A F) := by
  refine ensures_collect (R := fun o j d => d.mapping.get? o = some j) (Adopts.refl _)
    (fun _ _ _ => .trans) (fun o j _ _ hK hj => hK.kept o j hj) (fun o ho d₁ h₁ => ?_) h
  refine (hcopy o ho d₁ h₁).mono (fun r d₂ _ h₂ => ?_) fun _ h => h
  exact ⟨h₂.1, h₂.2.1.mono fun i hi => .head' (hl o ho) hi, h₂.2.2⟩

/-- On a plain draft copying only copies; it fails for an unknown node, or on a circle. -/
theorem Plain.copyWith {fuel : ℕ} (h : Plain g A F d) : Ensures (copyWith fuel id) d
    (fun r d' => Plain g A F d' ∧ Copied g id d r d') (Plain g A F) := by
  induction fuel generalizing id d with
  | zero => exact ensures_throw.2 h
  | succ fuel ih =>
    refine ensures_get_bind.2 ?_
    rw [h.removed id, h.mapped?_eq id, if_neg Bool.false_ne_true]
    cases hmap : d.mapping.get? id with
    | some j => exact ensures_pure.2 ⟨h, .refl _ d, j, rfl, hmap⟩
    | none =>
      rw [h.input]
      cases hentry : g.get? id with
      | none => exact ensures_throw.2 h
      | some entry =>
        have hn : g.node? id = some entry.node := by rw [Generation.node?, hentry]; rfl
        have hq : g.provenance? id = some entry.provenance := by
          rw [Generation.provenance?, hentry]
          rfl
        dsimp only
        split
        · rename_i e hnode
          rw [hnode] at hn
          have huses : ∀ o ∈ e.operands, g.Uses id o := fun o ho => by
            rw [Generation.Uses, Generation.operands_of_node? hn]
            exact ho
          refine ensures_bind.2 ((h.copyOperands huses fun _ _ _ h => ih h).mono (fun r d₁ _ h₁ => ?_)
            fun _ h => h)
          obtain ⟨h₁, hadopts, js, rfl, hjs⟩ := h₁
          -- The node has not been copied along with its operands, or it would be on a circle.
          have hmap₁ : d₁.mapping.get? id = none := by
            by_contra hsome
            obtain ⟨k, hk⟩ := Option.ne_none_iff_exists'.1 hsome
            rcases hadopts.new id k hk with hk' | hcircle
            · rw [hmap] at hk'
              cases hk'
            · exact h₁.acyclic id k hk hcircle
          refine (h₁.insertCopy hn hmap₁ hjs hq).mono (fun r d₂ _ h₂ => ?_) fun _ h => h
          exact ⟨h₂.1, (hadopts.mono fun i hi => hi.to_reflTransGen).trans h₂.2.1, h₂.2.2⟩
        · rename_i hleaf
          have hoperands : entry.node.operands = [] ∧ entry.node.withOperands [] = entry.node := by
            cases hnode : entry.node with
            | expression e => exact absurd hnode (hleaf e)
            | _ => exact ⟨rfl, rfl⟩
          have hnone : d.Images entry.node.operands [] := by
            rw [hoperands.1]
            exact .nil
          have hcopy := h.insertCopy hn hmap hnone hq
          rwa [hoperands.2] at hcopy

theorem Plain.copy (h : Plain g A F d) : Ensures (copy id) d
    (fun r d' => Plain g A F d' ∧ Copied g id d r d') (Plain g A F) :=
  ensures_get_bind.2 h.copyWith

theorem Plain.resolve {x : Operand α} (h : Plain g A F d) (hx : ∀ s, x = .literal s → F) :
    Ensures (resolve q x) d (fun r d' => Plain g A F d' ∧ ∃ j, r = some j) (Plain g A F) := by
  cases x with
  | input o => exact h.copy.mono (fun r d' _ h' => ⟨h'.1, h'.2.2.imp fun _ hj => hj.1⟩) fun _ h => h
  | output c =>
    refine ensures_get_bind.2 ?_
    split_ifs
    · exact ensures_pure.2 ⟨h, c, rfl⟩
    · exact ensures_throw.2 h
  | literal s =>
    refine ensures_map.2 (ensures_insert.mono (fun j d₁ _ h₁ => ?_) fun d₁ h₁ => h₁ ▸ h)
    obtain ⟨o', henter, rfl⟩ := h₁
    exact ⟨h.insertLiteral (hx s rfl) henter, j, rfl⟩

theorem Plain.resolveAll {l : List (Operand α)} (h : Plain g A F d) (hl : ∀ s, .literal s ∈ l → F) :
    Ensures (collect (Draft.resolve q) l) d (fun r d' => Plain g A F d' ∧ ∃ js, r = some js)
      (Plain g A F) := by
  refine (ensures_collect (I := Plain g A F) (E := Plain g A F) (K := fun _ _ => True)
    (R := fun _ _ _ => True) (fun _ => trivial) (fun _ _ _ _ _ => trivial)
    (fun _ _ _ _ _ _ => trivial) (fun x hx d₁ h₁ => ?_) h).mono (fun r d' _ h' => ?_) fun _ h => h
  · refine (h₁.resolve fun s hs => hl s (hs ▸ hx)).mono (fun r d₂ _ h₂ => ?_) fun _ h => h
    exact ⟨h₂.1, trivial, h₂.2.imp fun _ hj => ⟨hj, trivial⟩⟩
  · exact ⟨h'.1, h'.2.2.imp fun _ hjs => hjs.1⟩

/-- Removing does not fail. A copy goes with the node. -/
theorem ensures_removal {Q : PUnit → Draft α → Prop} {E : Draft α → Prop}
    (hnone : ∀ journal, d.mapping.get? id = none →
      Q ⟨⟩ { d with dirty := true, removed := d.removed.insert id (), journal })
    (hsome : ∀ journal out, d.mapping.get? id = some out →
      Q ⟨⟩ { removeOutput { d with
        dirty := true, removed := d.removed.insert id (), mapping := d.mapping.erase id } out with journal }) :
    Ensures (remove id) d Q E := by
  refine ensures_modify_bind.2 (ensures_modify_bind.2 (ensures_modify_bind.2
    (ensures_get_bind.2 (ensures_modify.2 ?_))))
  dsimp only
  cases hmap : d.mapping.get? id with
  | none => exact hnone _ hmap
  | some out => exact hsome _ out hmap

theorem ensures_remove : Ensures (remove id) d (fun _ d' => d'.dirty) (·.dirty) :=
  ensures_removal (fun _ _ => rfl) fun _ _ _ => rfl

theorem Plain.editParameter {change : Parameter α → Parameter α} (h : Plain g A F d) :
    Ensures (editParameter id change) d (fun _ d' => d'.dirty ∨ Plain g A F d')
      (fun d' => d'.dirty ∨ Plain g A F d') := by
  have hemit : ∀ {d₁ : Draft α} {p : Parameter α} {q : Provenance},
      Ensures (some <$> emit id (.parameter p) q) d₁ (fun _ d' => d'.dirty ∨ Plain g A F d')
        (fun d' => d'.dirty ∨ Plain g A F d') :=
    ensures_map.2 (ensures_emit.mono (fun _ _ _ h => Or.inl h) fun _ h => Or.inl h)
  refine ensures_get_bind.2 ?_
  split_ifs
  · exact ensures_pure.2 (Or.inr h)
  dsimp only
  split
  · exact ensures_throw.2 (Or.inr h)
  split_ifs
  · exact h.copy.mono (fun _ _ _ h => Or.inr h.1) fun _ h => Or.inr h
  split
  · exact hemit
  · exact ensures_inputProvenance_bind (Or.inr h) fun _ => hemit

theorem Plain.editExpression {edit : ExpressionEdit α} (h : Plain g A F d) (hF : F → F')
    (hedit : ∀ l s, edit.operands = some l → .literal s ∈ l → F') :
    Ensures (editExpression id edit) d (fun _ d' => d'.dirty ∨ Plain g A F d')
      (fun d' => d'.dirty ∨ Plain g A F' d') := by
  refine ensures_get_bind.2 ?_
  split_ifs
  · exact ensures_pure.2 (Or.inr h)
  split
  · exact ensures_throw.2 (Or.inr (h.mono hF))
  rename_i e _
  dsimp only
  split_ifs
  · exact h.copy.mono (fun _ _ _ h => Or.inr h.1) fun _ h => Or.inr (h.mono hF)
  refine ensures_inputProvenance_bind (Or.inr (h.mono hF)) fun q => ?_
  have hl : ∀ s, .literal s ∈ edit.operands.getD (e.operands.map .input) → F' := by
    intro s hs
    cases hoperands : edit.operands with
    | none => simp [hoperands] at hs
    | some l => exact hedit l s hoperands (by simpa [hoperands] using hs)
  refine ensures_bind.2 (((h.mono hF).resolveAll hl).mono (fun r d₂ _ h₂ => ?_) fun _ h => Or.inr h)
  obtain ⟨-, js, rfl⟩ := h₂
  exact ensures_map.2 (ensures_emit.mono (fun _ _ _ h => Or.inl h) fun _ h => Or.inl h)

theorem Plain.editOperands {change : ℕ → NodeId → Operand α} (h : Plain g A F d) (hF : F → F')
    (hchange : ∀ k o s, change k o = .literal s → F') :
    Ensures (editOperands id change) d (fun _ d' => d'.dirty ∨ Plain g A F d')
      (fun d' => d'.dirty ∨ Plain g A F' d') := by
  refine ensures_get_bind.2 ?_
  split
  · exact ensures_throw.2 (Or.inr (h.mono hF))
  · refine h.editExpression hF fun l s hl hs => ?_
    cases hl
    obtain ⟨⟨o, k⟩, -, hs⟩ := List.mem_map.1 hs
    exact hchange k o s hs

theorem Plain.createExpression {op : Operator} {operands : List (Operand α)} {asserted : Bool}
    {sources : List NodeId} (h : Plain g A F d) (hF : F → F')
    (hoperands : ∀ s, .literal s ∈ operands → F') :
    Ensures (createExpression op operands asserted sources) d (fun _ d' => d'.dirty ∨ Plain g A F d')
      (fun d' => d'.dirty ∨ Plain g A F' d') := by
  refine ensures_provenanceOf_bind (Or.inr (h.mono hF)) fun q _ => ?_
  refine ensures_bind.2 (((h.mono hF).resolveAll hoperands).mono (fun r d₂ _ h₂ => ?_)
    fun _ h => Or.inr h)
  obtain ⟨h₂, js, rfl⟩ := h₂
  refine ensures_get_bind.2 ?_
  have hnew : d₂.reusable? ⟨op, js, asserted⟩ = none := by
    unfold reusable?
    rw [h₂.created]
    split_ifs <;> rfl
  rw [hnew]
  refine ensures_modify_bind.2 (ensures_insert_bind (Or.inl rfl) fun c o' _ => ?_)
  refine ensures_modify_bind.2 (ensures_pure.2 (Or.inl ?_))
  dsimp only
  split_ifs <;> rfl

/-- A call on a plain draft leaves it plain or makes it dirty. If it fails half way, literals may be
left. -/
theorem Plain.act {c : Call α} (h : Plain g A F d) (hd : d.output.Linked)
    (hA : ∀ out sources, c = .absorb out sources → A) :
    Ensures c.act d (fun _ d' => d'.dirty ∨ Plain g A F d')
      (fun d' => d'.dirty ∨ Plain g A (F ∨ c.Inlines) d') := by
  have hfails : ∀ d' : Draft α, d'.dirty ∨ Plain g A F d' → d'.dirty ∨ Plain g A (F ∨ c.Inlines) d' :=
    fun d' => Or.imp_right fun h => h.mono Or.inl
  cases c with
  | copy id =>
    exact ensures_map.2 (h.copy.mono (fun _ _ _ h => Or.inr h.1) fun _ h => Or.inr (h.mono Or.inl))
  | remove id => exact ensures_remove.mono (fun _ _ _ h => Or.inl h) fun _ h => Or.inl h
  | editParameter id change => exact ensures_map.2 (h.editParameter.mono (fun _ _ _ h => h) hfails)
  | editExpression id edit =>
    exact ensures_map.2 (h.editExpression Or.inl fun l s hl hs => Or.inr ⟨l, hl, s, hs⟩)
  | editOperands id change =>
    exact ensures_map.2 (h.editOperands Or.inl fun k o s hs => Or.inr ⟨k, o, s, hs⟩)
  | replaceLeaf id node => exact ensures_map.2 (h.replaceLeaf.mono (fun _ _ _ h => h) hfails)
  | createExpression op operands asserted sources =>
    exact ensures_map.2 (h.createExpression Or.inl fun s hs => Or.inr ⟨s, hs⟩)
  | createParameter p sources => exact ensures_map.2 (h.createLeaf.mono (fun _ _ _ h => h) hfails)
  | createLiteral value sources => exact ensures_map.2 (h.createLeaf.mono (fun _ _ _ h => h) hfails)
  | absorb out sources =>
    exact (h.absorb (hA out sources rfl)).mono (fun _ _ _ h => Or.inr h) fun _ h => Or.inr (h.mono Or.inl)
  | redirect id target =>
    refine (ensures_redirect hd).mono (fun _ _ _ h => Or.inl h) ?_
    rintro d' (h' | rfl)
    · exact Or.inl h'
    · exact Or.inr (h.mono Or.inl)

theorem Plain.after {c : Call α} (h : Plain g A F d) (hd : d.output.Linked)
    (hA : ∀ out sources, c = .absorb out sources → A) (hF : c.Inlines → ¬ Succeeds c.act d → F) :
    (d.after c).dirty ∨ Plain g A F (d.after c) := by
  have hact := h.act hd hA
  unfold Ensures at hact
  unfold Draft.after
  split at hact
  · rename_i hrun
    rwa [hrun]
  · rename_i hrun
    have hfail : ¬ Succeeds c.act d := by
      rintro ⟨r, d', hr⟩
      cases hrun.symm.trans hr
    rw [hrun]
    exact hact.imp_right fun h => h.mono fun hor => hor.elim (fun h => h) fun hc => hF hc hfail

/-- Calls leave a draft plain or make it dirty. -/
theorem Plain.afterAll {calls : List (Call α)} (hd : d.Healthy) (h : d.dirty ∨ Plain g A F d)
    (hA : ∀ out sources, .absorb out sources ∈ calls → A)
    (hF : ∀ done c rest, calls = done ++ c :: rest → c.Inlines → ¬ Succeeds c.act (d.afterAll done) → F) :
    (d.afterAll calls).dirty ∨ Plain g A F (d.afterAll calls) := by
  induction calls generalizing d with
  | nil => exact h
  | cons c calls ih =>
    have hsteps := steps_after hd.output.toLinked c
    refine ih (hsteps.healthy hd) ?_ (fun out sources hmem => hA out sources (.tail _ hmem))
      fun done c' rest hcalls => hF (c :: done) c' rest (by rw [hcalls]; rfl)
    rcases h with hdirty | h
    · exact Or.inl (hsteps.dirty hdirty)
    · exact h.after hd.output.toLinked (fun out sources hc => hA out sources (by simp [hc])) (hF [] c calls rfl)

theorem Plain.of_close {rev : Revision α} (h : Plain g A F d) (hr : Runs close d rev d') :
    Plain g A F d' ∧ (∀ i, g.contains i → ∃ j, d'.mapping.get? i = some j) ∧
      rev = ⟨d'.output, d'.dirty, d'.mapping⟩ := by
  obtain ⟨hloop, rfl⟩ := runs_close.1 hr
  obtain ⟨h', hall⟩ := runs_forM (l := d.input.order) (d := d)
    (P := fun done d' => Plain g A F d' ∧ ∀ i ∈ done, ∃ j, d'.mapping.get? i = some j)
    (fun done x rest _ d₁ d₂ _ ⟨h₁, hall⟩ hr => by
      obtain ⟨r, hr⟩ := runs_discard.1 hr
      obtain ⟨h₂, hadopts, j, -, hj⟩ := h₁.copy.of_runs hr
      refine ⟨h₂, fun i hi => ?_⟩
      rcases List.mem_append.1 hi with hi | hi
      · exact (hall i hi).imp fun k hk => hadopts.kept i k hk
      · rw [List.mem_singleton.1 hi]
        exact ⟨j, hj⟩)
    (List.nil_append _) ⟨h, by simp⟩ hloop
  refine ⟨h', fun i hi => hall i ?_, rfl⟩
  rw [h.input]
  exact NodeMap.mem_keys.2 hi

end Edits

theorem Plain.embeds (h : Plain g A F d) (hall : ∀ i, g.contains i → ∃ j, d.mapping.get? i = some j) :
    g.Embeds (image d.mapping) d.output where
  injOn := injOn_image hall h.injective
  node? i hi := by
    obtain ⟨j, hj⟩ := hall i hi
    exact h.transcribes.node?_image hj
  provenance? i p hp := by
    obtain ⟨j, hj⟩ := hall i (Generation.contains_of_provenance? hp)
    obtain ⟨p', q, hp', hq, hpq, -⟩ := h.origins i j hj
    cases hp.symm.trans hp'
    exact ⟨q, by rw [image_eq hj, hq], hpq⟩
  extra j hj := by
    by_cases hbound : ∃ i, d.mapping.get? i = some j
    · obtain ⟨i, hi⟩ := hbound
      exact Or.inl ⟨i, (h.transcribes.contains hi).1, image_eq hi⟩
    · refine Or.inr ⟨((h.extra j hj).resolve_left hbound).2, fun k hk => hbound ?_⟩
      -- What uses a node is no literal, so it is a copy and uses copies.
      obtain ⟨n, hn⟩ := Generation.node?_of_mem_operands hk
      rcases h.extra k (Generation.contains_of_node? hn) with ⟨i, hi⟩ | ⟨-, s, hs⟩
      · obtain ⟨o, -, ho⟩ := h.transcribes.exists_operand hi hk
        exact ⟨o, ho⟩
      · rw [Generation.operands_of_node? hs] at hk
        cases hk

/-- After any calls on a valid graph, those that fail included, a draft that is clean when it is closed
holds a copy of its input. Nothing is there but the copies if no call failed that had literals among
its operands, and they have the origins of the input nodes if no origins were added. -/
theorem embeds_of_clean [Scalar α] (hv : g.validate = .ok ()) {deduplicate : Bool} {journal : Journal}
    {calls : List (Call α)} {rev : Revision α}
    (hr : Runs close ((start g deduplicate journal).afterAll calls) rev d') (hclean : rev.dirty = false) :
    (∀ i, (∃ j, rev.mapping.get? i = some j) ↔ g.contains i) ∧
    g.Embeds (image rev.mapping) rev.generation ∧
    ((∀ done c rest, calls = done ++ c :: rest → c.Inlines →
        Succeeds c.act ((start g deduplicate journal).afterAll done)) →
      ∀ j, rev.generation.contains j → ∃ i, g.contains i ∧ image rev.mapping i = j) ∧
    ((∀ out sources, .absorb out sources ∉ calls) →
      ∀ i, g.contains i → rev.generation.provenance? (image rev.mapping i) = g.provenance? i) := by
  have hhealthy := healthy_start hv deduplicate journal
  have hcases : ((start g deduplicate journal).afterAll calls).dirty ∨
      Plain g (∃ out sources, .absorb out sources ∈ calls)
        (∃ done c rest, calls = done ++ c :: rest ∧ c.Inlines ∧
          ¬ Succeeds c.act ((start g deduplicate journal).afterAll done))
        ((start g deduplicate journal).afterAll calls) :=
    Plain.afterAll hhealthy (Or.inr (plain_start _ _ _ _ _))
      (fun out sources h => ⟨out, sources, h⟩)
      fun done c rest h hc hfail => ⟨done, c, rest, h, hc, hfail⟩
  rcases hcases with hdirty | h
  · have hclosed := Steps.dirty (Ensures.of_runs goes_close hr).1 hdirty
    rw [(runs_close.1 hr).2, hclosed] at hclean
    cases hclean
  · obtain ⟨h', hall, rfl⟩ := h.of_close hr
    refine ⟨fun i => ⟨fun ⟨j, hj⟩ => (h'.transcribes.contains hj).1, hall i⟩, h'.embeds hall, ?_, ?_⟩
    · intro hsucceeds j hj
      rcases h'.extra j hj with ⟨i, hi⟩ | ⟨⟨done, c, rest, hcalls, hc, hfail⟩, -⟩
      · exact ⟨i, (h'.transcribes.contains hi).1, image_eq hi⟩
      · exact absurd (hsucceeds done c rest hcalls hc) hfail
    · intro hnone i hi
      obtain ⟨j, hj⟩ := hall i hi
      obtain ⟨p, q, hp, hq, -, rfl | ⟨out, sources, hmem⟩⟩ := h'.origins i j hj
      · rw [image_eq hj, hq, hp]
      · exact absurd hmem (hnone out sources)

end Draft

namespace Sample

/-- Two numbers. -/
def pair : Blueprint Float :=
  let b := (Blueprint.empty.addParameter { Parameter.real with name := some "a" }).2
  (b.addParameter { Parameter.real with name := some "b" }).2

/-- The first call fails once it has written a literal, the last one adds origins. -/
def unnoticed : List (Call Float) :=
  [.createExpression .add [.literal (.number 1), .output .null] false [.nth 0], .copy (.nth 0),
    .absorb (.nth 1) [.nth 1]]

/-- The second call fails once it has copied a node. -/
def futile : List (Call Float) :=
  [.copy (.nth 1), .createExpression .add [.input (.nth 0), .output .null] false [.nth 0]]

theorem not_inlines_futile : ∀ c ∈ futile, ¬ c.Inlines := by
  intro c hc
  rcases List.mem_pair.1 hc with rfl | rfl <;> simp [Call.Inlines]

end Sample

/-- The draft is clean, but it holds a literal that is not a copy, and one of the copies has the origin
of the other. -/
theorem Draft.not_copies_of_clean : Sample.pair.generation.validate = .ok () ∧
    ∃ rev d', Runs close ((start Sample.pair.generation false .empty).afterAll Sample.unnoticed) rev d' ∧
      rev.dirty = false ∧
      (∃ j, rev.generation.contains j ∧ ∀ i ∈ Sample.pair.generation.order, image rev.mapping i ≠ j) ∧
      ∃ i, Sample.pair.generation.contains i ∧
        rev.generation.provenance? (image rev.mapping i) ≠ Sample.pair.generation.provenance? i := by
  refine ⟨rfl, _, _, rfl, rfl, ⟨.nth 0, rfl, ?_⟩, .nth 0, rfl, ?_⟩ <;> decide +kernel

/-- A call that fails leaves a plain copy if it has no literal to write. -/
theorem Draft.embeds_of_clean_pair : ∃ rev d',
    Runs close ((start Sample.pair.generation false .empty).afterAll Sample.futile) rev d' ∧
      rev.dirty = false ∧ Sample.pair.generation.Embeds (image rev.mapping) rev.generation ∧
      ∀ j, rev.generation.contains j → ∃ i, Sample.pair.generation.contains i ∧ image rev.mapping i = j := by
  obtain ⟨rev, d', hr, hclean⟩ : ∃ rev d', Runs close
      ((start Sample.pair.generation false .empty).afterAll Sample.futile) rev d' ∧
        rev.dirty = false := by
    refine ⟨_, _, rfl, rfl⟩
  obtain ⟨-, hembeds, honto, -⟩ := embeds_of_clean rfl hr hclean
  refine ⟨rev, d', hr, hclean, hembeds, honto fun done c rest h hc => ?_⟩
  exact absurd hc (Sample.not_inlines_futile c (by rw [h]; simp))

end ParameterSolver
