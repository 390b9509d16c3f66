import ParameterSolver.Proofs.Draft.Clean

/-! What a draft looks like after copying, on any input and from any draft, also where copying fails.
Nothing that was there changes. A node gets its output node when all its operands have theirs, and it
is removed when one of them is, so that what becomes mapped and what becomes removed stay apart. This
holds on a circle of operands as well. -/

namespace ParameterSolver.Draft

variable {α β γ : Type} {d d' d'' : Draft α} {id i j o : NodeId} {n : Node α} {q : Provenance}

/-- What stands for an input node is there. -/
def Anchored (d : Draft α) : Prop := ∀ i j, d.mapping.get? i = some j → d.output.contains j

/-- The output node stands for the input node, which is not removed. -/
def Bears (d : Draft α) (i j : NodeId) : Prop := d.mapping.get? i = some j ∧ d.isRemoved i = false

theorem Anchored.mapped?_eq (hd : d.Anchored) (i : NodeId) : d.mapped? i = d.mapping.get? i := by
  unfold mapped?
  cases hj : d.mapping.get? i with
  | none => rfl
  | some j => simp [hd i j hj]

/-- What copying does. -/
structure Copying (d d' : Draft α) : Prop extends Retains d d' where
  input : d'.input = d.input
  created : d'.created = d.created
  deduplicate : d'.deduplicate = d.deduplicate
  anchored : d'.Anchored
  /-- Nodes are only added, and under ids that no node has had. -/
  issued : ∀ k, d.output.Issued k → d'.output.Issued k ∧ d'.output.node? k = d.output.node? k
  bound : ∀ i j, d'.mapping.get? i = some j → d.mapping.get? i = some j ∨
    ¬ d.output.Issued j ∧ d'.isRemoved i = false ∧ ∀ o ∈ d.input.operands i, ∃ k, d'.Bears o k
  struck : ∀ i, d'.isRemoved i → d.isRemoved i ∨ d'.mapping.get? i = none

theorem Copying.refl (hd : d.Anchored) : Copying d d :=
  ⟨.refl d, rfl, rfl, rfl, hd, fun _ hk => ⟨hk, rfl⟩, fun _ _ h => Or.inl h, fun _ h => Or.inl h⟩

theorem Copying.bears (h : Copying d d') (hj : d.Bears i j) : d'.Bears i j := by
  have hmap := h.mapping i j hj.1
  refine ⟨hmap, Bool.eq_false_iff.2 fun hi => ?_⟩
  rcases h.struck i hi with hi | hi
  · rw [hj.2] at hi
    cases hi
  · rw [hmap] at hi
    cases hi

theorem Copying.trans (h : Copying d d') (h' : Copying d' d'') : Copying d d'' := by
  refine ⟨h.toRetains.trans h'.toRetains, h'.input.trans h.input, h'.created.trans h.created,
    h'.deduplicate.trans h.deduplicate, h'.anchored, fun k hk => ?_, fun i j hj => ?_, fun i hi => ?_⟩
  · obtain ⟨hk', hn⟩ := h.issued k hk
    obtain ⟨hk'', hn'⟩ := h'.issued k hk'
    exact ⟨hk'', hn'.trans hn⟩
  · rcases h'.bound i j hj with hj' | hnew
    · refine (h.bound i j hj').imp_right fun ⟨hfresh, hi, hall⟩ => ?_
      refine ⟨hfresh, (h'.bears ⟨hj', hi⟩).2, fun o ho => ?_⟩
      obtain ⟨k, hk⟩ := hall o ho
      exact ⟨k, h'.bears hk⟩
    · rw [h.input] at hnew
      exact Or.inr ⟨fun hj => hnew.1 (h.issued j hj).1, hnew.2⟩
  · rcases h'.struck i hi with hi' | hnone
    · refine (h.struck i hi').imp_right fun hnone => ?_
      -- Copied after it was removed: that does not happen.
      by_contra hsome
      obtain ⟨j, hj⟩ := Option.ne_none_iff_exists'.1 hsome
      rcases h'.bound i j hj with hj' | ⟨-, hi'', -⟩
      · rw [hnone] at hj'
        cases hj'
      · rw [hi] at hi''
        cases hi''
    · exact Or.inr hnone

theorem copying_insert {o' : Generation α} (hd : d.Anchored) (henter : d.output.Entered j n q o') :
    Copying d { d with output := o' } := by
  refine ⟨retains_insert henter, rfl, rfl, rfl, fun i k hk => ?_, fun k hk => ?_, fun _ _ h => Or.inl h,
    fun _ h => Or.inl h⟩
  · exact henter.contains (hd i k hk)
  · refine ⟨henter.issued k hk, henter.node?_of_ne ?_⟩
    rintro rfl
    exact henter.not_issued hk

/-- A node gets its output node, after its operands. On a circle it might have got one with them,
which the new one replaces. -/
theorem Copying.bind {o' : Generation α} (h : Copying d d') (hid : id ≠ .null)
    (hmap : d.mapping.get? id = none) (hremoved : d'.isRemoved id = false)
    (hall : ∀ o ∈ d.input.operands id, ∃ k, d'.Bears o k) (henter : d'.output.Entered j n q o') :
    Copying d { d' with output := o', mapping := d'.mapping.insert id j } := by
  have hins := h.trans (copying_insert h.anchored henter)
  have hkept : ∀ i k, d.mapping.get? i = some k → (d'.mapping.insert id j).get? i = some k := by
    intro i k hk
    rw [NodeMap.get?_insert_other, h.mapping i k hk]
    rintro rfl
    rw [hmap] at hk
    cases hk
  have hfresh : ¬ d.output.Issued j := fun hj => henter.not_issued (h.issued j hj).1
  have hbears : ∀ i k, d'.Bears i k →
      ∃ k, Bears { d' with output := o', mapping := d'.mapping.insert id j } i k := by
    intro i k hk
    by_cases hi : i = id
    · exact ⟨j, by rw [hi]; exact NodeMap.get?_insert_self hid, hk.2⟩
    · exact ⟨k, (NodeMap.get?_insert_other hi).trans hk.1, hk.2⟩
  refine ⟨⟨hins.node?, hkept, hins.removed, fun k hk hfree i hi => ?_⟩, hins.input, hins.created, hins.deduplicate,
    fun i k hk => ?_, hins.issued, fun i k hk => ?_, fun i hi => ?_⟩
  · rcases get?_bound hid hi with ⟨-, rfl⟩ | ⟨-, hi⟩
    · exact henter.ne_of_contains (h.contains hk) rfl
    · exact h.unbound k hk hfree i hi
  · rcases get?_bound hid hk with ⟨-, rfl⟩ | ⟨-, hk⟩
    · exact Generation.contains_of_node? henter.node?_self
    · exact hins.anchored i k hk
  · have hnew : ∀ i, (d'.isRemoved i = false ∧ ∀ o ∈ d.input.operands i, ∃ k, d'.Bears o k) →
        d'.isRemoved i = false ∧ ∀ o ∈ d.input.operands i,
          ∃ k, Bears { d' with output := o', mapping := d'.mapping.insert id j } o k :=
      fun i hi => ⟨hi.1, fun o ho => (hi.2 o ho).elim (hbears o)⟩
    rcases get?_bound hid hk with ⟨rfl, rfl⟩ | ⟨-, hk⟩
    · exact Or.inr ⟨hfresh, hnew i ⟨hremoved, hall⟩⟩
    · exact (h.bound i k hk).imp_right (And.imp_right (hnew i))
  · refine (h.struck i hi).imp_right fun hnone => ?_
    rw [NodeMap.get?_insert_other, hnone]
    rintro rfl
    rw [show d'.isRemoved i = true from hi] at hremoved
    cases hremoved

/-- A node goes that has no output node. -/
theorem copying_strike {journal : Journal} (hid : id ≠ .null) (hd : d.Anchored)
    (hmap : d.mapping.get? id = none) :
    Copying d { d with journal, removed := d.removed.insert id (), dirty := true } := by
  refine ⟨⟨fun _ _ h => h, fun _ _ h => h, fun i hi => ?_, fun _ _ h => h⟩, rfl, rfl, rfl, hd,
    fun k hk => ⟨hk, rfl⟩, fun _ _ h => Or.inl h, fun i hi => ?_⟩
  · exact (NodeMap.contains_insert hid).2 (Or.inl hi)
  · rcases (NodeMap.contains_insert hid).1 hi with hi | rfl
    · exact Or.inl hi
    · exact Or.inr hmap

/-- The edit only copies, and its result is `R`, or there is none since something is `G`one. -/
def Brings (m : Edit α (Option β)) (d : Draft α) (R : β → Draft α → Prop) (G : Draft α → Prop) :
    Prop :=
  Ensures m d (fun r d' => Copying d d' ∧ (∀ y, r = some y → R y d' ∧ d'.removed = d.removed) ∧
    (r = none → G d')) (Copying d)

theorem brings_collect {f : β → Edit α (Option γ)} {l : List β} {R : β → γ → Draft α → Prop}
    {G : β → Draft α → Prop} (hR : ∀ x y d d', Copying d d' → R x y d → R x y d')
    (hf : ∀ x ∈ l, ∀ d', Copying d d' → Brings (f x) d' (R x) (G x)) (hd : d.Anchored) :
    Brings (collect f l) d (fun ys d' => List.Forall₂ (fun x y => R x y d') l ys)
      (fun d' => ∃ x ∈ l, G x d') := by
  induction l generalizing d with
  | nil =>
    refine ensures_pure.2 ⟨.refl hd, fun ys hys => ?_, by simp⟩
    cases hys
    exact ⟨.nil, rfl⟩
  | cons x l ih =>
    refine ensures_bind.2 ((hf x (by simp) d (.refl hd)).mono (fun r d₁ _ h => ?_) fun _ h => h)
    obtain ⟨h₁, hsome, hnone⟩ := h
    cases r with
    | none => exact ensures_pure.2 ⟨h₁, by simp, fun _ => ⟨x, by simp, hnone rfl⟩⟩
    | some y =>
      obtain ⟨hy, hsame⟩ := hsome y rfl
      refine ensures_bind.2 ((ih (fun z hz d' h => hf z (.tail _ hz) d' (h₁.trans h)) h₁.anchored).mono
        (fun r d₂ _ h => ?_) fun _ h => h₁.trans h)
      obtain ⟨h₂, hsome', hnone'⟩ := h
      refine ensures_pure.2 ⟨h₁.trans h₂, fun ys hys => ?_, fun hr => ?_⟩
      · obtain ⟨zs, hzs, rfl⟩ := Option.map_eq_some_iff.1 hys
        obtain ⟨hall, hsame'⟩ := hsome' zs hzs
        exact ⟨.cons (hR x y _ _ h₂ hy) hall, hsame'.trans hsame⟩
      · obtain ⟨z, hz, hgone⟩ := hnone' (Option.map_eq_none_iff.1 hr)
        exact ⟨z, .tail _ hz, hgone⟩

/-- Adding the copy of a node whose operands have been copied. -/
theorem Copying.insertCopy (h : Copying d d') (hid : id ≠ .null) (hmap : d.mapping.get? id = none)
    (hsame : d'.removed = d.removed) (hremoved : d.isRemoved id = false)
    (hall : ∀ o ∈ d.input.operands id, ∃ k, d'.Bears o k) :
    Ensures (insertCopy id n q) d' (fun r d'' => Copying d d'' ∧
      (∀ j, r = some j → d''.Bears id j ∧ d''.removed = d.removed) ∧ (r = none → d''.isRemoved id))
      (Copying d) := by
  have hremoved' : d'.isRemoved id = false := by rwa [isRemoved, hsame]
  refine ensures_insert_bind h fun j o' henter => ?_
  refine ensures_modify_bind.2 (ensures_pure.2
    ⟨h.bind hid hmap hremoved' hall henter, fun k hk => ⟨⟨?_, hremoved'⟩, hsame⟩, by simp⟩)
  rw [← Option.some.inj hk]
  exact NodeMap.get?_insert_self hid

section Edits

variable {Q : NodeId → Draft α → Prop} {E : Draft α → Prop}

/-- The output node of an input node is written in its place, or entered as a new one. -/
theorem Anchored.ensures_emit (hd : d.Anchored) (hE : E { d with dirty := true })
    (hreplace : ∀ j o', d.mapping.get? id = some j → d.output.Rewritten j n q o' →
      Q j { d with dirty := true, output := o' })
    (henter : ∀ j o', d.output.Entered j n q o' →
      Q j { d with dirty := true, output := o', mapping := d.mapping.insert id j }) :
    Ensures (emit id n q) d Q E := by
  refine ensures_modify_bind.2 (ensures_get_bind.2 ?_)
  have hmapped : ({ d with dirty := true } : Draft α).mapped? id = d.mapping.get? id := hd.mapped?_eq id
  rw [hmapped]
  split
  · rename_i j hj
    split
    · rename_i o' hrep
      exact ensures_set_bind.2 (ensures_pure.2 (hreplace j o' hj (Generation.rewritten_of_replace hrep)))
    · exact ensures_throw.2 hE
  · exact ensures_insert_bind hE fun j o' h => ensures_modify_bind.2 (ensures_pure.2 (henter j o' h))

/-- New leaves are only entered. -/
theorem ensures_createLeaf {sources : List NodeId} (hE : E d) (hdirty : E { d with dirty := true })
    (henter : ∀ j q o', d.output.Entered j n q o' → Q j { d with dirty := true, output := o' }) :
    Ensures (do
      let q ← provenanceOf sources
      markDirty
      Draft.insert n q) d Q E := by
  refine ensures_provenanceOf_bind hE fun q _ => ensures_modify_bind.2 ?_
  refine ensures_insert.mono (fun j d' _ h => ?_) fun d' h => ?_
  · obtain ⟨o', h, rfl⟩ := h
    exact henter j q o' h
  · rwa [h]

end Edits

variable [Scalar α]

/-- Copying a node gives what stands for it, and removes nothing, or finds it removed. -/
theorem brings_copyWith {fuel : ℕ} (hd : d.Anchored) :
    Brings (copyWith fuel id) d (fun j d' => d'.Bears id j) (fun d' => d'.isRemoved id) := by
  induction fuel generalizing id d with
  | zero => exact ensures_throw.2 (.refl hd)
  | succ fuel ih =>
    refine ensures_get_bind.2 ?_
    split_ifs with hremoved
    · exact ensures_pure.2 ⟨.refl hd, by simp, fun _ => hremoved⟩
    rw [Bool.not_eq_true] at hremoved
    rw [hd.mapped?_eq]
    cases hmap : d.mapping.get? id with
    | some j =>
      refine ensures_pure.2 ⟨.refl hd, fun k hk => ⟨⟨?_, hremoved⟩, rfl⟩, by simp⟩
      rw [hmap, hk]
    | none =>
      cases hentry : d.input.get? id with
      | none => exact ensures_throw.2 (.refl hd)
      | some entry =>
        have hn : d.input.node? id = some entry.node := by rw [Generation.node?, hentry]; rfl
        have hnull := Generation.ne_null_of_contains (Generation.contains_of_node? hn)
        dsimp only
        split
        · rename_i e hnode
          have hops : d.input.operands id = e.operands := by
            rw [Generation.operands_of_node? hn, hnode]
            rfl
          refine ensures_bind.2 ((brings_collect (R := fun o j d => d.Bears o j)
            (fun o j _ _ h => h.bears) (fun o _ d' h => ih h.anchored) hd).mono
            (fun r d₁ _ h => ?_) fun _ h => h)
          obtain ⟨h₁, hsome, hnone⟩ := h
          cases r with
          | none =>
            obtain ⟨o, ho, hgone⟩ := hnone rfl
            -- Had it been copied along with its operands, none of them would be removed.
            have hmap₁ : d₁.mapping.get? id = none := by
              by_contra h
              obtain ⟨k, hk⟩ := Option.ne_none_iff_exists'.1 h
              rcases h₁.bound id k hk with hk' | ⟨-, -, hall⟩
              · rw [hmap] at hk'
                cases hk'
              · obtain ⟨c, -, hc⟩ := hall o (hops ▸ ho)
                rw [hgone] at hc
                cases hc
            have hstrike : ∀ journal, Copying d
                { d₁ with journal, removed := d₁.removed.insert id (), dirty := true } := fun journal =>
              h₁.trans (copying_strike hnull h₁.anchored hmap₁)
            refine ensures_get_bind.2 (ensures_modify_bind.2 (ensures_modify_bind.2
              (ensures_modify_bind.2 (ensures_pure.2 ⟨hstrike _, by simp, fun _ => ?_⟩))))
            exact (NodeMap.contains_insert hnull).2 (Or.inr rfl)
          | some js =>
            obtain ⟨hall, hsame⟩ := hsome js rfl
            refine h₁.insertCopy hnull hmap hsame hremoved fun o ho => ?_
            rw [hops] at ho
            obtain ⟨i, hi, rfl⟩ := List.mem_iff_getElem.1 ho
            exact ⟨_, hall.get hi (hall.length_eq ▸ hi)⟩
        · rename_i hleaf
          refine (Copying.refl hd).insertCopy hnull hmap rfl hremoved fun o ho => ?_
          rw [Generation.operands_of_node? hn] at ho
          cases hnode : entry.node with
          | expression e => exact absurd hnode (hleaf e)
          | _ => rw [hnode] at ho; cases ho

theorem brings_copy (hd : d.Anchored) :
    Brings (copy id) d (fun j d' => d'.Bears id j) (fun d' => d'.isRemoved id) :=
  ensures_get_bind.2 (brings_copyWith hd)

theorem brings_resolve {x : Operand α} (hd : d.Anchored) :
    Brings (resolve q x) d (fun j d' => x.Names d' j) (fun d' => ∃ o, x = .input o ∧ d'.isRemoved o) := by
  cases x with
  | input o =>
    refine (brings_copy hd).mono (fun r d' _ h => ?_) fun _ h => h
    obtain ⟨h, hsome, hnone⟩ := h
    refine ⟨h, fun j hj => ?_, fun hr => ⟨o, rfl, hnone hr⟩⟩
    obtain ⟨hbears, hsame⟩ := hsome j hj
    exact ⟨hbears.1, hsame⟩
  | output c =>
    refine ensures_get_bind.2 ?_
    split_ifs with hc
    · refine ensures_pure.2 ⟨.refl hd, fun j hj => ?_, by simp⟩
      cases hj
      exact ⟨⟨rfl, hc⟩, rfl⟩
    · exact ensures_throw.2 (.refl hd)
  | literal s =>
    have hrefl := Copying.refl hd
    refine ensures_map.2 (ensures_insert.mono (fun j d₁ _ h₁ => ?_) fun d₁ h₁ => h₁ ▸ hrefl)
    obtain ⟨o', henter, rfl⟩ := h₁
    refine ⟨copying_insert hd henter, fun k hk => ?_, by simp⟩
    rw [← Option.some.inj hk]
    refine ⟨⟨henter.node?_self, fun i hi => ?_⟩, rfl⟩
    exact henter.ne_of_contains (hd i j hi) rfl

theorem brings_resolveAll {l : List (Operand α)} (hd : d.Anchored) :
    Brings (collect (resolve q) l) d (fun js d' => List.Forall₂ (fun x j => x.Names d' j) l js)
      (fun d' => ∃ x ∈ l, ∃ o, x = .input o ∧ d'.isRemoved o) :=
  brings_collect (fun _ _ _ _ h => h.names) (fun _ _ _ h => brings_resolve h.anchored) hd

section Edits

variable {Q : Option NodeId → Draft α → Prop} {E : Draft α → Prop}

/-- A parameter that is changed is written, or else only copied. -/
theorem Anchored.ensures_editParameter {change : Parameter α → Parameter α} (hd : d.Anchored)
    (hcopy : ∀ r d', Copying d d' → Q r d') (hfail : ∀ d', Copying d d' → E d')
    (hemit : d.isRemoved id = false → ∀ n q, Ensures (emit id n q) d (fun j => Q (some j)) E) :
    Ensures (editParameter id change) d Q E := by
  have hrefl := Copying.refl hd
  refine ensures_get_bind.2 ?_
  split_ifs with hremoved
  · exact ensures_pure.2 (hcopy none d hrefl)
  rw [Bool.not_eq_true] at hremoved
  dsimp only
  split
  · exact ensures_throw.2 (hfail d hrefl)
  split_ifs
  · exact (brings_copy hd).mono (fun r d' _ h => hcopy r d' h.1) hfail
  split
  · exact ensures_map.2 (hemit hremoved _ _)
  · exact ensures_inputProvenance_bind (hfail d hrefl) fun q => ensures_map.2 (hemit hremoved _ q)

/-- The operands of an expression that is changed are brought to the output. Then it is written, or it
is removed because one of them is gone. -/
theorem Anchored.ensures_editExpression {edit : ExpressionEdit α} (hd : d.Anchored)
    (hcopy : ∀ r d', Copying d d' → Q r d') (hfail : ∀ d', Copying d d' → E d')
    (hremove : ∀ d', Copying d d' → Ensures (remove id) d' (fun _ => Q none) E)
    (hemit : ∀ d', Copying d d' → d'.isRemoved id = false → ∀ n q,
      Ensures (emit id n q) d' (fun j => Q (some j)) E) :
    Ensures (editExpression id edit) d Q E := by
  have hrefl := Copying.refl hd
  refine ensures_get_bind.2 ?_
  split_ifs with hremoved
  · exact ensures_pure.2 (hcopy none d hrefl)
  rw [Bool.not_eq_true] at hremoved
  split
  · exact ensures_throw.2 (hfail d hrefl)
  dsimp only
  split_ifs
  · exact (brings_copy hd).mono (fun r d' _ h => hcopy r d' h.1) hfail
  refine ensures_inputProvenance_bind (hfail d hrefl) fun q => ?_
  refine ensures_bind.2 ((brings_resolveAll hd).mono (fun r d₁ _ h => ?_) hfail)
  obtain ⟨h₁, hsome, -⟩ := h
  cases r with
  | none => exact ensures_bind.2 (hremove d₁ h₁)
  | some js =>
    -- Bringing all operands has removed nothing, so that the node is not removed now either.
    have hremoved₁ : d₁.isRemoved id = false := by rwa [isRemoved, (hsome js rfl).2]
    exact ensures_map.2 (hemit d₁ h₁ hremoved₁ _ q)

theorem Anchored.ensures_editOperands {change : ℕ → NodeId → Operand α} (hd : d.Anchored)
    (hcopy : ∀ r d', Copying d d' → Q r d') (hfail : ∀ d', Copying d d' → E d')
    (hremove : ∀ d', Copying d d' → Ensures (remove id) d' (fun _ => Q none) E)
    (hemit : ∀ d', Copying d d' → d'.isRemoved id = false → ∀ n q,
      Ensures (emit id n q) d' (fun j => Q (some j)) E) :
    Ensures (editOperands id change) d Q E := by
  refine ensures_get_bind.2 ?_
  split
  · exact ensures_throw.2 (hfail d (.refl hd))
  · exact hd.ensures_editExpression hcopy hfail hremove hemit

/-- The operands of an expression that is created are brought to the output. Then it is used again or
entered, unless an operand is gone. -/
theorem Anchored.ensures_createExpression {op : Operator} {operands : List (Operand α)} {asserted : Bool}
    {sources : List NodeId} (hd : d.Anchored) (hnone : ∀ d', Copying d d' → Q none d')
    (hfail : ∀ d', Copying d d' → E d') (hdirty : ∀ d', Copying d d' → E { d' with dirty := true })
    (hreuse : ∀ d' js q c, Copying d d' → Runs (provenanceOf sources) d q d →
      List.Forall₂ (fun x j => x.Names d' j) operands js → d'.reusable? ⟨op, js, asserted⟩ = some c →
      Q (some c) { d' with output := d'.output.addProvenance c q })
    (henter : ∀ d' js q c o', Copying d d' → Runs (provenanceOf sources) d q d →
      List.Forall₂ (fun x j => x.Names d' j) operands js →
      d'.output.Entered c (.expression ⟨op, js, asserted⟩) q o' →
      Q (some c) { d' with
        dirty := true, output := o'
        created := if d'.deduplicate then (⟨op, js, asserted⟩, c) :: d'.created else d'.created }) :
    Ensures (createExpression op operands asserted sources) d Q E := by
  refine ensures_provenanceOf_bind (hfail d (.refl hd)) fun q hq => ?_
  refine ensures_bind.2 ((brings_resolveAll hd).mono (fun r d₁ _ h => ?_) hfail)
  obtain ⟨h₁, hsome, -⟩ := h
  cases r with
  | none => exact ensures_pure.2 (hnone d₁ h₁)
  | some js =>
    have hjs := (hsome js rfl).1
    refine ensures_get_bind.2 ?_
    split
    · rename_i c hc
      exact ensures_set_bind.2 (ensures_pure.2 (hreuse d₁ js q c h₁ hq hjs hc))
    · refine ensures_modify_bind.2 (ensures_insert_bind (hdirty d₁ h₁) fun c o' h => ?_)
      have hQ := henter d₁ js q c o' h₁ hq hjs h
      refine ensures_modify_bind.2 (ensures_pure.2 ?_)
      dsimp only
      split_ifs at hQ ⊢ <;> exact hQ

end Edits

/-- Closing copies. -/
theorem copying_close (hd : d.Anchored) :
    Ensures close d (fun rev d' => Copying d d' ∧ rev.mapping = d'.mapping) (Copying d) := by
  have hloop : ∀ (l : List NodeId) (d : Draft α), d.Anchored →
      Ensures (l.forM fun id => discard (copy id)) d (fun _ => Copying d) (Copying d) := by
    intro l
    induction l with
    | nil => exact fun d hd => ensures_pure.2 (.refl hd)
    | cons id l ih =>
      intro d hd
      rw [List.forM_eq_forM, List.forM_cons]
      refine ensures_bind.2 (ensures_map.2 ((brings_copy hd).mono (fun r d₁ _ h => ?_) fun _ h => h))
      exact (ih d₁ h.1.anchored).mono (fun _ _ _ h' => h.1.trans h') fun _ h' => h.1.trans h'
  refine ensures_get_bind.2 (ensures_bind.2 ((hloop _ d hd).mono (fun _ d' _ h => ?_) fun _ h => h))
  exact ensures_get_bind.2 (ensures_pure.2 ⟨h, rfl⟩)

end ParameterSolver.Draft
