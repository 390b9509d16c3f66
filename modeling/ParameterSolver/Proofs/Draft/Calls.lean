import ParameterSolver.Proofs.Draft.Rewrites
import ParameterSolver.Proofs.Graph.Orderly

/-! The calls that a draft takes, in any order and number, and what they come down to. A call that
fails leaves what it has done so far, so nothing is said of results alone: every call is a sequence of
steps, each of which changes one thing, and it may stop after any of them. -/

namespace ParameterSolver

variable {α β γ : Type}

/-- A call on a draft. -/
inductive Call (α : Type) where
  | copy (id : NodeId)
  | remove (id : NodeId)
  | editParameter (id : NodeId) (change : Parameter α → Parameter α)
  | editExpression (id : NodeId) (edit : ExpressionEdit α)
  | editOperands (id : NodeId) (change : ℕ → NodeId → Operand α)
  | replaceLeaf (id : NodeId) (node : Node α)
  | createExpression (op : Operator) (operands : List (Operand α)) (asserted : Bool)
    (sources : List NodeId)
  | createParameter (p : Parameter α) (sources : List NodeId)
  | createLiteral (value : ValueSet α) (sources : List NodeId)
  | absorb (out : NodeId) (sources : List NodeId)
  | redirect (id target : NodeId)

/-- What a call does; its result is not looked at. -/
def Call.act [Scalar α] : Call α → Edit α Unit
  | copy id => discard (Draft.copy id)
  | remove id => Draft.remove id
  | editParameter id change => discard (Draft.editParameter id change)
  | editExpression id edit => discard (Draft.editExpression id edit)
  | editOperands id change => discard (Draft.editOperands id change)
  | replaceLeaf id node => discard (Draft.replaceLeaf id node)
  | createExpression op operands asserted sources =>
    discard (Draft.createExpression op operands asserted sources)
  | createParameter p sources => discard (Draft.createParameter p sources)
  | createLiteral value sources => discard (Draft.createLiteral value sources)
  | absorb out sources => Draft.absorb out sources
  | redirect id target => Draft.redirect id target

/-- The draft that a call leaves, whether it succeeds or not. -/
def Draft.after [Scalar α] (d : Draft α) (c : Call α) : Draft α :=
  (StateT.run (ExceptT.run c.act) d).2

/-- The draft that some calls leave, one after the other. -/
def Draft.afterAll [Scalar α] (d : Draft α) (calls : List (Call α)) : Draft α := calls.foldl after d

/-- After the edit `Q` holds of its result and the draft that it leaves, or `E` holds of the draft
that it leaves when it fails. -/
def Ensures (m : Edit α β) (d : Draft α) (Q : β → Draft α → Prop) (E : Draft α → Prop) : Prop :=
  match StateT.run (ExceptT.run m) d with
  | (.ok r, d') => Q r d'
  | (.error _, d') => E d'

section Ensures

variable {d d₁ : Draft α} {Q Q' : β → Draft α → Prop} {R : γ → Draft α → Prop} {E E' : Draft α → Prop}

theorem ensures_pure {x : β} : Ensures (pure x) d Q E ↔ Q x d := Iff.rfl

theorem ensures_throw {e : SolveError α} : Ensures (throw e) d Q E ↔ E d := Iff.rfl

theorem ensures_bind {m : Edit α β} {f : β → Edit α γ} :
    Ensures (m >>= f) d R E ↔ Ensures m d (fun x d' => Ensures (f x) d' R E) E := by
  unfold Ensures
  rw [run_bind]
  rcases StateT.run (ExceptT.run m) d with ⟨e | x, d₁⟩ <;> rfl

theorem ensures_get_bind {f : Draft α → Edit α β} : Ensures (get >>= f) d Q E ↔ Ensures (f d) d Q E :=
  ensures_bind

theorem ensures_set_bind {f : PUnit → Edit α β} :
    Ensures (set d₁ >>= f) d Q E ↔ Ensures (f ⟨⟩) d₁ Q E := ensures_bind

theorem ensures_modify {f : Draft α → Draft α} {R : PUnit → Draft α → Prop} :
    Ensures (modify f) d R E ↔ R ⟨⟩ (f d) := Iff.rfl

theorem ensures_modify_bind {m : Draft α → Draft α} {f : PUnit → Edit α β} :
    Ensures (modify m >>= f) d Q E ↔ Ensures (f ⟨⟩) (m d) Q E := ensures_bind

theorem ensures_map {m : Edit α β} {f : β → γ} :
    Ensures (f <$> m) d R E ↔ Ensures m d (fun x d' => R (f x) d') E := by
  rw [← bind_pure_comp]
  exact ensures_bind

theorem Ensures.mono {m : Edit α β} (h : Ensures m d Q E) (hQ : ∀ r d', Runs m d r d' → Q r d' → Q' r d')
    (hE : ∀ d', E d' → E' d') : Ensures m d Q' E' := by
  unfold Ensures at h ⊢
  split at h <;> rename_i hrun
  · exact hQ _ _ hrun h
  · exact hE _ h

/-- The draft that an edit leaves. -/
theorem Ensures.left {m : Edit α β} (h : Ensures m d (fun _ => E) E) :
    E (StateT.run (ExceptT.run m) d).2 := by
  unfold Ensures at h
  split at h <;> rename_i hrun <;> rw [hrun] <;> exact h

end Ensures

/-- The edit does not fail. -/
def Succeeds (m : Edit α β) (d : Draft α) : Prop := ∃ r d', Runs m d r d'

section Succeeds

variable {d : Draft α}

theorem succeeds_pure {x : β} : Succeeds (pure x) d := ⟨x, d, rfl⟩

theorem Succeeds.bind {m : Edit α β} {f : β → Edit α γ} (h : Succeeds m d)
    (hf : ∀ x d', Runs m d x d' → Succeeds (f x) d') : Succeeds (m >>= f) d := by
  obtain ⟨x, d₁, hx⟩ := h
  obtain ⟨r, d', hr⟩ := hf x d₁ hx
  exact ⟨r, d', runs_bind.2 ⟨x, d₁, hx, hr⟩⟩

theorem Succeeds.get_bind {f : Draft α → Edit α β} (h : Succeeds (f d) d) :
    Succeeds (get >>= f) d := by
  obtain ⟨r, d', hr⟩ := h
  exact ⟨r, d', runs_get_bind.2 hr⟩

theorem Succeeds.modify_bind {m : Draft α → Draft α} {f : PUnit → Edit α β}
    (h : Succeeds (f ⟨⟩) (m d)) : Succeeds (modify m >>= f) d := by
  obtain ⟨r, d', hr⟩ := h
  exact ⟨r, d', runs_modify_bind.2 hr⟩

end Succeeds

/-- The origins are those of a node, or there are some. -/
def Generation.Grounds (g : Generation α) (q : Provenance) : Prop :=
  (∃ i, g.provenance? i = some q) ∨ ∃ x, x ∈ q

namespace Draft

/-- The origins are taken from the input or from the output. -/
def Founded (d : Draft α) (q : Provenance) : Prop := d.input.Grounds q ∨ d.output.Grounds q

/-- One change of a draft. -/
inductive Step : Draft α → Draft α → Prop
  | note (d : Draft α) (journal : Journal) : Step d { d with journal }
  | mark (d : Draft α) : Step d { d with dirty := true }
  | strike (d : Draft α) (id : NodeId) : Step d { d with removed := d.removed.insert id () }
  | remember (d : Draft α) (e : Expression) (c : NodeId) : Step d { d with created := (e, c) :: d.created }
  | insert {d : Draft α} {n : Node α} {q : Provenance} {j : NodeId} {o : Generation α}
    (h : d.output.insert n q = .ok (j, o)) (hq : d.Founded q) : Step d { d with output := o }
  | replace {d : Draft α} {n : Node α} {q : Provenance} {j : NodeId} {o : Generation α}
    (h : d.output.replace j n q = .ok o) (hq : d.Founded q) : Step d { d with output := o }
  | credit (d : Draft α) (out : NodeId) (q : Provenance) :
    Step d { d with output := d.output.addProvenance out q }
  /-- An input node comes to stand for an output node that is there. -/
  | bind {d : Draft α} (id : NodeId) {j : NodeId} (hj : d.output.contains j) :
    Step d { d with mapping := d.mapping.insert id j }
  /-- The output node of an input node goes with all that uses it. -/
  | clear (d : Draft α) (id out : NodeId) :
    Step d (removeOutput { d with mapping := d.mapping.erase id } out)
  /-- An output node goes that nothing uses, and an input node comes to stand for another one. -/
  | divert {d : Draft α} (id : NodeId) {old target : NodeId} (hne : old ≠ target)
    (ht : d.output.contains target) (ho : d.output.contains old) (hu : d.output.users old = []) :
    Step d { d.removeOutput old with mapping := (d.removeOutput old).mapping.insert id target }

/-- Changes one after the other. -/
def Steps : Draft α → Draft α → Prop := Relation.ReflTransGen Step

theorem Step.input {d d' : Draft α} (h : Step d d') : d'.input = d.input := by
  cases h <;> rfl

theorem Steps.input {d d' : Draft α} (h : Steps d d') : d'.input = d.input := by
  induction h with
  | refl => rfl
  | tail _ hstep ih => exact hstep.input.trans ih

/-- The edit comes down to steps, also when it fails; when it does not, `Q` holds of its result. -/
def Goes (m : Edit α β) (d : Draft α) (Q : β → Draft α → Prop) : Prop :=
  Ensures m d (fun r d' => Steps d d' ∧ Q r d') (Steps d)

section Goes

variable {d d₁ : Draft α} {Q Q' : β → Draft α → Prop} {R : γ → Draft α → Prop}

theorem goes_pure {x : β} (h : Q x d) : Goes (pure x) d Q := ⟨.refl, h⟩

theorem goes_throw {e : SolveError α} : Goes (throw e) d Q := Relation.ReflTransGen.refl

theorem Goes.bind {m : Edit α β} {f : β → Edit α γ} (h : Goes m d Q)
    (hf : ∀ x d', Steps d d' → Q x d' → Goes (f x) d' R) : Goes (m >>= f) d R := by
  refine ensures_bind.2 (Ensures.mono h (fun x d' _ hx => ?_) fun _ h => h)
  obtain ⟨hs, hq⟩ := hx
  exact (hf x d' hs hq).mono (fun _ _ _ h => ⟨hs.trans h.1, h.2⟩) fun _ h => hs.trans h

theorem Goes.mono {m : Edit α β} (h : Goes m d Q) (hQ : ∀ r d', Runs m d r d' → Q r d' → Q' r d') :
    Goes m d Q' :=
  Ensures.mono h (fun r d' hr h => ⟨h.1, hQ r d' hr h.2⟩) fun _ h => h

theorem Goes.get_bind {f : Draft α → Edit α β} (h : Goes (f d) d Q) : Goes (get >>= f) d Q :=
  ensures_get_bind.2 h

theorem goes_modify {m : Draft α → Draft α} {Q : PUnit → Draft α → Prop} (hs : Steps d (m d))
    (h : Q ⟨⟩ (m d)) : Goes (modify m) d Q := ⟨hs, h⟩

theorem goes_set {Q : PUnit → Draft α → Prop} (hs : Steps d d₁) (h : Q ⟨⟩ d₁) :
    Goes (set d₁) d Q := ⟨hs, h⟩

theorem Goes.modify_bind {m : Draft α → Draft α} {f : PUnit → Edit α β} (hs : Steps d (m d))
    (h : Goes (f ⟨⟩) (m d) Q) : Goes (modify m >>= f) d Q :=
  (goes_modify (Q := fun _ d' => d' = m d) hs rfl).bind fun _ _ _ h' => h' ▸ h

theorem Goes.set_bind {f : PUnit → Edit α β} (hs : Steps d d₁) (h : Goes (f ⟨⟩) d₁ Q) :
    Goes (set d₁ >>= f) d Q :=
  (goes_set (Q := fun _ d' => d' = d₁) hs rfl).bind fun _ _ _ h' => h' ▸ h

theorem Goes.map {m : Edit α β} {f : β → γ} (h : Goes m d fun x d' => R (f x) d') :
    Goes (f <$> m) d R := ensures_map.2 h

end Goes

section Edits

variable {d : Draft α} {id : NodeId} {n : Node α} {q : Provenance}

theorem goes_insert (hq : d.Founded q) :
    Goes (Draft.insert n q) d fun j d' => d'.output.contains j := by
  unfold Draft.insert
  refine .get_bind ?_
  split
  · rename_i j o h
    refine .set_bind (.single (.insert h hq)) (goes_pure ?_)
    exact Generation.contains_of_node? (Generation.inserted_of_insert h).node?_self
  · exact goes_throw

theorem ensures_inputProvenance : Ensures (inputProvenance id) d
    (fun q d' => d' = d ∧ d.input.provenance? id = some q) (· = d) := by
  refine ensures_get_bind.2 ?_
  split
  · rename_i q hq
    exact ensures_pure.2 ⟨rfl, hq⟩
  · exact ensures_throw.2 rfl

theorem ensures_provenanceOf {sources : List NodeId} :
    Ensures (provenanceOf sources) d (fun q d' => d' = d ∧ ∃ x, x ∈ q) (· = d) := by
  have hfold : ∀ (l : List NodeId) (q : Provenance),
      Ensures (l.foldlM (fun p id => return p.union (← inputProvenance id)) q) d (fun _ d' => d' = d)
        (· = d) := by
    intro l
    induction l with
    | nil => exact fun q => ensures_pure.2 rfl
    | cons i l ih =>
      intro q
      rw [List.foldlM_cons, ensures_bind, ensures_bind]
      refine ensures_inputProvenance.mono (fun p d' _ h => ?_) fun _ h => h
      obtain ⟨rfl, -⟩ := h
      exact ih _
  refine ensures_bind.2 ((hfold sources .empty).mono (fun q d' _ h => ?_) fun _ h => h)
  subst h
  split_ifs with hempty
  · exact ensures_throw.2 rfl
  · exact ensures_pure.2 ⟨rfl, SortedSet.isEmpty_eq_false_iff.1 (Bool.eq_false_iff.2 hempty)⟩

theorem ensures_inputProvenance_bind {f : Provenance → Edit α β} {Q : β → Draft α → Prop}
    {E : Draft α → Prop} (hE : E d) (hf : ∀ q, Ensures (f q) d Q E) :
    Ensures (inputProvenance id >>= f) d Q E := by
  refine ensures_bind.2 (ensures_inputProvenance.mono (fun q d' _ h => ?_) fun d' h => ?_)
  · rw [h.1]
    exact hf q
  · rwa [h]

theorem ensures_provenanceOf_bind {f : Provenance → Edit α β} {Q : β → Draft α → Prop}
    {E : Draft α → Prop} {sources : List NodeId} (hE : E d)
    (hf : ∀ q, Runs (provenanceOf sources) d q d → Ensures (f q) d Q E) :
    Ensures (provenanceOf sources >>= f) d Q E := by
  refine ensures_bind.2 (ensures_provenanceOf.mono (fun q d' hr h => ?_) fun d' h => ?_)
  · rw [h.1] at hr ⊢
    exact hf q hr
  · rwa [h]

/-- What leaves a draft as it is takes no steps. -/
theorem goes_of_idle {m : Edit α β} {P : β → Prop}
    (h : Ensures m d (fun r d' => d' = d ∧ P r) (· = d)) : Goes m d fun r d' => d' = d ∧ P r := by
  refine h.mono (fun r d' _ h => ?_) fun d' h => ?_
  · exact ⟨h.1 ▸ .refl, h⟩
  · exact h ▸ .refl

theorem goes_inputProvenance : Goes (inputProvenance id) d fun q d' =>
    d' = d ∧ d.input.provenance? id = some q := goes_of_idle ensures_inputProvenance

theorem goes_provenanceOf {sources : List NodeId} :
    Goes (provenanceOf sources) d fun q d' => d' = d ∧ ∃ x, x ∈ q := goes_of_idle ensures_provenanceOf

theorem goes_collect {f : β → Edit α (Option γ)} {l : List β}
    (hf : ∀ x ∈ l, ∀ d', Steps d d' → Goes (f x) d' fun _ _ => True) :
    Goes (collect f l) d fun _ _ => True := by
  induction l generalizing d with
  | nil => exact goes_pure trivial
  | cons x l ih =>
    refine (hf x (by simp) d .refl).bind fun y d₁ h₁ _ => ?_
    cases y with
    | none => exact goes_pure trivial
    | some y =>
      refine (ih fun z hz d' h => hf z (.tail _ hz) d' (h₁.trans h)).bind fun _ _ _ _ => ?_
      exact goes_pure trivial

theorem goes_insertCopy (hq : d.Founded q) : Goes (insertCopy id n q) d fun _ _ => True :=
  (goes_insert hq).bind fun _ _ _ hj => .modify_bind (.single (.bind id hj)) (goes_pure trivial)

theorem goes_emit (hq : d.Founded q) : Goes (emit id n q) d fun _ _ => True := by
  refine .modify_bind (.single (.mark _)) (.get_bind ?_)
  split
  · split
    · rename_i h
      exact .set_bind (.single (.replace h hq)) (goes_pure trivial)
    · exact goes_throw
  · exact (goes_insert (d := { d with dirty := true }) hq).bind fun _ _ _ hj =>
      .modify_bind (.single (.bind id hj)) (goes_pure trivial)

theorem goes_create {sources : List NodeId} : Goes (do
    let q ← provenanceOf sources
    markDirty
    Draft.insert n q) d fun _ _ => True := by
  refine goes_provenanceOf.bind fun q d₁ _ h => ?_
  exact .modify_bind (.single (.mark _)) ((goes_insert (Or.inl (Or.inr h.2))).mono
    fun _ _ _ _ => trivial)

theorem goes_absorb {out : NodeId} {sources : List NodeId} :
    Goes (absorb out sources) d fun _ _ => True :=
  goes_provenanceOf.bind fun q _ _ _ => goes_modify (.single (.credit _ out q)) trivial

theorem goes_rewire {old target user : NodeId} :
    Goes (rewire old target user) d fun _ _ => True := by
  refine .get_bind ?_
  split
  · rename_i e q users hget
    dsimp only
    split
    · rename_i h
      exact goes_set (.single (.replace h (Or.inr (Or.inl ⟨user, by rw [Generation.provenance?, hget]; rfl⟩))))
        trivial
    · exact goes_throw
  · exact goes_pure trivial

theorem goes_replaceLeaf : Goes (replaceLeaf id n) d fun _ _ => True :=
  goes_inputProvenance.bind fun _ _ _ h => goes_emit (h.1 ▸ Or.inl (Or.inl ⟨id, h.2⟩))

theorem goes_forM {f : β → Edit α PUnit} {l : List β} (hf : ∀ x ∈ l, ∀ d, Goes (f x) d fun _ _ => True) :
    Goes (l.forM f) d fun _ _ => True := by
  induction l generalizing d with
  | nil => exact goes_pure trivial
  | cons x l ih =>
    rw [List.forM_eq_forM, List.forM_cons]
    exact (hf x (by simp) d).bind fun _ _ _ _ => ih fun y hy => hf y (.tail _ hy)

/-- Once the users of the old node use the target, nothing uses the old node. -/
theorem goes_rewireAll {old target : NodeId} (hd : d.output.Linked) (hne : old ≠ target)
    (ho : d.output.contains old) (ht : d.output.contains target) :
    Goes ((d.output.users old).forM (rewire old target)) d fun _ d' =>
      d'.output.contains target ∧ d'.output.contains old ∧ d'.output.users old = [] := by
  refine (goes_forM fun _ _ _ => goes_rewire).mono fun _ d' hr _ => ?_
  obtain ⟨o', rfl, hdiv⟩ := diverts_of_runs (fun u hu => by
    obtain ⟨e, he, -⟩ := Generation.mem_operands_iff.1 ((hd.users old u).1 hu)
    exact ⟨e, Generation.expression?_eq.1 he⟩) (Generation.Diverts.start hd) hr
  have hD : ∀ u ∈ d.output.users old, u ∈ (∅ ∪ { u | u ∈ d.output.users old } : Set NodeId) :=
    fun u hu => Or.inr hu
  have hkept : ∀ {j}, d.output.contains j → o'.contains j := fun hj => by
    obtain ⟨n, hn⟩ := Generation.contains_iff.1 hj
    exact Generation.contains_of_node? (by rw [hdiv.node?_eq hd hD, hn]; rfl)
  exact ⟨hkept ht, hkept ho, hdiv.users_eq hd hne hD⟩

theorem goes_redirect {target : NodeId} (hd : d.output.Linked) :
    Goes (redirect id target) d fun _ _ => True := by
  refine .get_bind ?_
  split_ifs with htarget
  · exact goes_throw.bind fun _ _ _ h => h
  rw [Bool.not_eq_true', Bool.not_eq_false] at htarget
  refine .modify_bind (.single (.mark _)) (goes_inputProvenance.bind fun q d₁ _ h => ?_)
  obtain ⟨rfl, -⟩ := h
  have hkept : ∀ {j}, d.output.contains j → (d.output.addProvenance target q).contains j := fun hj => by
    rwa [Generation.contains_iff, Generation.node?_addProvenance, ← Generation.contains_iff]
  refine .get_bind (.modify_bind (.tail (.single (.credit _ target q)) (.bind id (hkept htarget))) ?_)
  split
  · exact goes_pure trivial
  rename_i old _
  refine .get_bind ?_
  split_ifs with hskip
  · exact goes_pure trivial
  simp only [Bool.or_eq_true, decide_eq_true_eq, Bool.not_eq_true', not_or, Bool.not_eq_false] at hskip
  obtain ⟨hne, hold⟩ := hskip
  refine (goes_rewireAll hd.addProvenance hne hold (hkept htarget)).bind fun _ d₂ _ h => ?_
  exact goes_modify (.single (.divert id hne h.1 h.2.1 h.2.2)) trivial

variable [Scalar α]

theorem goes_copyWith {fuel : ℕ} : Goes (copyWith fuel id) d fun _ _ => True := by
  induction fuel generalizing id d with
  | zero => exact goes_throw
  | succ fuel ih =>
    refine .get_bind ?_
    split_ifs
    · exact goes_pure trivial
    split
    · exact goes_pure trivial
    split
    · exact goes_throw
    rename_i entry hentry
    have hfounded : d.input.Grounds entry.provenance :=
      Or.inl ⟨id, by rw [Generation.provenance?, hentry]; rfl⟩
    split
    · refine (goes_collect fun o _ d' _ => ih).bind fun r d₁ h₁ _ => ?_
      cases r with
      | none =>
        refine .get_bind (.modify_bind (.single (.note _ _)) ?_)
        exact .modify_bind (.single (.strike _ id)) (.modify_bind (.single (.mark _)) (goes_pure trivial))
      | some operands => exact goes_insertCopy (Or.inl (by rwa [h₁.input]))
    · exact goes_insertCopy (Or.inl hfounded)

theorem goes_copy : Goes (copy id) d fun _ _ => True := .get_bind goes_copyWith

theorem goes_resolve {x : Operand α} (hq : d.input.Grounds q) :
    Goes (resolve q x) d fun _ _ => True := by
  cases x with
  | input o => exact goes_copy
  | output c =>
    refine .get_bind ?_
    split_ifs
    · exact goes_pure trivial
    · exact goes_throw
  | literal s => exact .map ((goes_insert (Or.inl hq)).mono fun _ _ _ _ => trivial)

theorem goes_resolveAll {l : List (Operand α)} (hq : d.input.Grounds q) :
    Goes (collect (resolve q) l) d fun _ _ => True :=
  goes_collect fun _ _ _ h => goes_resolve (by rwa [h.input])

theorem goes_remove : Goes (remove id) d fun _ _ => True := by
  refine .modify_bind (.single (.mark _)) (.modify_bind (.single (.strike _ id)) ?_)
  refine .modify_bind ?_ (.get_bind (goes_modify (.single (.note _ _)) trivial))
  dsimp only
  split
  · exact .single (.clear _ id _)
  · exact .refl

theorem goes_editParameter {change : Parameter α → Parameter α} :
    Goes (editParameter id change) d fun _ _ => True := by
  refine .get_bind ?_
  split_ifs
  · exact goes_pure trivial
  dsimp only
  split
  · exact goes_throw
  split_ifs
  · exact goes_copy
  split
  · rename_i q hq
    obtain ⟨j, -, hj⟩ := Option.bind_eq_some_iff.1 hq
    exact .map (goes_emit (Or.inr (Or.inl ⟨j, hj⟩)))
  · refine goes_inputProvenance.bind fun q d' _ h => ?_
    exact .map (goes_emit (h.1 ▸ Or.inl (Or.inl ⟨id, h.2⟩)))

theorem goes_editExpression {edit : ExpressionEdit α} :
    Goes (editExpression id edit) d fun _ _ => True := by
  refine .get_bind ?_
  split_ifs
  · exact goes_pure trivial
  split
  · exact goes_throw
  dsimp only
  split_ifs
  · exact goes_copy
  refine goes_inputProvenance.bind fun q d₁ h₀ h => ?_
  have hgrounds : d₁.input.Grounds q := Or.inl ⟨id, by rw [h₀.input, h.2]⟩
  refine (goes_resolveAll hgrounds).bind fun r d₁ h₁ _ => ?_
  cases r with
  | none => exact goes_remove.bind fun _ _ _ _ => goes_pure trivial
  | some operands => exact .map (goes_emit (Or.inl (by rwa [h₁.input])))

theorem goes_editOperands {change : ℕ → NodeId → Operand α} :
    Goes (editOperands id change) d fun _ _ => True := by
  refine .get_bind ?_
  split
  · exact goes_throw
  · exact goes_editExpression

theorem goes_createExpression {op : Operator} {operands : List (Operand α)} {asserted : Bool}
    {sources : List NodeId} :
    Goes (createExpression op operands asserted sources) d fun _ _ => True := by
  refine goes_provenanceOf.bind fun q d₁ _ h => ?_
  refine (goes_resolveAll (Or.inr h.2)).bind fun r d₁ h₁ _ => ?_
  cases r with
  | none => exact goes_pure trivial
  | some operands =>
    refine .get_bind ?_
    split
    · exact .set_bind (.single (.credit _ _ _)) (goes_pure trivial)
    · refine .modify_bind (.single (.mark _)) 
        ((goes_insert (Or.inl (Or.inr h.2))).bind fun c d₂ _ _ => .modify_bind ?_ (goes_pure trivial))
      split_ifs
      · exact .single (.remember _ _ c)
      · exact .refl

theorem goes_close : Goes close d fun _ _ => True := by
  refine .get_bind ((goes_forM fun id _ d => ?_).bind fun _ _ _ _ => .get_bind (goes_pure trivial))
  exact .map (goes_copy.mono fun _ _ _ _ => trivial)

theorem goes_act (hd : d.output.Linked) (c : Call α) : Goes c.act d fun _ _ => True := by
  cases c with
  | copy id => exact .map goes_copy
  | remove id => exact goes_remove
  | editParameter id change => exact .map goes_editParameter
  | editExpression id edit => exact .map goes_editExpression
  | editOperands id change => exact .map goes_editOperands
  | replaceLeaf id node => exact .map goes_replaceLeaf
  | createExpression op operands asserted sources => exact .map goes_createExpression
  | createParameter p sources => exact .map goes_create
  | createLiteral value sources => exact .map goes_create
  | absorb out sources => exact goes_absorb
  | redirect id target => exact goes_redirect hd

/-- Every call comes down to steps. -/
theorem steps_after (hd : d.output.Linked) (c : Call α) : Steps d (d.after c) :=
  Ensures.left (Ensures.mono (goes_act hd c) (fun _ _ _ h => h.1) fun _ h => h)

end Edits

end Draft

end ParameterSolver
