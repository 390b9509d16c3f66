import ParameterSolver.Proofs.Draft.Moves
import ParameterSolver.Proofs.Graph.Order

/-! Copies and new nodes, taken apart into moves. None of them takes anything away. -/

namespace ParameterSolver

variable {α : Type} [Scalar α]

/-- Moves that take nothing away and write over nothing. -/
def Act.Adds : Act α → Prop
  | .note _ | .copy _ | .drop _ | .create .. | .credit .. => True
  | .write .. | .erase _ | .redirect .. => False

/-- Copying a node and what it is made of. -/
def Act.Under (g : Generation α) (id : NodeId) : Act α → Prop
  | .copy i | .drop i => Relation.ReflTransGen g.Uses id i
  | _ => False

/-- Copying what a node is made of, but not the node. -/
def Act.Below (g : Generation α) (id : NodeId) : Act α → Prop
  | .copy i | .drop i => Relation.TransGen g.Uses id i
  | _ => False

/-- Copying what a node is made of, and creating for it content of which `C` holds. -/
def Act.Builds (g : Generation α) (id : NodeId) (C : Draft α → Node α → Prop) (d : Draft α) :
    Act α → Prop
  | .copy i | .drop i => Relation.TransGen g.Uses id i
  | .create i n => i = id ∧ C d n
  | .note i => i = id
  | .credit _ sources => sources = [id]
  | _ => False

/-- The output node that an operand stands for. -/
def Operand.Names (d : Draft α) : Operand α → NodeId → Prop
  | .input o, j => d.mapping.get? o = some j
  | .output c, j => j = c ∧ d.output.contains j
  | .literal s, j => d.output.node? j = some (.literal s none) ∧ d.Unbound j

section Acts

omit [Scalar α]

variable {g : Generation α} {id o : NodeId} {C C' : Draft α → Node α → Prop} {d : Draft α} {a : Act α}

theorem Act.Under.adds (h : a.Under g id) : a.Adds := by
  cases a <;> trivial

theorem Act.Under.copies (h : a.Under g id) : ∃ i, a = .copy i ∨ a = .drop i := by
  cases a with
  | copy i => exact ⟨i, Or.inl rfl⟩
  | drop i => exact ⟨i, Or.inr rfl⟩
  | _ => exact h.elim

theorem Act.Builds.adds (h : a.Builds g id C d) : a.Adds := by
  cases a <;> trivial

theorem Act.Under.below (ho : Relation.TransGen g.Uses id o) (h : a.Under g o) :
    a.Below g id := by
  cases a with
  | copy i | drop i => exact ho.trans_left h
  | _ => exact h

theorem Act.Below.under (h : a.Below g id) : a.Under g id := by
  cases a with
  | copy i | drop i => exact Relation.TransGen.to_reflTransGen h
  | _ => exact h

theorem Act.Below.builds (h : a.Below g id) : a.Builds g id C d := by
  cases a with
  | copy i | drop i => exact h
  | _ => exact h.elim

/-- What a node is made of does not include the node. -/
theorem Act.Below.ne (hg : g.Acyclic) (h : a.Below g id) : a ≠ .copy id ∧ a ≠ .drop id := by
  constructor <;> rintro rfl <;> exact hg id h

theorem Act.Builds.ne (hg : g.Acyclic) (h : a.Builds g id C d) : a ≠ .copy id ∧ a ≠ .drop id := by
  constructor <;> rintro rfl <;> exact hg id h

end Acts

namespace Draft

/-- Nothing that was there has changed, but for origins. -/
structure Retains (d d' : Draft α) : Prop where
  node? : ∀ j n, d.output.node? j = some n → d'.output.node? j = some n
  mapping : ∀ i j, d.mapping.get? i = some j → d'.mapping.get? i = some j
  removed : ∀ i, d.isRemoved i → d'.isRemoved i
  unbound : ∀ j, d.output.contains j → d.Unbound j → d'.Unbound j

section Retains

omit [Scalar α]

variable {d d' d'' : Draft α} {a : Act α} {j : NodeId}

theorem Retains.refl (d : Draft α) : Retains d d :=
  ⟨fun _ _ h => h, fun _ _ h => h, fun _ h => h, fun _ _ h => h⟩

theorem Retains.contains (h : Retains d d') (hj : d.output.contains j) : d'.output.contains j := by
  obtain ⟨n, hn⟩ := Generation.contains_iff.1 hj
  exact Generation.contains_of_node? (h.node? j n hn)

theorem Retains.trans (h : Retains d d') (h' : Retains d' d'') : Retains d d'' :=
  ⟨fun j n hn => h'.node? j n (h.node? j n hn), fun i j hj => h'.mapping i j (h.mapping i j hj),
    fun i hi => h'.removed i (h.removed i hi),
    fun j hj hfree => h'.unbound j (h.contains hj) (h.unbound j hj hfree)⟩

theorem Retains.names {x : Operand α} (h : Retains d d') (hx : x.Names d j) : x.Names d' j := by
  cases x with
  | input o => exact h.mapping o j hx
  | output c => exact ⟨hx.1, h.contains hx.2⟩
  | literal s => exact ⟨h.node? j _ hx.1, h.unbound j (Generation.contains_of_node? hx.1) hx.2⟩

theorem Retains.unbound_node? {n : Node α} (h : Retains d d')
    (hj : d.Unbound j ∧ d.output.node? j = some n) :
    d'.Unbound j ∧ d'.output.node? j = some n :=
  ⟨h.unbound j (Generation.contains_of_node? hj.2) hj.1, h.node? j n hj.2⟩

theorem Retains.images {l js : List NodeId} (h : Retains d d') (hl : d.Images l js) :
    d'.Images l js := List.Forall₂.imp (fun o j hj => h.mapping o j hj) hl

theorem retains_insert {n : Node α} {q : Provenance} {o' : Generation α}
    (henter : d.output.Entered j n q o') : Retains d { d with output := o' } :=
  ⟨fun k m hk => by
    rw [henter.node?_of_ne (henter.ne_of_contains (Generation.contains_of_node? hk)), hk],
    fun _ _ h => h, fun _ h => h, fun _ _ h => h⟩

theorem retains_bind {id : NodeId} (hid : id ≠ .null) (hmap : d.mapping.get? id = none)
    (hj : ∀ k, d.output.contains k → k ≠ j) {o' : Generation α}
    (h : Retains d { d with output := o' }) :
    Retains d { d with output := o', mapping := d.mapping.insert id j } := by
  refine ⟨h.node?, fun i k hk => get?_bound_of_none hid hmap hk, h.removed, fun k hk hfree i hi => ?_⟩
  rcases get?_bound hid hi with ⟨-, rfl⟩ | ⟨-, hi⟩
  · exact hj k hk rfl
  · exact hfree i hi

end Retains

end Draft

open Draft

section Moves

omit [Scalar α]

variable {P : Draft α → Act α → Prop} {d d' : Draft α} {a : Act α}

theorem Move.retains (h : Move a d d') (ha : a.Adds) : Retains d d' := by
  cases h with
  | note h =>
    refine ⟨fun j n hn => ?_, fun i j hj => ?_, fun i hi => ?_, fun j _ hfree i => ?_⟩
    · rwa [h.output]
    · rwa [h.mapping]
    · unfold isRemoved
      rwa [h.removed]
    · rw [h.mapping]
      exact hfree i
  | copy hn _ hmap _ henter _ =>
    exact retains_bind (Generation.ne_null_of_contains (Generation.contains_of_node? hn)) hmap
      (fun k hk => henter.ne_of_contains hk) (retains_insert henter)
  | drop hid =>
    refine ⟨fun _ _ h => h, fun _ _ h => h, fun i hi => ?_, fun _ _ h => h⟩
    exact (NodeMap.contains_insert (Generation.ne_null_of_contains hid)).2 (Or.inl hi)
  | create henter _ => exact retains_insert henter
  | credit _ =>
    exact ⟨fun j n hn => (Generation.node?_addProvenance j).trans hn, fun _ _ h => h, fun _ h => h,
      fun _ _ h => h⟩
  | place | replace | erase | redirect => exact ha.elim

theorem Moves.retains (h : Moves P d d') (hP : ∀ d a, P d a → a.Adds) : Retains d d' := by
  induction h with
  | refl => exact .refl _
  | tail _ hmove ih =>
    obtain ⟨a, ha, hmove⟩ := hmove
    exact ih.trans (hmove.retains (hP _ a ha))

/-- The output node of an input node is there, or the node is removed, as it was. -/
structure Draft.Leaves (x : NodeId) (d d' : Draft α) : Prop where
  mapping : d'.mapping.get? x = d.mapping.get? x
  removed : d'.isRemoved x = d.isRemoved x

theorem Move.leaves {x : NodeId} (h : Move a d d') (ha : a.Adds)
    (hx : a ≠ .copy x ∧ a ≠ .drop x) : Leaves x d d' := by
  cases h with
  | note h => exact ⟨by rw [h.mapping], by rw [isRemoved, h.removed]; rfl⟩
  | @copy _ id j n _ _ _ hn =>
    have hne : x ≠ id := fun h => hx.1 (h ▸ rfl)
    exact ⟨NodeMap.get?_insert_other hne, rfl⟩
  | @drop _ id _ _ hid =>
    have hne : x ≠ id := fun h => hx.2 (h ▸ rfl)
    refine ⟨rfl, ?_⟩
    rw [Bool.eq_iff_iff]
    exact (NodeMap.contains_insert (Generation.ne_null_of_contains hid)).trans
      ⟨fun h => h.resolve_right hne, Or.inl⟩
  | create | credit => exact ⟨rfl, rfl⟩
  | place | replace | erase | redirect => exact ha.elim

theorem Moves.leaves {x : NodeId} (h : Moves P d d')
    (hP : ∀ d a, P d a → a.Adds ∧ a ≠ .copy x ∧ a ≠ .drop x) : Leaves x d d' := by
  induction h with
  | refl => exact ⟨rfl, rfl⟩
  | tail _ hmove ih =>
    obtain ⟨a, ha, hmove⟩ := hmove
    have hstep := hmove.leaves (hP _ a ha).1 (hP _ a ha).2
    exact ⟨hstep.mapping.trans ih.mapping, hstep.removed.trans ih.removed⟩

end Moves

namespace Draft

variable {g : Generation α} {P : Draft α → Act α → Prop} {d d' : Draft α} {id : NodeId} {n : Node α}
  {p : Provenance}

omit [Scalar α] in
theorem entered_of_runs {j : NodeId} (h : Runs (Draft.insert n p) d j d') :
    ∃ o', d.output.Entered j n p o' ∧ d' = { d with output := o' } := by
  unfold Draft.insert at h
  rw [runs_get_bind] at h
  split at h
  · rename_i k o' hins
    rw [runs_set_bind] at h
    obtain ⟨rfl, rfl⟩ := runs_pure.1 h
    exact ⟨o', Generation.entered_of_insert hins, rfl⟩
  · exact absurd h runs_throw

omit [Scalar α] in
theorem of_runs_inputProvenance (h : Runs (inputProvenance id) d p d') :
    d.input.provenance? id = some p ∧ d' = d := by
  unfold inputProvenance at h
  rw [runs_get_bind] at h
  split at h
  · rename_i q hq
    obtain ⟨rfl, rfl⟩ := runs_pure.1 h
    exact ⟨hq, rfl⟩
  · exact absurd h runs_throw

omit [Scalar α] in
theorem cites_of_provenance? (h : g.provenance? id = some p) : g.Cites [id] p := by
  intro x
  simp [h]

omit [Scalar α] in
theorem cites_of_runs {sources : List NodeId} (h : Runs (provenanceOf sources) d p d') :
    d.input.Cites sources p ∧ d' = d := by
  have hfold : ∀ (l : List NodeId) (q r : Provenance) (d' : Draft α),
      Runs (l.foldlM (fun p id => return p.union (← inputProvenance id)) q) d r d' →
        (∀ x, x ∈ r ↔ x ∈ q ∨ ∃ s ∈ l, ∃ p, d.input.provenance? s = some p ∧ x ∈ p) ∧ d' = d := by
    intro l
    induction l with
    | nil =>
      intro q r d' h
      obtain ⟨rfl, rfl⟩ := runs_pure.1 h
      exact ⟨by simp, rfl⟩
    | cons i l ih =>
      intro q r d' h
      rw [List.foldlM_cons, runs_bind] at h
      obtain ⟨q', d₁, hstep, hrest⟩ := h
      obtain ⟨pi, d₂, hrun, hpure⟩ := runs_bind.1 hstep
      obtain ⟨hpi, rfl⟩ := of_runs_inputProvenance hrun
      obtain ⟨rfl, rfl⟩ := runs_pure.1 hpure
      obtain ⟨hmem, rfl⟩ := ih _ _ _ hrest
      refine ⟨fun x => ?_, rfl⟩
      rw [hmem, SortedSet.mem_union]
      simp [hpi, or_assoc]
  unfold provenanceOf at h
  obtain ⟨q, d₁, hq, hrest⟩ := runs_bind.1 h
  obtain ⟨hmem, rfl⟩ := hfold _ _ _ _ hq
  split_ifs at hrest
  · rw [bind_pure_comp] at hrest
    obtain ⟨_, hthrow, -⟩ := runs_map.1 hrest
    exact absurd hthrow runs_throw
  · obtain ⟨rfl, rfl⟩ := runs_pure.1 hrest
    exact ⟨fun x => by simpa using hmem x, rfl⟩

omit [Scalar α] in
/-- Collecting results, where what is known of a result outlasts the steps after it. -/
theorem moves_collect {β : Type} {f : β → Edit α (Option NodeId)} {l : List β}
    {r : Option (List NodeId)} {R : β → Draft α → NodeId → Prop} {N : β → Draft α → Prop}
    (hP : ∀ d a, P d a → a.Adds) (hR : ∀ x d d' j, Retains d d' → R x d j → R x d' j)
    (hstep : ∀ x ∈ l, ∀ d r d', d.Coherent → d.input = g → Runs (f x) d r d' →
      Moves P d d' ∧ (∀ j, r = some j → R x d' j) ∧ (r = none → N x d'))
    (hd : d.Coherent) (hin : d.input = g) (hr : Runs (collect f l) d r d') :
    Moves P d d' ∧ (∀ js, r = some js → List.Forall₂ (fun x j => R x d' j) l js) ∧
      (r = none → ∃ x ∈ l, N x d') := by
  induction l generalizing d r with
  | nil =>
    obtain ⟨rfl, rfl⟩ := runs_pure.1 hr
    refine ⟨.refl _, ?_, by simp⟩
    rintro js ⟨⟩
    exact .nil
  | cons x l ih =>
    obtain ⟨y, d₁, hx, hr₁⟩ := runs_bind.1 hr
    obtain ⟨h₁, hsome, hnone⟩ := hstep x (by simp) d y d₁ hd hin hx
    cases y with
    | none =>
      obtain ⟨rfl, rfl⟩ := runs_pure.1 hr₁
      exact ⟨h₁, by simp, fun _ => ⟨x, by simp, hnone rfl⟩⟩
    | some j =>
      obtain ⟨rs, d₂, hl, hr₂⟩ := runs_bind.1 hr₁
      obtain ⟨rfl, rfl⟩ := runs_pure.1 hr₂
      obtain ⟨h₂, hrest, hgone⟩ := ih (fun z hz => hstep z (.tail _ hz)) (h₁.coherent hd)
        (h₁.input.trans hin) hl
      refine ⟨h₁.trans h₂, fun js hjs => ?_, fun hjs => ?_⟩
      · obtain ⟨ks, rfl, rfl⟩ := Option.map_eq_some_iff.1 hjs
        exact .cons (hR x _ _ _ (h₂.retains hP) (hsome j rfl)) (hrest ks rfl)
      · obtain ⟨z, hz, hN⟩ := hgone (Option.map_eq_none_iff.1 hjs)
        exact ⟨z, .tail _ hz, hN⟩

omit [Scalar α] in
theorem runs_insertCopy {r : Option NodeId} (h : Runs (insertCopy id n p) d r d') :
    ∃ j o', r = some j ∧ d.output.Entered j n p o' ∧
      d' = { d with output := o', mapping := d.mapping.insert id j } := by
  unfold insertCopy at h
  obtain ⟨j, d₁, hins, h⟩ := runs_bind.1 h
  rw [runs_modify_bind] at h
  obtain ⟨rfl, rfl⟩ := runs_pure.1 h
  obtain ⟨o', henter, rfl⟩ := entered_of_runs hins
  exact ⟨j, o', rfl, henter, rfl⟩

/-- Copying a node. The induction is on the fuel; since no node is made of itself, copying the
operands leaves the node itself alone. -/
theorem moves_copyWith (hg : g.Acyclic) {fuel : ℕ} {r : Option NodeId} (hd : d.Coherent)
    (hin : d.input = g) (hr : Runs (copyWith fuel id) d r d') :
    Moves (fun _ a => a.Under g id) d d' ∧ (∀ j, r = some j → d'.mapping.get? id = some j) ∧
      (r = none → d'.isRemoved id) := by
  induction fuel generalizing id d r d' with
  | zero => exact absurd hr runs_throw
  | succ fuel ih =>
    rw [copyWith, runs_get_bind] at hr
    split_ifs at hr with hremoved
    · obtain ⟨rfl, rfl⟩ := runs_pure.1 hr
      exact ⟨.refl _, by simp, fun _ => hremoved⟩
    rw [hd.mapped?_eq] at hr
    cases hmap : d.mapping.get? id with
    | some j =>
      rw [hmap] at hr
      obtain ⟨rfl, rfl⟩ := runs_pure.1 hr
      exact ⟨.refl _, fun k hk => by cases hk; exact hmap, by simp⟩
    | none =>
    rw [hmap] at hr
    dsimp only at hr
    split at hr
    · exact absurd hr runs_throw
    rename_i entry hentry
    have hn : d.input.node? id = some entry.node := by rw [Generation.node?, hentry]; rfl
    have hprov : d.input.provenance? id = some entry.provenance := by
      rw [Generation.provenance?, hentry]
      rfl
    have hnull := Generation.ne_null_of_contains (Generation.contains_of_node? hn)
    split at hr
    · rename_i e he
      have hops : g.operands id = e.operands := by
        rw [← hin, Generation.operands_of_node? hn, he]
        rfl
      obtain ⟨rs, d₁, hcol, hr₁⟩ := runs_bind.1 hr
      obtain ⟨h₁, hsome, hnone⟩ := moves_collect (P := fun _ a => a.Below g id)
        (R := fun o d j => d.mapping.get? o = some j) (N := fun o d => d.isRemoved o)
        (fun _ _ h => h.under.adds) (fun o _ _ j h hj => h.mapping o j hj)
        (fun o ho d r d' hd hin hr => by
          obtain ⟨h, hrest⟩ := ih hd hin hr
          exact ⟨h.mono fun _ _ ha => ha.below (.single (by rwa [Generation.Uses, hops])), hrest⟩) hd hin hcol
      have hleaves : Leaves id d d₁ := h₁.leaves fun _ _ ha => ⟨ha.under.adds, ha.ne hg⟩
      have hmap₁ := hleaves.mapping.trans hmap
      have hinput₁ := h₁.input
      have hunder : Moves (fun _ a => a.Under g id) d d₁ := h₁.mono fun _ a ha => ha.under
      cases rs with
      | none =>
        obtain ⟨o, ho, hgone⟩ := hnone rfl
        unfold dropCopy log markRemoved markDirty at hr₁
        rw [runs_get_bind, runs_modify_bind, runs_modify_bind, runs_modify_bind] at hr₁
        obtain ⟨rfl, rfl⟩ := runs_pure.1 hr₁
        refine ⟨hunder.tail (a := .drop id) .refl (.drop ?_ hmap₁ (o := o) ?_ hgone), by simp, fun _ => ?_⟩
        · rw [hinput₁]
          exact Generation.contains_of_node? hn
        · rw [hinput₁, hin, hops]
          exact ho
        · exact (NodeMap.contains_insert hnull).2 (Or.inr rfl)
      | some js =>
        obtain ⟨j, o', rfl, henter, rfl⟩ := runs_insertCopy hr₁
        have hn₁ : d₁.input.node? id = some (.expression e) := by rw [hinput₁, hn, he]
        refine ⟨hunder.tail (a := .copy id) .refl (.copy hn₁ (hleaves.removed.trans
          (Bool.eq_false_iff.2 hremoved)) hmap₁ (hsome js rfl) henter (cites_of_provenance? ?_)), ?_, by simp⟩
        · rw [hinput₁, hprov]
        · rintro k ⟨⟩
          exact NodeMap.get?_insert_self hnull
    · rename_i hleaf
      obtain ⟨j, o', rfl, henter, rfl⟩ := runs_insertCopy hr
      have hnode : entry.node.withOperands [] = entry.node := by
        cases hnode : entry.node with
        | expression e => exact absurd hnode (hleaf e)
        | _ => rfl
      have himages : d.Images entry.node.operands [] := by
        cases hnode : entry.node with
        | expression e => exact absurd hnode (hleaf e)
        | _ => exact .nil
      refine ⟨.single (a := .copy id) .refl (.copy hn (Bool.eq_false_iff.2 hremoved) hmap
        himages (hnode.symm ▸ henter) (cites_of_provenance? hprov)), ?_, by simp⟩
      rintro k ⟨⟩
      exact NodeMap.get?_insert_self hnull

theorem moves_copy (hg : g.Acyclic) {r : Option NodeId} (hd : d.Coherent) (hin : d.input = g)
    (hr : Runs (copy id) d r d') :
    Moves (fun _ a => a.Under g id) d d' ∧ (∀ j, r = some j → d'.mapping.get? id = some j) ∧
      (r = none → d'.isRemoved id) := by
  unfold copy at hr
  rw [runs_get_bind] at hr
  exact moves_copyWith hg hd hin hr

/-! New nodes. -/

variable {C : Draft α → Node α → Prop} {l : List (Operand α)} {op : Operator} {asserted : Bool}

theorem moves_resolve (hg : g.Acyclic) {x : Operand α} {r : Option NodeId} (hd : d.Coherent)
    (hin : d.input = g) (hp : g.Cites [id] p)
    (hops : ∀ o, x = .input o → Relation.TransGen g.Uses id o)
    (hC : ∀ s, x = .literal s → ∀ d, C d (.literal s none)) (hr : Runs (resolve p x) d r d') :
    Moves (fun d a => a.Builds g id C d) d d' ∧ (∀ j, r = some j → x.Names d' j) ∧
      (r = none → ∃ o, x = .input o ∧ d'.isRemoved o) := by
  cases x with
  | input o =>
    obtain ⟨h, hsome, hnone⟩ := moves_copy hg hd hin hr
    exact ⟨h.mono fun _ _ ha => (ha.below (hops o rfl)).builds, hsome, fun h => ⟨o, rfl, hnone h⟩⟩
  | output c =>
    rw [resolve, runs_get_bind] at hr
    split_ifs at hr with hc
    · obtain ⟨rfl, rfl⟩ := runs_pure.1 hr
      refine ⟨.refl _, ?_, by simp⟩
      rintro j ⟨⟩
      exact ⟨rfl, hc⟩
    · exact absurd hr runs_throw
  | literal s =>
    rw [resolve] at hr
    obtain ⟨j, hins, rfl⟩ := runs_map.1 hr
    obtain ⟨o', henter, rfl⟩ := entered_of_runs hins
    refine ⟨.single (a := .create id (.literal s none)) ⟨rfl, hC s rfl d⟩
      (.create henter (hin ▸ hp)), ?_, by simp⟩
    rintro k ⟨⟩
    exact ⟨henter.node?_self, hd.unbound_fresh henter.toInserted⟩

theorem moves_resolveAll (hg : g.Acyclic) {r : Option (List NodeId)} (hd : d.Coherent)
    (hin : d.input = g) (hp : g.Cites [id] p)
    (hops : ∀ o, .input o ∈ l → Relation.TransGen g.Uses id o)
    (hC : ∀ s, .literal s ∈ l → ∀ d, C d (.literal s none))
    (hr : Runs (collect (resolve p) l) d r d') :
    Moves (fun d a => a.Builds g id C d) d d' ∧
      (∀ js, r = some js → List.Forall₂ (Operand.Names d') l js) ∧
      (r = none → ∃ o, .input o ∈ l ∧ d'.isRemoved o) := by
  obtain ⟨h, hsome, hnone⟩ := moves_collect (g := g) (P := fun d a => a.Builds g id C d)
    (R := fun x d j => x.Names d j) (N := fun x d => ∃ o, x = .input o ∧ d.isRemoved o)
    (fun _ _ h => h.adds) (fun _ _ _ _ h hx => h.names hx)
    (fun x hx d r d' hd hin hr => moves_resolve hg hd hin hp (fun o ho => hops o (ho ▸ hx))
      (fun s hs => hC s (hs ▸ hx)) hr) hd hin hr
  refine ⟨h, hsome, fun hr => ?_⟩
  obtain ⟨x, hx, o, rfl, ho⟩ := hnone hr
  exact ⟨o, hx, ho⟩

omit [Scalar α] in
theorem contains_of_names {js : List NodeId} (hd : d.Coherent)
    (h : List.Forall₂ (Operand.Names d) l js) : ∀ o ∈ js, d.output.contains o := by
  induction h with
  | nil => simp
  | @cons x j _ _ hj _ ih =>
    refine List.forall_mem_cons.2 ⟨?_, ih⟩
    cases x with
    | input o => exact (hd.mapped o j hj).2
    | output c => exact hj.2
    | literal s => exact Generation.contains_of_node? hj.1

/-- The node was created for `id` as an expression over the operands. -/
structure Made (d : Draft α) (id : NodeId) (op : Operator) (l : List (Operand α)) (asserted : Bool)
    (c : NodeId) : Prop where
  unbound : d.Unbound c
  node? : ∃ js, d.output.node? c = some (.expression ⟨op, js, asserted⟩) ∧
    List.Forall₂ (Operand.Names d) l js
  origins : ∃ q, d.output.provenance? c = some q ∧
    ∀ p, d.input.provenance? id = some p → ∀ x ∈ p, x ∈ q

omit [Scalar α] in
theorem provenance_of_cites {q : Provenance} (h : g.Cites [id] q) :
    ∀ p, g.provenance? id = some p → ∀ x ∈ p, x ∈ q :=
  fun p hp x hx => (h x).2 ⟨id, by simp, p, hp, hx⟩

omit [Scalar α] in
theorem noted_dirty (d : Draft α) : Noted d { d with dirty := true } :=
  ⟨rfl, rfl, rfl, rfl, fun _ => rfl, fun _ h => Or.inl h⟩

omit [Scalar α] in
theorem noted_journal (d : Draft α) (journal : Journal) : Noted d { d with journal := journal } :=
  ⟨rfl, rfl, rfl, rfl, fun h => h, fun _ h => Or.inl h⟩

/-- Creating an expression, or finding one that was created before. -/
theorem moves_createExpression (hg : g.Acyclic) {r : Option NodeId} (hd : d.Coherent)
    (hin : d.input = g) (hops : ∀ o, .input o ∈ l → Relation.TransGen g.Uses id o)
    (hlit : ∀ s, .literal s ∈ l → ∀ d, C d (.literal s none))
    (hC : ∀ d' js, Retains d d' → List.Forall₂ (Operand.Names d') l js →
      C d' (.expression ⟨op, js, asserted⟩))
    (hr : Runs (createExpression op l asserted [id]) d r d') :
    Moves (fun d a => a.Builds g id C d) d d' ∧ (∀ c, r = some c → d'.Made id op l asserted c) ∧
      (r = none → ∃ o, .input o ∈ l ∧ d'.isRemoved o) := by
  unfold createExpression at hr
  obtain ⟨q, d₀, hq, hr₀⟩ := runs_bind.1 hr
  obtain ⟨hq, rfl⟩ := cites_of_runs hq
  rw [hin] at hq
  obtain ⟨rs, d₁, hcol, hr₁⟩ := runs_bind.1 hr₀
  obtain ⟨h₁, hsome, hnone⟩ := moves_resolveAll hg hd hin hq hops hlit hcol
  have hd₁ := h₁.coherent hd
  have hin₁ := h₁.input.trans hin
  cases rs with
  | none =>
    obtain ⟨rfl, rfl⟩ := runs_pure.1 hr₁
    exact ⟨h₁, by simp, fun _ => hnone rfl⟩
  | some js =>
  have hjs := hsome js rfl
  dsimp only at hr₁
  rw [runs_get_bind] at hr₁
  split at hr₁
  · rename_i old hold
    rw [runs_set_bind] at hr₁
    obtain ⟨rfl, rfl⟩ := runs_pure.1 hr₁
    unfold reusable? at hold
    split_ifs at hold
    obtain ⟨hlook, hcont⟩ := Option.filter_eq_some_iff.1 hold
    obtain ⟨hfree, -, -, hnode⟩ := hd₁.created _ _ (mem_of_lookup hlook)
    obtain ⟨n, hn⟩ := Generation.contains_iff.1 hcont
    have hops : ∀ o ∈ js, d₁.output.contains o := fun o ho => contains_of_names hd₁ hjs o ho
    cases (hnode n hn).2 hops
    have hmove : Move (.credit old [id]) d₁ { d₁ with output := d₁.output.addProvenance old q } :=
      .credit (hin₁ ▸ hq) fun m hm => ⟨_, Option.some.inj (hm.symm.trans hn), Or.inl hfree⟩
    have hret := hmove.retains trivial
    refine ⟨h₁.tail (a := .credit old [id]) rfl hmove, ?_, by simp⟩
    rintro c ⟨⟩
    refine ⟨hfree, ⟨js, hret.node? _ _ hn, hjs.imp fun _ _ h => hret.names h⟩, ?_⟩
    obtain ⟨q', hq'⟩ := Generation.exists_provenance? hcont
    refine ⟨q'.union q, ?_, fun p hp x hx => ?_⟩
    · change (d₁.output.addProvenance old q).provenance? old = _
      rw [Generation.provenance?_addProvenance, if_pos rfl, hq']
      rfl
    · exact SortedSet.mem_union.2 (Or.inr (provenance_of_cites hq p (hin₁ ▸ hp) x hx))
  · unfold markDirty at hr₁
    rw [runs_modify_bind] at hr₁
    obtain ⟨c, d₂, hc, hr₂⟩ := runs_bind.1 hr₁
    rw [runs_modify_bind] at hr₂
    obtain ⟨rfl, rfl⟩ := runs_pure.1 hr₂
    obtain ⟨o', henter, rfl⟩ := entered_of_runs hc
    have hnote : Move (.note id) d₁ { d₁ with dirty := true } := .note (noted_dirty d₁)
    have hjs' := hjs.imp fun _ _ h => (hnote.retains trivial).names h
    have hmoves := (h₁.tail (a := .note id) rfl hnote)
    have hcreate : Move (.create id (.expression ⟨op, js, asserted⟩)) { d₁ with dirty := true }
        { d₁ with dirty := true, output := o' } := .create henter (hin₁ ▸ hq)
    have hmoves' := hmoves.tail (a := .create id (.expression ⟨op, js, asserted⟩))
      ⟨rfl, hC _ js (hmoves.retains fun _ _ h => h.adds) hjs'⟩ hcreate
    have hmade : ({ d₁ with dirty := true, output := o' } : Draft α).Made id op l asserted c := by
      refine ⟨hd₁.unbound_fresh henter.toInserted, ⟨js, henter.node?_self,
        hjs'.imp fun _ _ h => (hcreate.retains trivial).names h⟩, q, ?_, ?_⟩
      · exact (henter.provenance? c).trans (if_pos rfl)
      · exact fun p hp => provenance_of_cites hq p (hin₁ ▸ hp)
    split_ifs
    · have hnote' : Move (.note id) { d₁ with dirty := true, output := o' }
          { d₁ with dirty := true, output := o', created := (⟨op, js, asserted⟩, c) :: d₁.created } := by
        refine .note ⟨rfl, rfl, rfl, rfl, fun h => h, fun x hx => ?_⟩
        rcases List.mem_cons.1 hx with rfl | hx
        · exact Or.inr ⟨hmade.unbound, henter.node?_self⟩
        · exact Or.inl hx
      refine ⟨hmoves'.tail (a := .note id) rfl hnote', ?_, by simp⟩
      rintro k ⟨⟩
      exact ⟨hmade.unbound, hmade.node?, hmade.origins⟩
    · refine ⟨hmoves', ?_, by simp⟩
      rintro k ⟨⟩
      exact hmade

omit [Scalar α] in
theorem entered_of_createParameter {q : Parameter α} {j : NodeId}
    (hr : Runs (createParameter q [id]) d j d') : ∃ p o', d.input.Cites [id] p ∧
      d.output.Entered j (.parameter q) p o' ∧ d' = { d with dirty := true, output := o' } := by
  unfold createParameter markDirty at hr
  obtain ⟨p, d₀, hp, hr₀⟩ := runs_bind.1 hr
  obtain ⟨hp, rfl⟩ := cites_of_runs hp
  rw [runs_modify_bind] at hr₀
  obtain ⟨o', henter, rfl⟩ := entered_of_runs hr₀
  exact ⟨p, o', hp, henter, rfl⟩

omit [Scalar α] in
theorem moves_createParameter {q : Parameter α} {j : NodeId} (hd : d.Coherent)
    (hin : d.input = g) (hC : ∀ d : Draft α, C d (.parameter q)) (hr : Runs (createParameter q [id]) d j d') :
    Moves (fun d a => a.Builds g id C d) d d' ∧ d'.output.node? j = some (.parameter q) ∧
      d'.Unbound j := by
  obtain ⟨p, o', hp, henter, rfl⟩ := entered_of_createParameter hr
  refine ⟨?_, henter.node?_self, hd.unbound_fresh henter.toInserted⟩
  exact (Moves.single (a := .note id) rfl (.note (noted_dirty _))).tail
    (a := .create id (.parameter q)) ⟨rfl, hC _⟩ (.create henter (hin ▸ hp))

end Draft

end ParameterSolver
