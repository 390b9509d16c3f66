import Mathlib.Logic.Relation
import ParameterSolver.Proofs.Draft.Runs
import ParameterSolver.Proofs.Graph.Origins

/-! An edit of a draft as a sequence of moves. Every edit copies, creates, writes, credits, erases or
redirects, one node at a time; what a move of each kind does is said here once, and what a pass keeps
is shown move by move. -/

namespace ParameterSolver

variable {α : Type}

/-- What a move is about. Ids are those of input nodes, but for the node that is credited and the one
that is redirected to. -/
inductive Act (α : Type) where
  /-- Bookkeeping on behalf of a node. -/
  | note (id : NodeId)
  | copy (id : NodeId)
  /-- Leaves out a node with an operand that is gone. -/
  | drop (id : NodeId)
  /-- A new node with the origins of an input node. -/
  | create (id : NodeId) (n : Node α)
  /-- Content for the output node of an input node. -/
  | write (id : NodeId) (n : Node α)
  | credit (out : NodeId) (sources : List NodeId)
  | erase (id : NodeId)
  | redirect (id target : NodeId)

/-- The origins are those of some nodes together. -/
def Generation.Cites (g : Generation α) (sources : List NodeId) (q : Provenance) : Prop :=
  ∀ x, x ∈ q ↔ ∃ s ∈ sources, ∃ p, g.provenance? s = some p ∧ x ∈ p

namespace Draft

/-- The output node stands for no input node. -/
def Unbound (d : Draft α) (j : NodeId) : Prop := ∀ i, d.mapping.get? i ≠ some j

/-- The output nodes of some input nodes. -/
def Images (d : Draft α) (l js : List NodeId) : Prop :=
  List.Forall₂ (fun o j => d.mapping.get? o = some j) l js

/-- What an output node uses once `target` has taken the place of the output node of `id`. -/
def diverted (d : Draft α) (id target o : NodeId) : NodeId :=
  if d.mapping.get? id = some o then target else o

/-- Nothing but bookkeeping. -/
structure Noted (d d' : Draft α) : Prop where
  input : d'.input = d.input
  output : d'.output = d.output
  mapping : d'.mapping = d.mapping
  removed : d'.removed = d.removed
  dirty : d.dirty → d'.dirty
  created : ∀ x ∈ d'.created, x ∈ d.created ∨
    d.Unbound x.2 ∧ d.output.node? x.2 = some (.expression x.1)

/-- The input node and its output node are gone, with the nodes `gone` that depend on that. -/
structure Erased (id : NodeId) (gone : List NodeId) (d d' : Draft α) : Prop where
  input : d'.input = d.input
  output : d.output.Cleared gone d'.output
  provenance? : ∀ j, d'.output.provenance? j = if j ∈ gone then none else d.output.provenance? j
  origins : d'.output.origins = d.output.origins
  self : ∀ j, d.mapping.get? id = some j → j ∈ gone
  least : ∀ B : Set NodeId, (∀ j, d.mapping.get? id = some j → j ∈ B) →
    (∀ x ∈ B, ∀ u ∈ d.output.users x, u ∈ B) → ∀ x ∈ gone, x ∈ B
  mapping : ∀ i j, d'.mapping.get? i = some j ↔ d.mapping.get? i = some j ∧ j ∉ gone
  removed : ∀ i, d'.isRemoved i ↔
    d.isRemoved i ∨ i = id ∨ ∃ j ∈ gone, d.mapping.get? i = some j
  dirty : d'.dirty
  created : d'.created = d.created

/-- The parameter `target` has taken the place of the output node of `id`, and its origins. -/
structure Redirected (id target : NodeId) (q : Provenance) (d d' : Draft α) : Prop where
  input : d'.input = d.input
  node? : ∀ j, d'.output.node? j = if d.mapping.get? id = some j then none
    else (d.output.node? j).map fun n => n.withOperands (n.operands.map (d.diverted id target))
  provenance? : ∀ j, d'.output.provenance? j = if d.mapping.get? id = some j then none
    else if j = target then (d.output.provenance? j).map (·.union q) else d.output.provenance? j
  origins : d'.output.origins = d.output.origins
  issued : ∀ o, d.output.Issued o → d'.output.Issued o
  linked : d'.output.Linked
  mapping : ∀ i, d'.mapping.get? i = if i = id then some target else d.mapping.get? i
  removed : d'.removed = d.removed
  dirty : d'.dirty
  created : d'.created = d.created

end Draft

open Draft

/-- What a move does to a draft. -/
inductive Move : Act α → Draft α → Draft α → Prop
  | note {d d' : Draft α} {id : NodeId} (h : Noted d d') : Move (.note id) d d'
  | copy {d : Draft α} {id j : NodeId} {n : Node α} {js : List NodeId} {q : Provenance}
    {o' : Generation α} (hn : d.input.node? id = some n) (hremoved : d.isRemoved id = false)
    (hmap : d.mapping.get? id = none) (hjs : d.Images n.operands js)
    (henter : d.output.Entered j (n.withOperands js) q o') (hq : d.input.Cites [id] q) :
    Move (.copy id) d { d with output := o', mapping := d.mapping.insert id j }
  | drop {d : Draft α} {id o : NodeId} {journal : Journal} (hid : d.input.contains id)
    (hmap : d.mapping.get? id = none) (ho : o ∈ d.input.operands id) (hremoved : d.isRemoved o) :
    Move (.drop id) d
      { d with removed := d.removed.insert id (), dirty := true, journal := journal }
  | create {d : Draft α} {id j : NodeId} {n : Node α} {q : Provenance} {o' : Generation α}
    (henter : d.output.Entered j n q o') (hq : d.input.Cites [id] q) :
    Move (.create id n) d { d with output := o' }
  | place {d : Draft α} {id j : NodeId} {n : Node α} {q : Provenance} {o' : Generation α}
    (hid : d.input.contains id) (hremoved : d.isRemoved id = false)
    (hmap : d.mapping.get? id = none) (henter : d.output.Entered j n q o') (hq : d.input.Cites [id] q) :
    Move (.write id n) d
      { d with dirty := true, output := o', mapping := d.mapping.insert id j }
  | replace {d : Draft α} {id j : NodeId} {n : Node α} {q : Provenance} {o' : Generation α}
    (hmap : d.mapping.get? id = some j) (hrep : d.output.Rewritten j n q o')
    (hq : d.input.Cites [id] q ∨ (∃ p, d.output.node? j = some (.parameter p)) ∧
      d.output.provenance? j = some q) :
    Move (.write id n) d { d with dirty := true, output := o' }
  | credit {d : Draft α} {out : NodeId} {sources : List NodeId} {q : Provenance}
    (hq : d.input.Cites sources q)
    (hout : ∀ n, d.output.node? out = some n →
      ∃ e, n = .expression e ∧ (d.Unbound out ∨ e.op.isCanonical)) :
    Move (.credit out sources) d { d with output := d.output.addProvenance out q }
  | erase {d d' : Draft α} {id : NodeId} {gone : List NodeId} (hid : d.input.contains id)
    (h : Erased id gone d d') : Move (.erase id) d d'
  | redirect {d d' : Draft α} {id target : NodeId} {p : Parameter α} {q : Provenance}
    (hid : d.input.contains id) (hremoved : d.isRemoved id = false)
    (ht : d.output.node? target = some (.parameter p)) (hfree : d.Unbound target)
    (hq : d.input.Cites [id] q) (h : Redirected id target q d d') : Move (.redirect id target) d d'

/-- Moves one after the other, of which each is allowed on the draft it is made on. -/
def Moves (P : Draft α → Act α → Prop) : Draft α → Draft α → Prop :=
  Relation.ReflTransGen fun d d' => ∃ a, P d a ∧ Move a d d'

namespace Moves

variable {P P' : Draft α → Act α → Prop} {d d' d'' : Draft α} {a : Act α}

theorem refl (d : Draft α) : Moves P d d := Relation.ReflTransGen.refl

theorem single (hP : P d a) (h : Move a d d') : Moves P d d' :=
  Relation.ReflTransGen.single ⟨a, hP, h⟩

theorem trans (h : Moves P d d') (h' : Moves P d' d'') : Moves P d d'' :=
  Relation.ReflTransGen.trans h h'

theorem tail (h : Moves P d d') (hP : P d' a) (hmove : Move a d' d'') : Moves P d d'' :=
  h.trans (.single hP hmove)

theorem mono (h : Moves P d d') (hP : ∀ d a, P d a → P' d a) : Moves P' d d' := by
  induction h with
  | refl => exact refl _
  | tail _ hmove ih =>
    obtain ⟨a, ha, hmove⟩ := hmove
    exact ih.tail (hP _ a ha) hmove

end Moves

namespace Draft

variable {d d' : Draft α} {a : Act α} {id j : NodeId}

/-- What every move keeps: the output nodes of input nodes are there and not shared, and what can be
used again is as it was created. -/
structure Coherent (d : Draft α) : Prop where
  linked : d.output.Linked
  mapped : ∀ i j, d.mapping.get? i = some j → d.input.contains i ∧ d.output.contains j
  kept : ∀ i j, d.mapping.get? i = some j → d.isRemoved i = false
  injective : ∀ i i' j, d.mapping.get? i = some j → d.mapping.get? i' = some j → i = i'
  origins : d.output.origins = d.input.origins
  created : ∀ e c, (e, c) ∈ d.created → d.Unbound c ∧ d.output.Issued c ∧
    (∀ o ∈ e.operands, d.output.Issued o) ∧ ∀ n, d.output.node? c = some n →
      (∃ e', n = .expression e') ∧
        ((∀ o ∈ e.operands, d.output.contains o) → n = .expression e)

theorem coherent_start (g : Generation α) (deduplicate : Bool) (journal : Journal) :
    (start g deduplicate journal).Coherent := by
  refine ⟨Generation.linked_empty _ _, ?_, ?_, ?_, rfl, ?_⟩ <;> simp [start]

/-- The output node of an input node that has one, after a new one is bound. -/
theorem get?_bound {k i : NodeId} (hid : id ≠ .null) (h : (d.mapping.insert id j).get? i = some k) :
    (i = id ∧ k = j) ∨ (i ≠ id ∧ d.mapping.get? i = some k) :=
  (NodeMap.binds_insert hid).cases h

theorem get?_bound_of_none {k i : NodeId} (hid : id ≠ .null) (hmap : d.mapping.get? id = none)
    (h : d.mapping.get? i = some k) : (d.mapping.insert id j).get? i = some k :=
  (NodeMap.binds_insert hid).keeps hmap h

namespace Coherent

variable {n : Node α} {q : Provenance} {o' : Generation α}

theorem unbound_fresh (h : d.Coherent) (hi : d.output.Inserted j n o') : d.Unbound j := fun i hj =>
  hi.ne_of_contains (h.mapped i j hj).2 rfl

theorem mapped?_eq (h : d.Coherent) (id : NodeId) : d.mapped? id = d.mapping.get? id := by
  unfold mapped?
  cases hj : d.mapping.get? id with
  | none => rfl
  | some j => simp [Option.filter, (h.mapped id j hj).2]

/-- A new output node that stands for nothing. -/
theorem insert (h : d.Coherent) (henter : d.output.Entered j n q o') :
    Coherent { d with output := o' } where
  linked := henter.linked h.linked
  mapped i k hk := ⟨(h.mapped i k hk).1, henter.contains (h.mapped i k hk).2⟩
  kept := h.kept
  injective := h.injective
  origins := henter.origins.trans h.origins
  created e c hc := by
    obtain ⟨hfree, hissued, hops, hnode⟩ := h.created e c hc
    refine ⟨hfree, henter.issued c hissued, fun o ho => henter.issued o (hops o ho), fun m hm => ?_⟩
    change o'.node? c = some m at hm
    rw [henter.node?_of_ne (henter.ne_of_issued hissued)] at hm
    refine ⟨(hnode m hm).1, fun hall => (hnode m hm).2 fun o ho => ?_⟩
    obtain ⟨x, hx⟩ := Generation.contains_iff.1 (hall o ho)
    change o'.node? o = some x at hx
    rw [henter.node?_of_ne (henter.ne_of_issued (hops o ho))] at hx
    exact Generation.contains_of_node? hx

/-- An output node that stands for nothing comes to stand for an input node. -/
theorem bind (h : d.Coherent) (hid : d.input.contains id) (hremoved : d.isRemoved id = false)
    (hj : d.output.contains j) (hfree : d.Unbound j) (hcreated : ∀ e, (e, j) ∉ d.created) :
    Coherent { d with mapping := d.mapping.insert id j } where
  linked := h.linked
  mapped i k hk := by
    rcases get?_bound (Generation.ne_null_of_contains hid) hk with ⟨rfl, rfl⟩ | ⟨-, hk⟩
    · exact ⟨hid, hj⟩
    · exact h.mapped i k hk
  kept i k hk := by
    rcases get?_bound (Generation.ne_null_of_contains hid) hk with ⟨rfl, rfl⟩ | ⟨-, hk⟩
    · exact hremoved
    · exact h.kept i k hk
  injective i i' k hk hk' :=
    (NodeMap.binds_insert (Generation.ne_null_of_contains hid)).injective hfree h.injective hk hk'
  origins := h.origins
  created e c hc := by
    obtain ⟨hfree', hrest⟩ := h.created e c hc
    refine ⟨fun i hi => ?_, hrest⟩
    rcases get?_bound (Generation.ne_null_of_contains hid) hi with ⟨-, rfl⟩ | ⟨-, hi⟩
    · exact hcreated e hc
    · exact hfree' i hi

/-- A new output node for an input node. -/
theorem insertFor (h : d.Coherent) (hid : d.input.contains id) (hremoved : d.isRemoved id = false)
    (henter : d.output.Entered j n q o') :
    Coherent { d with output := o', mapping := d.mapping.insert id j } :=
  bind (h.insert henter) hid hremoved (Generation.contains_of_node? henter.node?_self)
    (h.unbound_fresh henter.toInserted) fun e hc => henter.not_issued (h.created e j hc).2.1

theorem replace (h : d.Coherent) (hmap : d.mapping.get? id = some j)
    (hrep : d.output.Rewritten j n q o') : Coherent { d with output := o' } where
  linked := hrep.linked h.linked
  mapped i k hk := ⟨(h.mapped i k hk).1, hrep.contains_iff.2 (h.mapped i k hk).2⟩
  kept := h.kept
  injective := h.injective
  origins := hrep.origins.trans h.origins
  created e c hc := by
    obtain ⟨hfree, hissued, hops, hnode⟩ := h.created e c hc
    refine ⟨hfree, hrep.issued c hissued, fun o ho => hrep.issued o (hops o ho), fun m hm => ?_⟩
    have hne : c ≠ j := fun hcj => hfree id (hcj ▸ hmap)
    change o'.node? c = some m at hm
    rw [hrep.node?_of_ne hne] at hm
    exact ⟨(hnode m hm).1, fun hall => (hnode m hm).2 fun o ho => hrep.contains_iff.1 (hall o ho)⟩

theorem addProvenance (h : d.Coherent) (out : NodeId) (q : Provenance) :
    Coherent { d with output := d.output.addProvenance out q } := by
  have hcont : ∀ {k}, (d.output.addProvenance out q).contains k ↔ d.output.contains k := fun {k} => by
    rw [Generation.contains_iff, Generation.contains_iff, Generation.node?_addProvenance]
  refine ⟨h.linked.addProvenance, fun i k hk => ?_, h.kept, h.injective, h.origins, fun e c hc => ?_⟩
  · exact ⟨(h.mapped i k hk).1, hcont.2 (h.mapped i k hk).2⟩
  · obtain ⟨hfree, hissued, hops, hnode⟩ := h.created e c hc
    refine ⟨hfree, hissued.addProvenance, fun o ho => (hops o ho).addProvenance, fun m hm => ?_⟩
    change (d.output.addProvenance out q).node? c = some m at hm
    rw [Generation.node?_addProvenance] at hm
    exact ⟨(hnode m hm).1, fun hall => (hnode m hm).2 fun o ho => hcont.1 (hall o ho)⟩

theorem noted (h : d.Coherent) (hn : Noted d d') : d'.Coherent := by
  refine ⟨?_, ?_, ?_, ?_, ?_, fun e c hc => ?_⟩
  · rw [hn.output]
    exact h.linked
  · rw [hn.mapping, hn.input, hn.output]
    exact h.mapped
  · rw [hn.mapping]
    unfold isRemoved
    rw [hn.removed]
    exact h.kept
  · rw [hn.mapping]
    exact h.injective
  · rw [hn.output, hn.input]
    exact h.origins
  · unfold Unbound
    rw [hn.mapping, hn.output]
    rcases hn.created (e, c) hc with hc | ⟨hfree, hnode⟩
    · exact h.created e c hc
    · refine ⟨hfree, Generation.issued_of_contains (Generation.contains_of_node? hnode),
        fun o ho => Generation.issued_of_contains (h.linked.contains hnode ho), fun m hm => ?_⟩
      cases hnode.symm.trans hm
      exact ⟨⟨e, rfl⟩, fun _ => rfl⟩

theorem erased {gone : List NodeId} (h : d.Coherent) (he : Erased id gone d d') : d'.Coherent where
  linked := he.output.linked h.linked
  mapped i k hk := by
    obtain ⟨hk, hgone⟩ := (he.mapping i k).1 hk
    rw [he.input]
    exact ⟨(h.mapped i k hk).1, he.output.contains_iff.2 ⟨(h.mapped i k hk).2, hgone⟩⟩
  kept i k hk := by
    obtain ⟨hk, hgone⟩ := (he.mapping i k).1 hk
    refine Bool.eq_false_iff.2 fun hrem => ?_
    rcases (he.removed i).1 hrem with hrem | rfl | ⟨k', hk', hmap⟩
    · rw [h.kept i k hk] at hrem
      cases hrem
    · exact hgone (he.self k hk)
    · cases hk.symm.trans hmap
      exact hgone hk'
  injective i i' k hk hk' :=
    h.injective i i' k ((he.mapping i k).1 hk).1 ((he.mapping i' k).1 hk').1
  origins := by rw [he.origins, he.input, h.origins]
  created e c hc := by
    rw [he.created] at hc
    obtain ⟨hfree, hissued, hops, hnode⟩ := h.created e c hc
    refine ⟨fun i hi => hfree i ((he.mapping i c).1 hi).1, he.output.issued c hissued,
      fun o ho => he.output.issued o (hops o ho), fun m hm => ?_⟩
    have hm' := (he.output.node?_of_some hm).1
    exact ⟨(hnode m hm').1, fun hall => (hnode m hm').2 fun o ho =>
      (he.output.contains_iff.1 (hall o ho)).1⟩

theorem redirected {target : NodeId} {p : Parameter α} (h : d.Coherent) (hid : d.input.contains id)
    (hremoved : d.isRemoved id = false) (ht : d.output.node? target = some (.parameter p))
    (hfree : d.Unbound target) (hr : Redirected id target q d d') : d'.Coherent := by
  have hbinds : d.mapping.Binds id target d'.mapping := hr.mapping
  have hcont : ∀ {k}, d.output.contains k → d.mapping.get? id ≠ some k → d'.output.contains k := by
    intro k hk hne
    obtain ⟨n, hn⟩ := Generation.contains_iff.1 hk
    exact Generation.contains_of_node? (by rw [hr.node?, if_neg hne, hn]; rfl)
  constructor
  case linked => exact hr.linked
  case mapped =>
    intro i k hk
    rw [hr.input]
    rcases hbinds.cases_of_injective h.injective hk with ⟨rfl, rfl⟩ | ⟨-, hk, hold⟩
    · exact ⟨hid, hcont (Generation.contains_of_node? ht) (hfree i)⟩
    · exact ⟨(h.mapped i k hk).1, hcont (h.mapped i k hk).2 hold⟩
  case kept =>
    intro i k hk
    unfold isRemoved
    rw [hr.removed]
    rcases hbinds.cases hk with ⟨rfl, rfl⟩ | ⟨-, hk⟩
    · exact hremoved
    · exact h.kept i k hk
  case injective => exact fun i i' k hk hk' => hbinds.injective hfree h.injective hk hk'
  case origins => rw [hr.origins, hr.input, h.origins]
  case created =>
    intro e c hc
    rw [hr.created] at hc
    obtain ⟨hfree', hissued, hops, hnode⟩ := h.created e c hc
    refine ⟨fun i hi => ?_, hr.issued c hissued, fun o ho => hr.issued o (hops o ho), fun m hm => ?_⟩
    · rcases hbinds.cases hi with ⟨-, rfl⟩ | ⟨-, hi⟩
      · obtain ⟨⟨e', he'⟩, -⟩ := hnode _ ht
        cases he'
      · exact hfree' i hi
    · rw [hr.node?] at hm
      split_ifs at hm
      obtain ⟨n, hn, rfl⟩ := Option.map_eq_some_iff.1 hm
      obtain ⟨⟨e', rfl⟩, hsame⟩ := hnode n hn
      refine ⟨⟨_, rfl⟩, fun hall => ?_⟩
      -- what is still there was not the output node of `id`, so nothing was diverted
      have hkeep : ∀ o ∈ e.operands, d.mapping.get? id ≠ some o ∧ d.output.contains o := by
        intro o ho
        obtain ⟨x, hx⟩ := Generation.contains_iff.1 (hall o ho)
        rw [hr.node?] at hx
        split_ifs at hx with hne
        obtain ⟨y, hy, -⟩ := Option.map_eq_some_iff.1 hx
        exact ⟨hne, Generation.contains_of_node? hy⟩
      cases hsame fun o ho => (hkeep o ho).2
      have hmap : e.operands.map (d.diverted id target) = e.operands := by
        refine (List.map_congr_left fun o ho => ?_).trans (List.map_id _)
        exact if_neg (hkeep o ho).1
      exact congrArg (Node.withOperands (.expression e)) hmap

/-- Every move keeps a draft coherent. -/
theorem move (h : d.Coherent) (hm : Move a d d') : d'.Coherent := by
  cases hm with
  | note hn => exact h.noted hn
  | copy hn hremoved hmap hjs henter hq =>
    exact h.insertFor (Generation.contains_of_node? hn) hremoved henter
  | @drop _ id o journal hid hmap ho hremoved =>
    refine { h with kept := fun i k hk => ?_ }
    have hne : i ≠ id := by
      rintro rfl
      rw [hmap] at hk
      cases hk
    have hrem := h.kept i k hk
    unfold isRemoved at hrem ⊢
    rw [Bool.eq_false_iff, ne_eq, NodeMap.contains_insert (Generation.ne_null_of_contains hid), hrem]
    simp [hne]
  | create henter hq => exact h.insert henter
  | place hid hremoved hmap henter hq =>
    have h' := h.insertFor hid hremoved henter
    exact ⟨h'.linked, h'.mapped, h'.kept, h'.injective, h'.origins, h'.created⟩
  | replace hmap hrep hq =>
    have h' := h.replace hmap hrep
    exact ⟨h'.linked, h'.mapped, h'.kept, h'.injective, h'.origins, h'.created⟩
  | credit hq => exact h.addProvenance _ _
  | erase hid he => exact h.erased he
  | redirect hid hremoved ht hfree hq hr => exact h.redirected hid hremoved ht hfree hr

end Coherent

end Draft

variable {P : Draft α → Act α → Prop} {d d' : Draft α}

/-- What every allowed move keeps is kept by all of them. -/
theorem Moves.invariant {I : Draft α → Prop} (h : Moves P d d') (hd : d.Coherent) (hI : I d)
    (hstep : ∀ d a d', d.Coherent → P d a → Move a d d' → I d → I d') : I d' ∧ d'.Coherent := by
  induction h with
  | refl => exact ⟨hI, hd⟩
  | tail _ hmove ih =>
    obtain ⟨a, ha, hmove⟩ := hmove
    exact ⟨hstep _ a _ ih.2 ha hmove ih.1, ih.2.move hmove⟩

theorem Moves.coherent (h : Moves P d d') (hd : d.Coherent) : d'.Coherent :=
  (h.invariant hd trivial fun _ _ _ _ _ _ _ => trivial).2

theorem Move.input {a : Act α} (h : Move a d d') : d'.input = d.input := by
  cases h with
  | note h => exact h.input
  | erase _ h => exact h.input
  | redirect _ _ _ _ _ h => exact h.input
  | _ => rfl

theorem Moves.input (h : Moves P d d') : d'.input = d.input := by
  induction h with
  | refl => rfl
  | tail _ hmove ih => exact (hmove.choose_spec.2.input).trans ih

end ParameterSolver
