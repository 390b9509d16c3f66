import ParameterSolver.Proofs.Draft.Invariants
import ParameterSolver.Proofs.Draft.Rewrites
import ParameterSolver.Proofs.Pass.Total

/-! The passes that remove nothing: each of them goes through some nodes of the graph, changes those
that are due in their place and creates what has to go with them. -/

namespace ParameterSolver

open Draft

variable {α β : Type} [Scalar α] {g : Generation α} {d d' : Draft α}

/-- Copies, and changes on behalf of nodes that are due. -/
def Act.Gentle (due : NodeId → Prop) (W C : Draft α → NodeId → Node α → Prop) (d : Draft α) :
    Act α → Prop
  | .copy _ | .drop _ => True
  | .write id n => due id ∧ W d id n
  | .create id n => due id ∧ C d id n
  | .note id => due id
  | .credit _ sources => ∃ id, due id ∧ sources = [id]
  | .erase _ | .redirect .. => False

section Gentle

variable {due due' : NodeId → Prop} {W C : Draft α → NodeId → Node α → Prop} {a : Act α}

omit [Scalar α] in
theorem Act.Gentle.mono (h : a.Gentle due W C d) (hdue : ∀ id, due id → due' id) :
    a.Gentle due' W C d := by
  cases a with
  | write id n => exact ⟨hdue id h.1, h.2⟩
  | create id n => exact ⟨hdue id h.1, h.2⟩
  | note id => exact hdue id h
  | credit out sources =>
    obtain ⟨id, hid, hs⟩ := h
    exact ⟨id, hdue id hid, hs⟩
  | _ => exact h

omit [Scalar α] in
theorem Act.Under.gentle {id : NodeId} (h : a.Under g id) : a.Gentle due W C d := by
  cases a with
  | copy i | drop i => trivial
  | _ => exact h.elim

omit [Scalar α] in
theorem Act.Builds.gentle {id : NodeId} (h : a.Builds g id (fun d n => C d id n) d)
    (hid : due id) : a.Gentle due W C d := by
  cases a with
  | copy i | drop i => trivial
  | create i n =>
    obtain ⟨rfl, hC⟩ := h
    exact ⟨hid, hC⟩
  | note i => exact (show i = id from h) ▸ hid
  | credit out sources => exact ⟨id, hid, h⟩
  | _ => exact h.elim

namespace Draft

/-- The output node of an input node that has one looks like it. -/
def Intact (x : NodeId) (d : Draft α) : Prop :=
  ∀ j, d.mapping.get? x = some j → ∃ n m, d.output.node? j = some n ∧
    d.input.node? x = some m ∧ n.skeleton = m.skeleton

omit [Scalar α] in
theorem Shaped.intact {W : NodeId → Node α → Prop} {C : Node α → Prop} {x : NodeId}
    (h : Shaped W C d) (hd : d.Coherent) (hx : ∀ n, ¬ W x n) : Intact x d := by
  intro j hj
  obtain ⟨n, hn⟩ := Generation.contains_iff.1 (hd.mapped x j hj).2
  rcases h j n hn with ⟨i, m, hi, hm, hsame | hW⟩ | ⟨hfree, -⟩
  · exact ⟨n, m, hn, (hd.injective i x j hi hj) ▸ hm, hsame⟩
  · exact absurd ((hd.injective i x j hi hj) ▸ hW) (hx _)
  · exact absurd hj (hfree x)

end Draft

/-- What is known of the draft of a pass that removes nothing, once it is closed. -/
structure Outcome (g : Generation α) (due : NodeId → Prop) (W C : Draft α → NodeId → Node α → Prop)
    (Q : NodeId → Node α → Prop) (E : NodeId → Draft α → Prop) (deduplicate : Bool)
    (journal : Journal) (d : Draft α) : Prop where
  moves : Moves (Act.Gentle due W C) (start g deduplicate journal) d
  closed : d.Closed
  stands : ∀ x, due x → Stands x (Q x) d ∧ E x d ∧ d.dirty

variable {Q : NodeId → Node α → Prop} {E : NodeId → Draft α → Prop} {deduplicate : Bool} {journal journal' : Journal}

omit [Scalar α] in
theorem Moves.kept (h : Moves (Act.Gentle due W C) d d') (hd : d.Coherent)
    (hk : ∀ i, d.isRemoved i = false) : ∀ i, d'.isRemoved i = false :=
  (h.invariant hd hk fun _ a _ _ ha hmove hk => hmove.kept (by rintro id rfl; exact ha) hk).1

omit [Scalar α] in
theorem Moves.stands {x : NodeId} {R : Node α → Prop} (h : Moves (Act.Gentle due W C) d d')
    (hd : d.Coherent) (hx : ¬ due x) (hs : Stands x R d) : Stands x R d' :=
  (h.invariant hd hs fun _ a _ hd ha hmove hs => hmove.stands hd (by rintro n rfl; exact hx ha.1)
    (by rintro id rfl; exact ha) (by rintro id t rfl; exact ha) hs).1

omit [Scalar α] in
theorem Moves.preserves (h : Moves (Act.Gentle due W C) d d') : Preserves d d' := by
  induction h with
  | refl =>
    exact ⟨fun _ _ h => h, fun _ _ hfree hc => ⟨hfree, hc⟩, fun c q _ hq => ⟨q, hq, fun _ h => h⟩⟩
  | tail _ hmove ih =>
    obtain ⟨a, ha, hmove⟩ := hmove
    exact ih.trans (hmove.preserves (by rintro id rfl; exact ha) (by rintro id t rfl; exact ha))

omit [Scalar α] in
theorem kept_start (g : Generation α) (deduplicate : Bool) (journal : Journal) (i : NodeId) :
    (start g deduplicate journal).isRemoved i = false := by
  simp [isRemoved, start, NodeMap.contains]

omit [Scalar α] in
theorem shaped_start (W : NodeId → Node α → Prop) (C : Node α → Prop) :
    Shaped W C (start g deduplicate journal) := by
  intro j n hn
  simp [start, Generation.node?, Generation.get?, Generation.empty] at hn

/-- A pass that goes through the nodes of a list once, each step of which changes the node in its
place if it is due. -/
theorem Pass.exists_outcome {pass : Pass α} {f : β → Edit α Unit} {k : β → NodeId} {l : List β}
    {rev : Revision α} (hg : g.Acyclic)
    (hrun : ∀ d, Runs pass.run (start g deduplicate journal) ⟨⟩ d →
      Runs (l.forM f) (start g deduplicate journal) ⟨⟩ d)
    (hnodup : (l.map k).Nodup) (hdue : ∀ x, due x → ∃ y ∈ l, k y = x)
    (hE : ∀ x d d', Preserves d d' → E x d → E x d')
    (hstep : ∀ y ∈ l, ∀ d d', d.Coherent → d.input = g → (∀ i, d.isRemoved i = false) →
      Intact (k y) d → Runs (f y) d ⟨⟩ d' →
      Moves (Act.Gentle (fun x => x = k y ∧ due x) W C) d d' ∧
        (due (k y) → Stands (k y) (Q (k y)) d' ∧ E (k y) d' ∧ d'.dirty))
    (h : pass.apply deduplicate journal g = .ok (rev, journal')) :
    ∃ d, Outcome g due W C Q E deduplicate journal d ∧ rev = ⟨d.output, d.dirty, d.mapping⟩ := by
  have hstart := coherent_start g deduplicate journal
  obtain ⟨d₁, d₂, hr, hclose⟩ := Pass.runs_of_apply h
  obtain ⟨hmoves, hall⟩ := runs_forM (l := l) (d := start g deduplicate journal)
    (P := fun done d => Moves (Act.Gentle (fun x => x ∈ done.map k ∧ due x) W C)
        (start g deduplicate journal) d ∧
      ∀ y ∈ done, due (k y) → Stands (k y) (Q (k y)) d ∧ E (k y) d ∧ d.dirty)
    (fun done y rest hl d d' _ ⟨hmoves, hall⟩ hr => by
      have hd := hmoves.coherent hstart
      rw [← hl, List.map_append, List.map_cons, List.nodup_append] at hnodup
      have hnew : k y ∉ done.map k := fun hmem => hnodup.2.2 _ hmem _ (by simp) rfl
      have hintact : Intact (k y) d := by
        refine (hmoves.shaped (W := fun i _ => i ∈ done.map k) (C := fun _ => True)
          (fun _ a ha => ?_) hstart (shaped_start _ _)).intact hd fun _ => hnew
        cases a with
        | write id n => exact ha.1.1
        | redirect id t => exact ha.elim
        | _ => trivial
      obtain ⟨h', hself⟩ := hstep y (hl ▸ by simp) d d' hd hmoves.input
        (hmoves.kept hstart (kept_start g deduplicate journal)) hintact hr
      refine ⟨?_, fun z hz hzdue => ?_⟩
      · refine (hmoves.mono fun _ _ ha => ha.mono fun x hx => ⟨?_, hx.2⟩).trans
          (h'.mono fun _ _ ha => ha.mono fun x hx => ⟨?_, hx.2⟩)
        · rw [List.map_append, hx.1]
          exact List.mem_append_right _ (by simp)
        · rw [List.map_append]
          exact List.mem_append_left _ hx.1
      · rcases List.mem_append.1 hz with hz | hz
        · obtain ⟨hs, hEz, hdirty⟩ := hall z hz hzdue
          refine ⟨h'.stands hd (fun hx => hnew ?_) hs, hE _ _ _ h'.preserves hEz, h'.dirty hdirty⟩
          rw [← hx.1]
          exact List.mem_map_of_mem hz
        · rw [List.mem_singleton.1 hz] at hzdue ⊢
          exact hself hzdue) (List.nil_append _) ⟨.refl _, by simp⟩ (hrun d₁ hr)
  have hd₁ := hmoves.coherent hstart
  obtain ⟨hcopies, hclosed, rfl⟩ := moves_close hg hd₁ hmoves.input hclose
  have hgentle : Moves (Act.Gentle (fun _ => False) W C) d₁ d₂ := hcopies.mono fun _ a ha => by
    obtain ⟨i, rfl | rfl⟩ := ha <;> trivial
  refine ⟨d₂, ⟨(hmoves.mono fun _ _ ha => ha.mono fun _ hx => hx.2).trans
    (hgentle.mono fun _ _ ha => ha.mono fun _ hx => hx.elim), hclosed, fun x hx => ?_⟩, rfl⟩
  obtain ⟨y, hy, rfl⟩ := hdue x hx
  obtain ⟨hs, hEy, hdirty⟩ := hall y hy hx
  exact ⟨hgentle.stands hd₁ (fun h => h) hs, hE _ _ _ hgentle.preserves hEy, hgentle.dirty hdirty⟩

namespace Outcome

variable (h : Outcome g due W C Q E deduplicate journal d)

include h

omit [Scalar α]

theorem input : d.input = g := h.moves.input

theorem coherent : d.Coherent := h.moves.coherent (coherent_start g deduplicate journal)

theorem kept : ∀ i, d.isRemoved i = false :=
  h.moves.kept (coherent_start g deduplicate journal) (kept_start g deduplicate journal)

theorem mapped {i : NodeId} (hi : g.contains i) : ∃ j, d.mapping.get? i = some j :=
  (h.closed i (h.input ▸ hi)).resolve_right (by simp [h.kept])

theorem sourced : Sourced d :=
  h.moves.sourced (coherent_start g deduplicate journal) (sourced_start g deduplicate journal)

/-- Every output node is the copy of a node that is not due, or stands for one that is, or was
created. -/
theorem inventory {R : NodeId → Node α → Prop} (hC : ∀ d i n, C d i n → R i n.skeleton) {j : NodeId}
    {n : Node α} (hn : d.output.node? j = some n) :
    (∃ i m, d.mapping.get? i = some j ∧ g.node? i = some m ∧ ¬ due i ∧ n.skeleton = m.skeleton) ∨
      (∃ i, d.mapping.get? i = some j ∧ due i ∧ Q i n.skeleton) ∨
      (d.Unbound j ∧ ∃ i, due i ∧ R i n.skeleton) := by
  have hd := h.coherent
  have hshaped : Shaped (fun i _ => due i) (fun n => ∃ i, due i ∧ R i n) d := by
    refine h.moves.shaped (fun d a ha => ?_) (coherent_start g deduplicate journal) (shaped_start _ _)
    cases a with
    | write id m => exact ha.1
    | create id m => exact ⟨id, ha.1, hC d id m ha.2⟩
    | redirect id t => exact ha.elim
    | _ => trivial
  have hdue : ∀ i, d.mapping.get? i = some j → due i → Q i n.skeleton := by
    intro i hi hidue
    obtain ⟨k, m, hk, hm, hQ⟩ := (h.stands i hidue).1
    cases hi.symm.trans hk
    cases hn.symm.trans hm
    exact hQ
  rcases hshaped j n hn with ⟨i, m, hi, hm, hsame⟩ | hfree
  · by_cases hidue : due i
    · exact Or.inr (Or.inl ⟨i, hi, hidue, hdue i hi hidue⟩)
    · exact Or.inl ⟨i, m, hi, h.input ▸ hm, hidue, hsame.resolve_right hidue⟩
  · exact Or.inr (Or.inr hfree)

/-- The pass publishes a graph exactly if some node is due. -/
theorem dirty_iff : d.dirty ↔ ∃ x, due x := by
  refine ⟨fun hdirty => ?_, fun ⟨x, hx⟩ => (h.stands x hx).2.2⟩
  by_contra hnone
  have hclean : d.dirty = false ∧ ∀ i, d.isRemoved i = false := by
    refine (h.moves.invariant (I := fun d => d.dirty = false ∧ ∀ i, d.isRemoved i = false)
      (coherent_start g deduplicate journal) ⟨rfl, kept_start g deduplicate journal⟩
      fun d a d' hd ha hmove hI => ⟨?_, hmove.kept (by rintro id rfl; exact ha) hI.2⟩).1
    cases hmove with
    | copy => exact hI.1
    | drop _ _ _ hremoved =>
      rw [hI.2] at hremoved
      cases hremoved
    | note => exact absurd ⟨_, ha⟩ hnone
    | create => exact absurd ⟨_, ha.1⟩ hnone
    | place => exact absurd ⟨_, ha.1⟩ hnone
    | replace => exact absurd ⟨_, ha.1⟩ hnone
    | credit =>
      obtain ⟨id, hid, -⟩ := ha
      exact absurd ⟨id, hid⟩ hnone
    | erase | redirect => exact ha.elim
  rw [hclean.1] at hdirty
  cases hdirty

/-- Output nodes use what stands for the operands of the input node. -/
theorem images (hW : ∀ d i n, d.input = g → due i → W d i n → d.Images (g.operands i) n.operands)
    {i j : NodeId} (hj : d.mapping.get? i = some j) :
    d.Images (g.operands i) (d.output.operands j) := by
  obtain ⟨-, hmirrors⟩ := (h.moves.invariant
    (I := fun d => d.input = g ∧ Mirrors Set.univ (fun i l => l = g.operands i) d)
    (coherent_start g deduplicate journal) ⟨rfl, fun i j _ hj => by simp [start] at hj⟩
    fun d a d' hd ha hmove hI => ⟨hmove.input.trans hI.1, hmove.mirrors hd (by
      cases a with
      | copy id => exact fun _ => by rw [hI.1]
      | write id n => exact fun _ => ⟨_, rfl, hW d id n hI.1 ha.1 ha.2⟩
      | redirect id t => exact ha.elim
      | _ => trivial) hI.2⟩).1
  obtain ⟨l, rfl, himages⟩ := hmirrors i j trivial hj
  exact himages

end Outcome

end Gentle

end ParameterSolver
