import ParameterSolver.Proofs.Pass.Lawful

/-! What the pass over the operators leaves behind. Nothing goes but what depends on an operator
without a law: a cascade in the output follows users, and a user of what depends on such an operator
stands for a node that does, or for none. -/

namespace ParameterSolver

open Draft

variable {α : Type} [Scalar α] {g : Generation α} {d d' : Draft α} {id : NodeId} {a : Act α}
  {D : NodeId → Prop}

/-- The node is made of something that has no law. -/
def Generation.Tainted (g : Generation α) (id : NodeId) : Prop :=
  ∃ x, Relation.ReflTransGen g.Uses id x ∧ g.Unsupported x

omit [Scalar α] in
theorem Generation.Tainted.of_operand {o : NodeId} (h : g.Tainted o) (ho : o ∈ g.operands id) :
    g.Tainted id := by
  obtain ⟨x, hx, hun⟩ := h
  exact ⟨x, .head ho hx, hun⟩

omit [Scalar α] in
theorem Generation.Unsupported.tainted (h : g.Unsupported id) : g.Tainted id := ⟨id, .refl, h⟩

omit [Scalar α] in
theorem Generation.not_tainted_of_operands {n : NodeId} {m : Node α} (hn : g.node? n = some m)
    (hop : ∀ e, m = .expression e → e.op ≠ .cardinality ∧ e.op ≠ .differentiate ∧ e.op ≠ .integrate)
    (ho : ∀ o ∈ m.operands, ¬ g.Tainted o) : ¬ g.Tainted n := by
  rintro ⟨y, hpath, hy⟩
  rcases Relation.ReflTransGen.cases_head hpath with rfl | ⟨o, huses, hpath⟩
  · obtain ⟨e, he, hlaw⟩ := hy
    cases hn.symm.trans he
    obtain ⟨h₁, h₂, h₃⟩ := hop e rfl
    rcases hlaw with h | h | h
    · exact h₁ h
    · exact h₂ h
    · exact h₃ h
  · rw [Generation.Uses, Generation.operands_of_node? hn] at huses
    exact ho o huses ⟨y, hpath, hy⟩

omit [Scalar α] in
theorem Generation.not_tainted_of_leaf {n : NodeId} {m : Node α} (hn : g.node? n = some m)
    (hm : m.expression? = none) : ¬ g.Tainted n := by
  refine Generation.not_tainted_of_operands hn ?_ ?_
  · rintro e rfl
    cases hm
  · intro o ho
    rw [Node.operands_of_leaf hm] at ho
    cases ho

namespace Draft

/-- The output node would go with the tainted nodes. -/
inductive Marked (g : Generation α) (d : Draft α) : NodeId → Prop
  | image {i j : NodeId} {e : Expression} (hi : d.mapping.get? i = some j) (ht : g.Tainted i)
    (hj : d.output.node? j = some (.expression e)) : Marked g d j
  | user {u o : NodeId} (hfree : d.Unbound u) (ho : o ∈ d.output.operands u) (hm : Marked g d o) :
    Marked g d u

/-- What would go with the tainted nodes stands for tainted nodes, and so does what is gone. -/
structure Shaded (g : Generation α) (d : Draft α) : Prop where
  users : ∀ i j o, d.mapping.get? i = some j → o ∈ d.output.operands j → Marked g d o → g.Tainted i
  removed : ∀ i, d.isRemoved i → g.Tainted i

omit [Scalar α] in
theorem Marked.tainted {i j : NodeId} (h : Marked g d j) (hd : d.Coherent)
    (hi : d.mapping.get? i = some j) : g.Tainted i := by
  cases h with
  | image hi' ht _ => exact hd.injective _ _ _ hi' hi ▸ ht
  | user hfree _ _ => exact absurd hi (hfree i)

omit [Scalar α] in
/-- What is made of the operands of a node is not marked, unless the node is tainted. -/
theorem Stems.tainted {j : NodeId} (h : d.Stems (g.operands id) j) (hd : d.Coherent)
    (hm : Marked g d j) : g.Tainted id := by
  induction h with
  | image ho hj => exact (hm.tainted hd hj).of_operand ho
  | made hfree hn _ ih =>
    cases hm with
    | image hi _ _ => exact absurd hi (hfree _)
    | user _ ho hm' =>
      rw [Generation.operands_of_node? hn] at ho
      exact ih _ ho hm'

omit [Scalar α] in
/-- Marks do not spread to nodes that were there before, if these stand for what they stood for and
use what they used, as far as it is marked. -/
theorem Marked.of_old {k : NodeId} (h : Marked g d' k) (Old : NodeId → Prop)
    (himage : ∀ i j e, Old j → d'.mapping.get? i = some j →
      d'.output.node? j = some (.expression e) →
      d.mapping.get? i = some j ∧ ∃ e', d.output.node? j = some (.expression e'))
    (huser : ∀ u o, Old u → d'.Unbound u → o ∈ d'.output.operands u → Marked g d' o →
      d.Unbound u ∧ o ∈ d.output.operands u ∧ Old o) (hk : Old k) : Marked g d k := by
  induction h with
  | image hi ht hj =>
    obtain ⟨hi', e', hj'⟩ := himage _ _ _ hk hi hj
    exact .image hi' ht hj'
  | user hfree ho hm ih =>
    obtain ⟨hfree', ho', hold⟩ := huser _ _ hk hfree ho hm
    exact .user hfree' ho' (ih hold)

omit [Scalar α] in
theorem Marked.of_insert {j k : NodeId} {n : Node α} {q : Provenance} {o' : Generation α}
    {m : NodeMap NodeId} {dirty : Bool} (henter : d.output.Entered j n q o') (hd : d.Coherent)
    (hmap : ∀ i x, x ≠ j → (m.get? i = some x ↔ d.mapping.get? i = some x))
    (h : Marked g { d with dirty := dirty, output := o', mapping := m } k) (hk : k ≠ j) :
    Marked g d k := by
  refine h.of_old (· ≠ j) (fun i x e hx hi hnode => ?_) (fun u o hu hfree ho _ => ?_) hk
  · exact ⟨(hmap i x hx).1 hi, e, (henter.node?_of_ne hx).symm.trans hnode⟩
  · have hops : o ∈ d.output.operands u := by
      rwa [← Generation.operands_congr (henter.node?_of_ne hu)]
    exact ⟨fun i hi => hfree i ((hmap i u hu).2 hi), hops,
      henter.ne_of_contains (hd.linked.closed u o hops)⟩

omit [Scalar α] in
/-- What neither changes nodes nor what they stand for. -/
theorem Shaded.of_same (h : Shaded g d) (hmap : d'.mapping = d.mapping)
    (hnode : ∀ j, d'.output.node? j = d.output.node? j)
    (hremoved : ∀ i, d'.isRemoved i → g.Tainted i) : Shaded g d' := by
  have hops : ∀ j, d'.output.operands j = d.output.operands j := fun j =>
    Generation.operands_congr (hnode j)
  refine ⟨fun i j o hi ho hm => ?_, hremoved⟩
  rw [hmap] at hi
  rw [hops] at ho
  refine h.users i j o hi ho (hm.of_old (fun _ => True) (fun i j e _ hi hj => ?_)
    (fun u o _ hfree ho _ => ?_) trivial)
  · exact ⟨hmap ▸ hi, e, (hnode j).symm.trans hj⟩
  · exact ⟨fun i hi => hfree i (hmap.symm ▸ hi), hops u ▸ ho, trivial⟩

omit [Scalar α] in
/-- A new output node for an input node that is tainted if something marked is used. -/
theorem Shaded.insertFor {j : NodeId} {n : Node α} {q : Provenance} {o' : Generation α}
    (h : Shaded g d) (hd : d.Coherent) (hid : id ≠ .null) (hmap : d.mapping.get? id = none)
    (henter : d.output.Entered j n q o') (hn : ∀ o ∈ n.operands, Marked g d o → g.Tainted id)
    (dirty : Bool) :
    Shaded g { d with dirty := dirty, output := o', mapping := d.mapping.insert id j } := by
  have hbound : ∀ i x, x ≠ j →
      ((d.mapping.insert id j).get? i = some x ↔ d.mapping.get? i = some x) := by
    intro i x hx
    refine ⟨fun hi => ?_, get?_bound_of_none hid hmap⟩
    rcases get?_bound hid hi with ⟨-, rfl⟩ | ⟨-, hi⟩
    · exact absurd rfl hx
    · exact hi
  refine ⟨fun i x o hi ho hm => ?_, h.removed⟩
  dsimp only at ho
  by_cases hx : x = j
  · subst hx
    rw [Generation.operands_of_node? henter.node?_self] at ho
    obtain rfl : i = id := by
      rcases get?_bound hid hi with ⟨rfl, -⟩ | ⟨-, hi⟩
      · rfl
      · exact absurd hi (hd.unbound_fresh henter.toInserted i)
    exact hn o ho (hm.of_insert henter hd hbound (henter.ne_of_contains (henter.operands o ho)))
  · rw [Generation.operands_congr (henter.node?_of_ne hx)] at ho
    exact h.users i x o ((hbound i x hx).1 hi) ho
      (hm.of_insert henter hd hbound (henter.ne_of_contains (hd.linked.closed x o ho)))

omit [Scalar α] in
theorem Shaded.replace {j : NodeId} {n : Node α} {q : Provenance} {o' : Generation α}
    (h : Shaded g d) (hd : d.Coherent) (hexp : d.Expresses id) (hmap : d.mapping.get? id = some j)
    (hrep : d.output.Rewritten j n q o') (hn : ∀ o ∈ n.operands, Marked g d o → g.Tainted id) :
    Shaded g { d with dirty := true, output := o' } := by
  have hmarked : ∀ {k}, Marked g { d with dirty := true, output := o' } k → Marked g d k := by
    refine fun hm => hm.of_old (fun _ => True) (fun i x e _ hi hnode => ⟨hi, ?_⟩)
      (fun u o _ hfree ho _ => ⟨hfree, ?_, trivial⟩) trivial
    · by_cases hx : x = j
      · exact hx ▸ hexp j hmap
      · exact ⟨e, (hrep.node?_of_ne hx).symm.trans hnode⟩
    · have hne : u ≠ j := fun hu => hfree id (hu ▸ hmap)
      rwa [← Generation.operands_congr (hrep.node?_of_ne hne)]
  refine ⟨fun i x o hi ho hm => ?_, h.removed⟩
  dsimp only at ho
  by_cases hx : x = j
  · subst hx
    rw [Generation.operands_of_node? hrep.node?_self] at ho
    exact hd.injective id i x hmap hi ▸ hn o ho (hmarked hm)
  · rw [Generation.operands_congr (hrep.node?_of_ne hx)] at ho
    exact h.users i x o hi ho (hmarked hm)

omit [Scalar α] in
/-- What goes with a tainted node is marked. -/
theorem Shaded.erased {gone : List NodeId} (h : Shaded g d) (hd : d.Coherent) (hexp : d.Expresses id)
    (hid : g.Tainted id) (he : Erased id gone d d') : Shaded g d' := by
  have hgone : ∀ x ∈ gone, Marked g d x := by
    refine he.least { x | Marked g d x } (fun j hj => ?_) (fun x hx u hu => ?_)
    · obtain ⟨e, hje⟩ := hexp j hj
      exact .image hj hid hje
    · have ho := (hd.linked.users x u).1 hu
      by_cases hfree : d.Unbound u
      · exact .user hfree ho hx
      · obtain ⟨i, hi⟩ := not_forall_not.1 hfree
        obtain ⟨n, hn⟩ := Generation.node?_of_mem_operands ho
        rw [Generation.operands_of_node? hn] at ho
        cases n with
        | expression e =>
          exact .image hi (h.users i u x hi (by rwa [Generation.operands_of_node? hn]) hx) hn
        | _ => cases ho
  have hstays : ∀ {j n}, d'.output.node? j = some n → d.output.node? j = some n ∧ j ∉ gone :=
    fun hj => he.output.node?_of_some hj
  have hops : ∀ {j o}, o ∈ d'.output.operands j → o ∈ d.output.operands j ∧ j ∉ gone := by
    intro j o ho
    obtain ⟨n, hn⟩ := Generation.node?_of_mem_operands ho
    rw [Generation.operands_of_node? hn] at ho
    exact ⟨by rwa [Generation.operands_of_node? (hstays hn).1], (hstays hn).2⟩
  refine ⟨fun i j o hi ho hm => ?_, fun i hi => ?_⟩
  · refine h.users i j o ((he.mapping i j).1 hi).1 (hops ho).1 (hm.of_old (fun _ => True)
      (fun i j e _ hi hj => ⟨((he.mapping i j).1 hi).1, e, (hstays hj).1⟩)
      (fun u o _ hfree ho _ => ⟨fun i hi => ?_, (hops ho).1, trivial⟩) trivial)
    exact hfree i ((he.mapping i u).2 ⟨hi, (hops ho).2⟩)
  · rcases (he.removed i).1 hi with hi | rfl | ⟨j, hj, hij⟩
    · exact h.removed i hi
    · exact hid
    · exact (hgone j hj).tainted hd hij

omit [Scalar α] in
/-- The parameter that takes the place of a node is not marked. -/
theorem Shaded.redirected {target : NodeId} {p : Parameter α} {q : Provenance} (h : Shaded g d)
    (ht : d.output.node? target = some (.parameter p)) (hfree : d.Unbound target)
    (hr : Redirected id target q d d') : Shaded g d' := by
  have hold : ∀ {j n}, d'.output.node? j = some n → d.mapping.get? id ≠ some j ∧
      ∃ m, d.output.node? j = some m ∧ n = m.withOperands (m.operands.map (d.diverted id target)) := by
    intro j n hj
    rw [hr.node?] at hj
    split_ifs at hj with hne
    obtain ⟨m, hm, rfl⟩ := Option.map_eq_some_iff.1 hj
    exact ⟨hne, m, hm, rfl⟩
  have htarget : ∀ n, d'.output.node? target = some n → n = .parameter p := by
    intro n hn
    obtain ⟨-, m, hm, rfl⟩ := hold hn
    cases ht.symm.trans hm
    rfl
  have hunmarked : ¬ Marked g d' target := by
    intro hm
    cases hm with
    | image _ _ hj => cases htarget _ hj
    | user hfree' _ _ => exact hfree' id (by rw [hr.mapping, if_pos rfl])
  have hops : ∀ {j o}, o ∈ d'.output.operands j → Marked g d' o →
      o ∈ d.output.operands j ∧ d.mapping.get? id ≠ some j := by
    intro j o ho hm
    obtain ⟨n, hn⟩ := Generation.node?_of_mem_operands ho
    rw [Generation.operands_of_node? hn] at ho
    obtain ⟨hne, m, hm', rfl⟩ := hold hn
    rw [Generation.operands_of_node? hm']
    cases m with
    | expression e =>
      obtain ⟨x, hx, rfl⟩ := List.mem_map.1 ho
      unfold diverted at hm ⊢
      split_ifs at hm ⊢
      · exact absurd hm hunmarked
      · exact ⟨hx, hne⟩
    | _ => cases ho
  have hmap : ∀ {i j}, j ≠ target → d'.mapping.get? i = some j → d.mapping.get? i = some j := by
    intro i j hj hi
    rw [hr.mapping] at hi
    split_ifs at hi
    · exact absurd (Option.some.inj hi).symm hj
    · exact hi
  refine ⟨fun i j o hi ho hm => ?_, fun i hi => h.removed i (by rwa [isRemoved, hr.removed] at hi)⟩
  have hj : j ≠ target := by
    rintro rfl
    obtain ⟨n, hn⟩ := Generation.node?_of_mem_operands ho
    rw [Generation.operands_of_node? hn, htarget n hn] at ho
    cases ho
  refine h.users i j o (hmap hj hi) (hops ho hm).1 (hm.of_old (fun _ => True)
    (fun i k e _ hi hk => ?_) (fun u o _ hfree' ho hm => ?_) trivial)
  · have hne : k ≠ target := by
      rintro rfl
      cases htarget _ hk
    obtain ⟨-, m, hm', heq⟩ := hold hk
    cases m with
    | expression e' => exact ⟨hmap hne hi, e', hm'⟩
    | _ => cases heq
  · refine ⟨fun i hi => ?_, (hops ho hm).1, trivial⟩
    by_cases hid : i = id
    · exact (hops ho hm).2 (hid ▸ hi)
    · exact hfree' i (by rw [hr.mapping, if_neg hid, hi])

end Draft

/-- Every lawful move keeps the tainted nodes apart. -/
theorem Move.shaded (h : Move a d d') (hd : d.Coherent) (hin : d.input = g)
    (ha : a.Lawful g D d) (hs : Shaded g d) : Shaded g d' := by
  cases h with
  | note hn =>
    refine hs.of_same hn.mapping (fun j => by rw [hn.output]) fun i hi => hs.removed i ?_
    rwa [isRemoved, hn.removed] at hi
  | @copy _ id j n js q o' hn hremoved hmap hjs henter hq =>
    refine hs.insertFor hd (Generation.ne_null_of_contains (Generation.contains_of_node? hn)) hmap
      henter (fun o ho hm => ?_) d.dirty
    cases n with
    | expression e =>
      obtain ⟨x, hx, hxo⟩ := Images.exists_source hjs ho
      refine (hm.tainted hd hxo).of_operand ?_
      rw [← hin, Generation.operands_of_node? hn]
      exact hx
    | _ => cases ho
  | drop hid hmap ho hremoved =>
    refine hs.of_same rfl (fun _ => rfl) fun i hi => ?_
    rcases (NodeMap.contains_insert (Generation.ne_null_of_contains hid)).1 hi with hi | rfl
    · exact hs.removed i hi
    · exact (hs.removed _ hremoved).of_operand (hin ▸ ho)
  | @create _ _ j n q o' henter hq =>
    have hmarked : ∀ {k}, Marked g { d with output := o' } k → k ≠ j → Marked g d k :=
      fun hm hk => hm.of_insert henter hd (fun _ _ _ => .rfl) hk
    refine ⟨fun i k o hi ho hm => ?_, hs.removed⟩
    dsimp only at ho
    rw [Generation.operands_congr (henter.node?_of_ne (henter.ne_of_contains (hd.mapped i k hi).2))] at ho
    exact hs.users i k o hi ho (hmarked hm (henter.ne_of_contains (hd.linked.closed k o ho)))
  | place hid hremoved hmap henter hq =>
    obtain ⟨-, -, e, op, js, -, -, -, rfl, hstems⟩ := ha
    exact hs.insertFor hd (Generation.ne_null_of_contains hid) hmap henter
      (fun o ho hm => (hstems o ho).tainted hd hm) true
  | replace hmap hrep hq =>
    obtain ⟨-, hexp, e, op, js, -, -, -, rfl, hstems⟩ := ha
    exact hs.replace hd hexp hmap hrep fun o ho hm => (hstems o ho).tainted hd hm
  | credit hq => exact hs.of_same rfl Generation.node?_addProvenance hs.removed
  | erase hid he =>
    obtain ⟨-, hexp, hun | ⟨o, ho, hgone⟩⟩ := ha
    · exact hs.erased hd hexp hun.tainted he
    · exact hs.erased hd hexp ((hs.removed o hgone).of_operand ho) he
  | redirect hid hremoved ht hfree hq hr => exact hs.redirected ht hfree hr

theorem sprout_skeleton {n : Node α} : Sprout n.skeleton ↔ Sprout n := by
  cases n with
  | expression e => simp [Sprout, Node.skeleton, Node.withOperands]
  | _ => rfl

/-- What stands for an expression outside the basis, but for its operands. -/
def Pass.Expands (g : Generation α) (i : NodeId) (n : Node α) : Prop :=
  ∃ e, g.node? i = some (.expression e) ∧ e.op.isCanonical = false ∧
    ((n = .parameter .real ∧ e.op.isPredicate = false) ∨
      ∃ op, n = .expression ⟨op, [], e.asserted⟩ ∧ op.supplants e.op)

/-- Lawful moves write only what stands for expressions outside the basis. -/
theorem Pass.shaped_of_lawful {deduplicate : Bool} {journal : Journal}
    (h : Moves (Act.Lawful g D) (start g deduplicate journal) d) : Shaped (Expands g) Sprout d := by
  refine h.shaped (fun d a ha => ?_) (coherent_start g deduplicate journal) (shaped_start _ _)
  cases a with
  | write id n =>
    obtain ⟨-, -, e, op, js, hn, hforeign, hop, rfl, -⟩ := ha
    exact ⟨e, hn, hforeign, Or.inr ⟨op, rfl, hop⟩⟩
  | create id n => exact sprout_skeleton.2 ha
  | redirect id t =>
    obtain ⟨-, ⟨e, hn, hforeign, hpred⟩, ht⟩ := ha
    intro p hp
    cases ht.symm.trans hp
    exact ⟨e, hn, hforeign, Or.inl ⟨rfl, hpred⟩⟩
  | _ => trivial

/-- Lawful moves remove only what depends on an operator without a law. -/
theorem Pass.shaded_of_lawful {deduplicate : Bool} {journal : Journal}
    (h : Moves (Act.Lawful g D) (start g deduplicate journal) d) : Shaded g d := by
  refine (h.invariant (coherent_start g deduplicate journal)
    (I := fun d => d.input = g ∧ Shaded g d) ⟨rfl, ⟨fun i j o hj => ?_, fun i hi => ?_⟩⟩
    fun d a d' hd ha hmove hI => ⟨hmove.input.trans hI.1, hmove.shaded hd hI.1 ha hI.2⟩).1.2
  · simp [start] at hj
  · rw [kept_start] at hi
    cases hi

namespace Pass.Canonized

variable {deduplicate : Bool} {journal : Journal} (h : Canonized g deduplicate journal d)

include h

theorem input : d.input = g := h.moves.input

theorem coherent : d.Coherent := h.moves.coherent (coherent_start g deduplicate journal)

theorem sourced : Sourced d := h.moves.sourced (coherent_start g deduplicate journal) (sourced_start _ _ _)

/-- What does not depend on an operator without a law is still there. -/
theorem mapped {i : NodeId} (hi : g.contains i) (ht : ¬ g.Tainted i) :
    ∃ j, d.mapping.get? i = some j := by
  exact (h.closed i (h.input ▸ hi)).resolve_right fun hremoved =>
    ht ((shaded_of_lawful h.moves).removed i hremoved)

/-- Every output node looks like a node of the graph, or stands for one outside the basis, or was
created. -/
theorem inventory {j : NodeId} {n : Node α} (hn : d.output.node? j = some n) :
    (∃ i m, d.mapping.get? i = some j ∧ g.node? i = some m ∧ n.skeleton = m.skeleton) ∨
      (∃ i e, d.mapping.get? i = some j ∧ g.node? i = some (.expression e) ∧
        e.op.isCanonical = false ∧
        ((n = .parameter .real ∧ e.op.isPredicate = false) ∨
          ∃ op js, n = .expression ⟨op, js, e.asserted⟩ ∧ op.supplants e.op)) ∨
      (d.Unbound j ∧ Sprout n) := by
  rcases shaped_of_lawful h.moves j n hn with ⟨i, m, hi, hm, hsame | ⟨e, he, hforeign, hW⟩⟩ | ⟨hfree, hsprout⟩
  · exact Or.inl ⟨i, m, hi, h.input ▸ hm, hsame⟩
  · refine Or.inr (Or.inl ⟨i, e, hi, he, hforeign, hW.imp (And.imp_left fun hp => ?_) ?_⟩)
    · exact Node.eq_of_skeleton_eq_leaf (m := .parameter .real) hp rfl
    · rintro ⟨op, hp, hop⟩
      obtain ⟨e', rfl, rfl, hasserted⟩ :=
        Node.expression_of_skeleton (e := ⟨op, [], e.asserted⟩) hp
      exact ⟨e'.op, e'.operands, by rw [← hasserted], hop⟩
  · exact Or.inr (Or.inr ⟨hfree, sprout_skeleton.1 hsprout⟩)

/-- The output node of a node in the basis uses what stands for its operands. -/
theorem images {i j : NodeId} (hj : d.mapping.get? i = some j) (hi : ¬ g.Foreign i) :
    d.Images (g.operands i) (d.output.operands j) := by
  obtain ⟨-, hmirrors⟩ := (h.moves.invariant
    (I := fun d => d.input = g ∧ Mirrors { i | ¬ g.Foreign i } (fun i l => l = g.operands i) d)
    (coherent_start g deduplicate journal) ⟨rfl, fun i j _ hj => by simp [start] at hj⟩
    fun d a d' hd ha hmove hI => ⟨hmove.input.trans hI.1, hmove.mirrors hd (by
      cases a with
      | copy id => exact fun _ => by rw [hI.1]
      | write id n =>
        obtain ⟨-, -, e, -, -, hn, hforeign, -⟩ := ha
        exact fun hid => absurd ⟨e, hn, hforeign⟩ hid
      | redirect id t =>
        obtain ⟨-, ⟨e, hn, hforeign, -⟩, -⟩ := ha
        exact not_not_intro ⟨e, hn, hforeign⟩
      | _ => trivial) hI.2⟩).1
  obtain ⟨l, rfl, himages⟩ := hmirrors i j hi hj
  exact himages

end Pass.Canonized

end ParameterSolver
