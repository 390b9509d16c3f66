import ParameterSolver.Proofs.Draft.Moves

/-! What sequences of moves keep: what output nodes look like, which nodes they use, where they come
from, and that a draft once dirty stays so. -/

namespace ParameterSolver

variable {α : Type} {P : Draft α → Act α → Prop} {d d' : Draft α} {a : Act α}

namespace Draft

/-- Every output node looks like the input node it stands for, or as it was written for it, or was
created. -/
def Shaped (W : NodeId → Node α → Prop) (C : Node α → Prop) (d : Draft α) : Prop :=
  ∀ j n, d.output.node? j = some n →
    (∃ i m, d.mapping.get? i = some j ∧ d.input.node? i = some m ∧
      (n.skeleton = m.skeleton ∨ W i n.skeleton)) ∨ (d.Unbound j ∧ C n.skeleton)

/-- The output nodes of the input nodes in `D` use the output nodes of a list that is right for
them. -/
def Mirrors (D : Set NodeId) (src : NodeId → List NodeId → Prop) (d : Draft α) : Prop :=
  ∀ i j, i ∈ D → d.mapping.get? i = some j → ∃ l, src i l ∧ d.Images l (d.output.operands j)

/-- Output nodes have the origins of the input nodes they stand for, and none that no input node
has. -/
structure Sourced (d : Draft α) : Prop where
  credited : ∀ i j p, d.mapping.get? i = some j → d.input.provenance? i = some p →
    ∃ q, d.output.provenance? j = some q ∧ ∀ x ∈ p, x ∈ q
  drawn : ∀ j q, d.output.provenance? j = some q → ∀ x ∈ q,
    ∃ i p, d.input.provenance? i = some p ∧ x ∈ p

/-- The input node has an output node that looks right. -/
def Stands (x : NodeId) (Q : Node α → Prop) (d : Draft α) : Prop :=
  ∃ j n, d.mapping.get? x = some j ∧ d.output.node? j = some n ∧ Q n.skeleton

end Draft

open Draft

/-- What the acts that bring new content have to respect for the shape of the output. -/
def Act.Fits (W : NodeId → Node α → Prop) (C : Node α → Prop) (d : Draft α) : Act α → Prop
  | .write id n => W id n.skeleton
  | .create _ n => C n.skeleton
  | .redirect id target => ∀ p, d.output.node? target = some (.parameter p) → W id (.parameter p)
  | _ => True

theorem Draft.Shaped.insertFor {W : NodeId → Node α → Prop} {C : Node α → Prop} {id j : NodeId}
    {n m : Node α} {q : Provenance} {o' : Generation α} (h : Shaped W C d)
    (hm : d.input.node? id = some m) (hmap : d.mapping.get? id = none)
    (henter : d.output.Entered j n q o') (hn : n.skeleton = m.skeleton ∨ W id n.skeleton)
    (dirty : Bool) :
    Shaped W C { d with dirty := dirty, output := o', mapping := d.mapping.insert id j } := by
  have hnull := Generation.ne_null_of_contains (Generation.contains_of_node? hm)
  intro k x hk
  change o'.node? k = some x at hk
  rw [henter.node?] at hk
  split_ifs at hk with hkj
  · cases hk
    exact Or.inl ⟨id, m, hkj ▸ NodeMap.get?_insert_self hnull, hm, hn⟩
  · refine (h k x hk).imp ?_ (And.imp_left fun hfree i hi => ?_)
    · rintro ⟨i, y, hi, hrest⟩
      exact ⟨i, y, get?_bound_of_none hnull hmap hi, hrest⟩
    · rcases get?_bound hnull hi with ⟨-, rfl⟩ | ⟨-, hi⟩
      · exact hkj rfl
      · exact hfree i hi

theorem Move.shaped {W : NodeId → Node α → Prop} {C : Node α → Prop} (h : Move a d d')
    (hd : d.Coherent) (hfit : a.Fits W C d) (hs : Shaped W C d) : Shaped W C d' := by
  cases h with
  | note hn =>
    unfold Shaped Unbound
    rw [hn.output, hn.mapping, hn.input]
    exact hs
  | copy hn hremoved hmap hjs henter hq =>
    exact hs.insertFor hn hmap henter (Or.inl Node.skeleton_withOperands) d.dirty
  | drop => exact hs
  | create henter hq =>
    intro k x hk
    rw [henter.node?] at hk
    split_ifs at hk with hkj
    · cases hk
      exact Or.inr ⟨hkj ▸ hd.unbound_fresh henter.toInserted, hfit⟩
    · exact hs k x hk
  | place hid hremoved hmap henter hq =>
    obtain ⟨m, hm⟩ := Generation.contains_iff.1 hid
    exact hs.insertFor hm hmap henter (Or.inr hfit) true
  | replace hmap hrep hq =>
    intro k x hk
    rw [hrep.node?] at hk
    split_ifs at hk with hkj
    · cases hk
      obtain ⟨m, hm⟩ := Generation.contains_iff.1 (hd.mapped _ _ hmap).1
      exact Or.inl ⟨_, m, hkj ▸ hmap, hm, Or.inr hfit⟩
    · exact hs k x hk
  | credit hq =>
    intro k x hk
    rw [Generation.node?_addProvenance] at hk
    exact hs k x hk
  | erase hid he =>
    intro k x hk
    obtain ⟨hk, hgone⟩ := he.output.node?_of_some hk
    rw [he.input]
    refine (hs k x hk).imp ?_ (And.imp_left fun hfree i hi => hfree i ((he.mapping i k).1 hi).1)
    rintro ⟨i, m, hi, hrest⟩
    exact ⟨i, m, (he.mapping i k).2 ⟨hi, hgone⟩, hrest⟩
  | @redirect _ _ id target p q hid hremoved ht hfree hq hr =>
    intro k x hk
    rw [hr.node?] at hk
    split_ifs at hk with hgone
    obtain ⟨y, hy, rfl⟩ := Option.map_eq_some_iff.1 hk
    rw [Node.skeleton_withOperands, hr.input]
    rcases hs k y hy with ⟨i, m, hi, hrest⟩ | ⟨hfree', hC⟩
    · have hne : i ≠ id := fun h => hgone (h ▸ hi)
      exact Or.inl ⟨i, m, by rw [hr.mapping, if_neg hne, hi], hrest⟩
    · by_cases hkt : k = target
      · subst hkt
        cases ht.symm.trans hy
        obtain ⟨m, hm⟩ := Generation.contains_iff.1 hid
        exact Or.inl ⟨id, m, by rw [hr.mapping, if_pos rfl], hm, Or.inr (hfit p ht)⟩
      · refine Or.inr ⟨fun i hi => ?_, hC⟩
        rw [hr.mapping] at hi
        split_ifs at hi
        · exact hkt (Option.some.inj hi).symm
        · exact hfree' i hi

theorem Moves.shaped {W : NodeId → Node α → Prop} {C : Node α → Prop} (h : Moves P d d')
    (hP : ∀ d a, P d a → a.Fits W C d) (hd : d.Coherent) (hs : Shaped W C d) : Shaped W C d' :=
  (h.invariant hd hs fun d a _ hd ha hmove hs => hmove.shaped hd (hP d a ha) hs).1

/-- What is written for a node uses what is right for it. -/
def Act.Copies (D : Set NodeId) (src : NodeId → List NodeId → Prop) (d : Draft α) : Act α → Prop
  | .copy id => id ∈ D → src id (d.input.operands id)
  | .write id n => id ∈ D → ∃ l, src id l ∧ d.Images l n.operands
  | .redirect id _ => id ∉ D
  | _ => True

theorem Draft.Images.mono {l js : List NodeId} (h : d.Images l js)
    (hmap : ∀ i, ∀ j ∈ js, d.mapping.get? i = some j → d'.mapping.get? i = some j) :
    d'.Images l js := by
  induction h with
  | nil => exact .nil
  | @cons o j l js hj _ ih =>
    exact .cons (hmap o j (by simp) hj) (ih fun i k hk => hmap i k (.tail _ hk))

theorem Draft.Images.exists_source {l js : List NodeId} {j : NodeId} (h : d.Images l js)
    (hj : j ∈ js) : ∃ o ∈ l, d.mapping.get? o = some j := by
  induction h with
  | nil => cases hj
  | @cons o k l js hk _ ih =>
    rcases List.mem_cons.1 hj with rfl | hj
    · exact ⟨o, by simp, hk⟩
    · obtain ⟨x, hx, hxj⟩ := ih hj
      exact ⟨x, .tail _ hx, hxj⟩

theorem Draft.Images.exists_image {l js : List NodeId} {o : NodeId} (h : d.Images l js)
    (ho : o ∈ l) : ∃ j ∈ js, d.mapping.get? o = some j := by
  induction h with
  | nil => cases ho
  | @cons x k l js hk _ ih =>
    rcases List.mem_cons.1 ho with rfl | ho
    · exact ⟨k, by simp, hk⟩
    · obtain ⟨j, hj, hoj⟩ := ih ho
      exact ⟨j, .tail _ hj, hoj⟩

/-- The operands of what is there outlast a new node for an input node. -/
theorem Draft.Mirrors.insertFor {D : Set NodeId} {src : NodeId → List NodeId → Prop} {id j : NodeId}
    {n : Node α} {q : Provenance} {o' : Generation α} (h : Mirrors D src d) (hd : d.Coherent)
    (hid : id ≠ .null) (hmap : d.mapping.get? id = none) (henter : d.output.Entered j n q o')
    (hn : id ∈ D → ∃ l, src id l ∧ d.Images l n.operands) (dirty : Bool) :
    Mirrors D src { d with dirty := dirty, output := o', mapping := d.mapping.insert id j } := by
  have hkeep : ∀ (js : List NodeId) (i : NodeId), ∀ k ∈ js, d.mapping.get? i = some k →
      (d.mapping.insert id j).get? i = some k :=
    fun js i k _ hk => get?_bound_of_none hid hmap hk
  intro i k hi hk
  rcases get?_bound hid hk with ⟨rfl, rfl⟩ | ⟨-, hk⟩
  · obtain ⟨l, hl, himages⟩ := hn hi
    refine ⟨l, hl, ?_⟩
    rw [Generation.operands_of_node? henter.node?_self]
    exact himages.mono (hkeep _)
  · obtain ⟨l, hl, himages⟩ := h i k hi hk
    refine ⟨l, hl, ?_⟩
    have hne := henter.ne_of_contains (hd.mapped i k hk).2
    rw [Generation.operands_congr (henter.node?_of_ne hne)]
    exact himages.mono (hkeep _)

theorem Move.mirrors {D : Set NodeId} {src : NodeId → List NodeId → Prop} (h : Move a d d')
    (hd : d.Coherent) (hcopies : a.Copies D src d) (hs : Mirrors D src d) : Mirrors D src d' := by
  cases h with
  | note hn =>
    unfold Mirrors Images
    rw [hn.output, hn.mapping]
    exact hs
  | @copy _ id j n js q o' hn hremoved hmap hjs henter hq =>
    refine hs.insertFor hd (Generation.ne_null_of_contains (Generation.contains_of_node? hn)) hmap
      henter (fun hi => ⟨_, hcopies hi, ?_⟩) d.dirty
    rw [Generation.operands_of_node? hn]
    cases n with
    | expression e => exact hjs
    | _ =>
      cases hjs
      exact .nil
  | drop => exact hs
  | create henter hq =>
    intro i k hi hk
    obtain ⟨l, hl, himages⟩ := hs i k hi hk
    refine ⟨l, hl, ?_⟩
    have hne := henter.ne_of_contains (hd.mapped i k hk).2
    rw [Generation.operands_congr (henter.node?_of_ne hne)]
    exact himages
  | place hid hremoved hmap henter hq =>
    exact hs.insertFor hd (Generation.ne_null_of_contains hid) hmap henter hcopies true
  | @replace _ id j n q o' hmap hrep hq =>
    intro i k hi hk
    by_cases hkj : k = j
    · subst hkj
      obtain rfl := hd.injective i id k hk hmap
      obtain ⟨l, hl, himages⟩ := hcopies hi
      refine ⟨l, hl, ?_⟩
      rw [Generation.operands_of_node? hrep.node?_self]
      exact himages
    · obtain ⟨l, hl, himages⟩ := hs i k hi hk
      refine ⟨l, hl, ?_⟩
      rw [Generation.operands_congr (hrep.node?_of_ne hkj)]
      exact himages
  | credit hq =>
    intro i k hi hk
    obtain ⟨l, hl, himages⟩ := hs i k hi hk
    refine ⟨l, hl, ?_⟩
    rw [Generation.operands_congr (Generation.node?_addProvenance k)]
    exact himages
  | erase hid he =>
    intro i k hi hk
    obtain ⟨hk, hgone⟩ := (he.mapping i k).1 hk
    obtain ⟨l, hl, himages⟩ := hs i k hi hk
    refine ⟨l, hl, ?_⟩
    rw [Generation.operands_congr (by rw [he.output.node?, if_neg hgone] : _ = d.output.node? k)]
    -- an operand that is gone would have taken its user with it
    refine himages.mono fun o j hj ho => (he.mapping o j).2 ⟨ho, fun hjg => hgone ?_⟩
    exact he.output.closed j hjg k ((hd.linked.users j k).2 hj) (hd.mapped i k hk).2
  | @redirect _ _ id target p q hid hremoved ht hfree hq hr =>
    intro i k hi hk
    have hne : i ≠ id := fun h => hcopies (h ▸ hi)
    rw [hr.mapping, if_neg hne] at hk
    have hold : d.mapping.get? id ≠ some k := fun h => hne (hd.injective i id k hk h)
    obtain ⟨l, hl, himages⟩ := hs i k hi hk
    refine ⟨l, hl, ?_⟩
    obtain ⟨n, hn⟩ := Generation.contains_iff.1 (hd.mapped i k hk).2
    have hops : d'.output.operands k = (d.output.operands k).map (d.diverted id target) := by
      have hn' : d'.output.node? k = some (n.withOperands (n.operands.map (d.diverted id target))) := by
        rw [hr.node?, if_neg hold, hn]
        rfl
      rw [Generation.operands_of_node? hn', Generation.operands_of_node? hn]
      cases n <;> rfl
    rw [hops]
    unfold Images
    rw [List.forall₂_map_right_iff]
    refine List.Forall₂.imp (fun o j hj => ?_) himages
    rw [hr.mapping, diverted]
    split_ifs with ho hdiv hdiv
    · rfl
    · exact absurd (ho ▸ hj) hdiv
    · exact absurd (hd.injective o id j hj hdiv) ho
    · exact hj

theorem Generation.Cites.drawn {g : Generation α} {sources : List NodeId} {q : Provenance}
    (h : g.Cites sources q) : ∀ x ∈ q, ∃ i p, g.provenance? i = some p ∧ x ∈ p := fun x hx => by
  obtain ⟨s, -, p, hp, hxp⟩ := (h x).1 hx
  exact ⟨s, p, hp, hxp⟩

theorem Generation.Cites.credited {g : Generation α} {id : NodeId} {p q : Provenance}
    (h : g.Cites [id] q) (hp : g.provenance? id = some p) : ∀ x ∈ p, x ∈ q := fun x hx =>
  (h x).2 ⟨id, by simp, p, hp, hx⟩

theorem Draft.Sourced.insert {j : NodeId} {n : Node α} {q : Provenance} {o' : Generation α}
    {sources : List NodeId} (h : Sourced d) (hd : d.Coherent) (henter : d.output.Entered j n q o')
    (hq : d.input.Cites sources q) : Sourced { d with output := o' } := by
  refine ⟨fun i k p hk hp => ?_, fun k r hr => ?_⟩
  · obtain ⟨r, hr, hsub⟩ := h.credited i k p hk hp
    have hne := henter.ne_of_contains (hd.mapped i k hk).2
    exact ⟨r, by rw [henter.provenance?, if_neg hne, hr], hsub⟩
  · change o'.provenance? k = some r at hr
    rw [henter.provenance?] at hr
    split_ifs at hr
    · cases hr
      exact hq.drawn
    · exact h.drawn k r hr

theorem Draft.Sourced.insertFor {id j : NodeId} {n : Node α} {q : Provenance} {o' : Generation α}
    (h : Sourced d) (hd : d.Coherent) (hid : id ≠ .null) (henter : d.output.Entered j n q o')
    (hq : d.input.Cites [id] q) (dirty : Bool) :
    Sourced { d with dirty := dirty, output := o', mapping := d.mapping.insert id j } := by
  refine ⟨fun i k p hk hp => ?_, (h.insert hd henter hq).drawn⟩
  rcases get?_bound hid hk with ⟨rfl, rfl⟩ | ⟨-, hk⟩
  · exact ⟨q, by rw [henter.provenance?, if_pos rfl], hq.credited hp⟩
  · exact (h.insert hd henter hq).credited i k p hk hp

theorem Draft.Sourced.addProvenance {q : Provenance} {sources : List NodeId} (h : Sourced d)
    (out : NodeId) (hq : d.input.Cites sources q) :
    Sourced { d with output := d.output.addProvenance out q } := by
  refine ⟨fun i k p hk hp => ?_, fun k r hr => ?_⟩
  · obtain ⟨r, hr, hsub⟩ := h.credited i k p hk hp
    dsimp only
    rw [Generation.provenance?_addProvenance, hr]
    split_ifs
    · exact ⟨r.union q, rfl, fun x hx => SortedSet.mem_union.2 (Or.inl (hsub x hx))⟩
    · exact ⟨r, rfl, hsub⟩
  · dsimp only at hr
    rw [Generation.provenance?_addProvenance] at hr
    split_ifs at hr
    · obtain ⟨r', hr', rfl⟩ := Option.map_eq_some_iff.1 hr
      intro x hx
      rcases SortedSet.mem_union.1 hx with hx | hx
      · exact h.drawn k r' hr' x hx
      · exact hq.drawn x hx
    · exact h.drawn k r hr

/-- Every move keeps track of origins. -/
theorem Move.sourced (h : Move a d d') (hd : d.Coherent) (hs : Sourced d) : Sourced d' := by
  cases h with
  | note hn =>
    refine ⟨?_, ?_⟩ <;> rw [hn.input, hn.output]
    · rw [hn.mapping]
      exact hs.credited
    · exact hs.drawn
  | copy hn hremoved hmap hjs henter hq =>
    exact hs.insertFor hd (Generation.ne_null_of_contains (Generation.contains_of_node? hn)) henter
      hq d.dirty
  | drop => exact ⟨hs.credited, hs.drawn⟩
  | create henter hq => exact hs.insert hd henter hq
  | place hid hremoved hmap henter hq =>
    exact hs.insertFor hd (Generation.ne_null_of_contains hid) henter hq true
  | @replace _ id j n q o' hmap hrep hq =>
    refine ⟨fun i k p hk hp => ?_, fun k r hr => ?_⟩
    · obtain ⟨r, hr, hsub⟩ := hs.credited i k p hk hp
      dsimp only
      rw [hrep.provenance?]
      split_ifs with hkj
      · subst hkj
        obtain rfl := hd.injective i id k hk hmap
        rcases hq with hq | ⟨-, hq⟩
        · exact ⟨q, rfl, hq.credited hp⟩
        · cases hq.symm.trans hr
          exact ⟨q, rfl, hsub⟩
      · exact ⟨r, hr, hsub⟩
    · dsimp only at hr
      rw [hrep.provenance?] at hr
      split_ifs at hr
      · cases hr
        rcases hq with hq | ⟨-, hq⟩
        · exact hq.drawn
        · exact hs.drawn j q hq
      · exact hs.drawn k r hr
  | credit hq => exact hs.addProvenance _ hq
  | erase hid he =>
    refine ⟨fun i k p hk hp => ?_, fun k r hr => ?_⟩
    · obtain ⟨hk, hgone⟩ := (he.mapping i k).1 hk
      obtain ⟨r, hr, hsub⟩ := hs.credited i k p hk (he.input ▸ hp)
      exact ⟨r, by rw [he.provenance?, if_neg hgone, hr], hsub⟩
    · rw [he.provenance?] at hr
      split_ifs at hr
      rw [he.input]
      exact hs.drawn k r hr
  | @redirect _ _ id target p₀ q hid hremoved ht hfree hq hr =>
    -- the parameter has the origins of the node as well, everything else has its own
    have hrest := hs.addProvenance target hq
    have hprov : ∀ k, d.mapping.get? id ≠ some k →
        d'.output.provenance? k = (d.output.addProvenance target q).provenance? k := fun k hk => by
      rw [hr.provenance?, if_neg hk, Generation.provenance?_addProvenance]
    refine ⟨fun i k p hk hp => ?_, fun k r hkr => ?_⟩
    · rw [hr.mapping] at hk
      rw [hr.input] at hp
      split_ifs at hk with hi
      · cases hk
        subst hi
        obtain ⟨r, hr'⟩ := Generation.exists_provenance? (Generation.contains_of_node? ht)
        refine ⟨r.union q, ?_, fun x hx => SortedSet.mem_union.2 (Or.inr (hq.credited hp x hx))⟩
        rw [hprov _ (hfree i), Generation.provenance?_addProvenance, if_pos rfl, hr']
        rfl
      · rw [hprov k fun h => hi (hd.injective i id k hk h)]
        exact hrest.credited i k p hk hp
    · by_cases hk : d.mapping.get? id = some k
      · rw [hr.provenance?, if_pos hk] at hkr
        cases hkr
      · rw [hprov k hk] at hkr
        rw [hr.input]
        exact hrest.drawn k r hkr

theorem Moves.sourced (h : Moves P d d') (hd : d.Coherent) (hs : Sourced d) : Sourced d' :=
  (h.invariant hd hs fun _ _ _ hd _ hmove hs => hmove.sourced hd hs).1

theorem sourced_start (g : Generation α) (deduplicate : Bool) (journal : Journal) :
    Sourced (start g deduplicate journal) := by
  refine ⟨fun i j p hj => ?_, fun j q hq => ?_⟩
  · simp [start] at hj
  · simp [start, Generation.provenance?, Generation.get?, Generation.empty] at hq

theorem Move.dirty (h : Move a d d') (hd : d.dirty) : d'.dirty := by
  cases h with
  | note hn => exact hn.dirty hd
  | erase _ he => exact he.dirty
  | redirect _ _ _ _ _ hr => exact hr.dirty
  | drop | place | replace => rfl
  | copy | create | credit => exact hd

theorem Moves.dirty (h : Moves P d d') (hd : d.dirty) : d'.dirty := by
  induction h with
  | refl => exact hd
  | tail _ hmove ih => exact hmove.choose_spec.2.dirty ih

theorem Move.removed (h : Move a d d') {x : NodeId} (hx : d.isRemoved x) : d'.isRemoved x := by
  cases h with
  | note hn => rwa [isRemoved, hn.removed]
  | drop hid => exact (NodeMap.contains_insert (Generation.ne_null_of_contains hid)).2 (Or.inl hx)
  | erase _ he => exact (he.removed x).2 (Or.inl hx)
  | redirect _ _ _ _ _ hr => rwa [isRemoved, hr.removed]
  | _ => exact hx

theorem Moves.removed (h : Moves P d d') {x : NodeId} (hx : d.isRemoved x) : d'.isRemoved x := by
  induction h with
  | refl => exact hx
  | tail _ hmove ih => exact hmove.choose_spec.2.removed ih

/-- Nothing is removed by copies, unless something was removed before. -/
theorem Move.kept (h : Move a d d') (ha : ∀ id, a ≠ .erase id) (hd : ∀ i, d.isRemoved i = false) :
    ∀ i, d'.isRemoved i = false := by
  cases h with
  | note hn =>
    unfold isRemoved
    rw [hn.removed]
    exact hd
  | drop _ _ _ hremoved =>
    rw [hd] at hremoved
    cases hremoved
  | erase => exact absurd rfl (ha _)
  | redirect _ _ _ _ _ hr =>
    unfold isRemoved
    rw [hr.removed]
    exact hd
  | _ => exact hd

/-- The output node of an input node stays what it is until it is written or taken away. -/
theorem Move.stands {x : NodeId} {Q : Node α → Prop} (h : Move a d d') (hd : d.Coherent)
    (hw : ∀ n, a ≠ .write x n) (he : ∀ id, a ≠ .erase id) (hr : ∀ id t, a ≠ .redirect id t)
    (hs : Stands x Q d) : Stands x Q d' := by
  obtain ⟨j, n, hj, hn, hQ⟩ := hs
  have hfor : ∀ {id k : NodeId} {m : Node α} {q : Provenance} {o' : Generation α}, id ≠ .null →
      d.mapping.get? id = none → d.output.Entered k m q o' →
      (d.mapping.insert id k).get? x = some j ∧ o'.node? j = some n := by
    intro id k m q o' hid hmap henter
    refine ⟨get?_bound_of_none hid hmap hj, ?_⟩
    rw [henter.node?_of_ne (henter.ne_of_contains (Generation.contains_of_node? hn)), hn]
  cases h with
  | note hnote => exact ⟨j, n, by rw [hnote.mapping, hj], by rw [hnote.output, hn], hQ⟩
  | copy hm _ hmap _ henter _ =>
    obtain ⟨h₁, h₂⟩ := hfor (Generation.ne_null_of_contains (Generation.contains_of_node? hm)) hmap
      henter
    exact ⟨j, n, h₁, h₂, hQ⟩
  | drop => exact ⟨j, n, hj, hn, hQ⟩
  | create henter _ =>
    refine ⟨j, n, hj, ?_, hQ⟩
    rw [henter.node?_of_ne (henter.ne_of_contains (Generation.contains_of_node? hn)), hn]
  | place hid _ hmap henter _ =>
    obtain ⟨h₁, h₂⟩ := hfor (Generation.ne_null_of_contains hid) hmap henter
    exact ⟨j, n, h₁, h₂, hQ⟩
  | @replace _ id k m q o' hmap hrep _ =>
    have hne : j ≠ k := by
      rintro rfl
      exact hw m (hd.injective x id j hj hmap ▸ rfl)
    exact ⟨j, n, hj, by rw [hrep.node?_of_ne hne, hn], hQ⟩
  | credit => exact ⟨j, n, hj, (Generation.node?_addProvenance j).trans hn, hQ⟩
  | erase => exact absurd rfl (he _)
  | redirect => exact absurd rfl (hr _ _)

/-- A node that stands for nothing did so before, or was created. -/
theorem Move.unbound_cases {c : NodeId} {n : Node α} (h : Move a d d') (he : ∀ id, a ≠ .erase id)
    (hr : ∀ id t, a ≠ .redirect id t) (hfree : d'.Unbound c) (hc : d'.output.node? c = some n) :
    (d.Unbound c ∧ d.output.node? c = some n) ∨ ∃ id, a = .create id n := by
  have hfor : ∀ {id j : NodeId} {m : Node α} {q : Provenance} {o' : Generation α}, id ≠ .null →
      d.mapping.get? id = none → d.output.Entered j m q o' →
      (∀ i, (d.mapping.insert id j).get? i ≠ some c) → o'.node? c = some n →
      d.Unbound c ∧ d.output.node? c = some n := by
    intro id j m q o' hid hmap henter hfree hc
    have hne : c ≠ j := fun hcj => hfree id (hcj ▸ NodeMap.get?_insert_self hid)
    exact ⟨fun i hi => hfree i (get?_bound_of_none hid hmap hi), (henter.node?_of_ne hne).symm.trans hc⟩
  cases h with
  | note hn => exact Or.inl ⟨fun i => hn.mapping ▸ hfree i, hn.output ▸ hc⟩
  | copy hn _ hmap _ henter _ =>
    exact Or.inl (hfor (Generation.ne_null_of_contains (Generation.contains_of_node? hn)) hmap henter
      hfree hc)
  | drop => exact Or.inl ⟨hfree, hc⟩
  | create henter _ =>
    rw [henter.node?] at hc
    split_ifs at hc
    · cases hc
      exact Or.inr ⟨_, rfl⟩
    · exact Or.inl ⟨hfree, hc⟩
  | place hid _ hmap henter _ =>
    exact Or.inl (hfor (Generation.ne_null_of_contains hid) hmap henter hfree hc)
  | @replace _ id j _ _ _ hmap hrep _ =>
    have hne : c ≠ j := fun hcj => hfree id (hcj ▸ hmap)
    exact Or.inl ⟨hfree, (hrep.node?_of_ne hne).symm.trans hc⟩
  | credit => exact Or.inl ⟨hfree, (Generation.node?_addProvenance c).symm.trans hc⟩
  | erase => exact absurd rfl (he _)
  | redirect => exact absurd rfl (hr _ _)

/-- Nodes that stand for nothing stay as they are, and gain origins at most. -/
structure Draft.Preserves (d d' : Draft α) : Prop where
  mapping : ∀ i j, d.mapping.get? i = some j → d'.mapping.get? i = some j
  unbound : ∀ c n, d.Unbound c → d.output.node? c = some n →
    d'.Unbound c ∧ d'.output.node? c = some n
  provenance : ∀ c q, d.Unbound c → d.output.provenance? c = some q →
    ∃ q', d'.output.provenance? c = some q' ∧ ∀ x ∈ q, x ∈ q'

theorem Draft.Preserves.trans {d'' : Draft α} (h : Preserves d d') (h' : Preserves d' d'') :
    Preserves d d'' := by
  refine ⟨fun i j hj => h'.mapping i j (h.mapping i j hj), fun c n hfree hc => ?_,
    fun c q hfree hq => ?_⟩
  · obtain ⟨hfree', hc'⟩ := h.unbound c n hfree hc
    exact h'.unbound c n hfree' hc'
  · obtain ⟨q', hq', hsub⟩ := h.provenance c q hfree hq
    obtain ⟨e, he, -⟩ := Option.map_eq_some_iff.1 hq
    have hc : d.output.node? c = some e.node := by rw [Generation.node?, he]; rfl
    obtain ⟨q'', hq'', hsub'⟩ := h'.provenance c q' (h.unbound c _ hfree hc).1 hq'
    exact ⟨q'', hq'', fun x hx => hsub' x (hsub x hx)⟩

theorem Draft.preserves_insert {j : NodeId} {n : Node α} {q : Provenance} {o' : Generation α}
    (henter : d.output.Entered j n q o') : Preserves d { d with output := o' } := by
  refine ⟨fun _ _ h => h, fun c m hfree hc => ⟨hfree, ?_⟩, fun c r _ hr => ⟨r, ?_, fun _ h => h⟩⟩
  · rw [henter.node?_of_ne (henter.ne_of_contains (Generation.contains_of_node? hc)), hc]
  · have hne : c ≠ j := by
      rintro rfl
      obtain ⟨e, he, -⟩ := Option.map_eq_some_iff.1 hr
      have hfresh := henter.fresh
      rw [Generation.node?, he] at hfresh
      cases hfresh
    rw [henter.provenance?, if_neg hne, hr]

theorem Draft.Preserves.bind {id j : NodeId} {o' : Generation α}
    (h : Preserves d { d with output := o' }) (hid : id ≠ .null) (hmap : d.mapping.get? id = none)
    (hj : d.output.node? j = none) (dirty : Bool) :
    Preserves d { d with dirty := dirty, output := o', mapping := d.mapping.insert id j } := by
  refine ⟨fun i k hk => get?_bound_of_none hid hmap hk, fun c n hfree hc => ⟨fun i hi => ?_, ?_⟩,
    h.provenance⟩
  · rcases get?_bound hid hi with ⟨-, rfl⟩ | ⟨-, hi⟩
    · rw [hj] at hc
      cases hc
    · exact hfree i hi
  · exact (h.unbound c n hfree hc).2

theorem Move.preserves (h : Move a d d') (he : ∀ id, a ≠ .erase id)
    (hr : ∀ id t, a ≠ .redirect id t) : Preserves d d' := by
  cases h with
  | note hn =>
    refine ⟨fun i j hj => by rwa [hn.mapping], fun c n hfree hc => ⟨fun i => ?_, by rwa [hn.output]⟩,
      fun c q _ hq => ⟨q, by rwa [hn.output], fun _ h => h⟩⟩
    rw [hn.mapping]
    exact hfree i
  | copy hn _ hmap _ henter _ =>
    exact (preserves_insert henter).bind
      (Generation.ne_null_of_contains (Generation.contains_of_node? hn)) hmap henter.fresh d.dirty
  | drop => exact ⟨fun _ _ h => h, fun _ _ hfree hc => ⟨hfree, hc⟩, fun c q _ hq => ⟨q, hq, fun _ h => h⟩⟩
  | create henter _ => exact preserves_insert henter
  | place hid _ hmap henter _ =>
    exact (preserves_insert henter).bind (Generation.ne_null_of_contains hid) hmap henter.fresh true
  | @replace _ id j _ _ _ hmap hrep _ =>
    have hne : ∀ {c}, d.Unbound c → c ≠ j := fun hfree h => hfree id (h ▸ hmap)
    refine ⟨fun _ _ h => h, fun c n hfree hc => ⟨hfree, ?_⟩, fun c q hfree hq => ⟨q, ?_, fun _ h => h⟩⟩
    · rw [hrep.node?_of_ne (hne hfree), hc]
    · rw [hrep.provenance?, if_neg (hne hfree), hq]
  | @credit _ out _ q _ =>
    refine ⟨fun _ _ h => h, fun c n hfree hc => ⟨hfree, (Generation.node?_addProvenance c).trans hc⟩,
      fun c r _ hr => ?_⟩
    dsimp only
    rw [Generation.provenance?_addProvenance, hr]
    split_ifs
    · exact ⟨r.union q, rfl, fun x hx => SortedSet.mem_union.2 (Or.inl hx)⟩
    · exact ⟨r, rfl, fun _ h => h⟩
  | erase => exact absurd rfl (he _)
  | redirect => exact absurd rfl (hr _ _)

end ParameterSolver
