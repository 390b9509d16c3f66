import ParameterSolver.Proofs.Pass.Gentle
import ParameterSolver.Proofs.Pass.Idle

/-! The pass over nested expressions, taken apart into moves. It creates nothing and changes only the
operands of expressions; what goes has been merged into its user, and goes alone. -/

namespace ParameterSolver

open Draft

variable {α : Type} [Scalar α] {g : Generation α} {d d' : Draft α} {id : NodeId} {e : Expression}
  {a : Act α} {D : NodeId → Prop}

namespace Pass

/-- The expression stays and is to have other operands. -/
structure Overgrown (g : Generation α) (id : NodeId) (e : Expression) : Prop where
  node? : g.node? id = some (.expression e)
  op : flattens e.op ∨ e.op.has .idempotent
  root : isAbsorbed g id = false
  operands : keptOperands g e ≠ e.operands

/-- The operands that a node may come to have. -/
def Source (g : Generation α) (i : NodeId) (l : List NodeId) : Prop :=
  l = g.operands i ∨ ∃ e, Overgrown g i e ∧ l = keptOperands g e

omit [Scalar α] in
theorem not_isAbsorbed_of_kept (hg : g.Linked) (hn : g.node? id = some (.expression e)) {o : NodeId}
    (ho : o ∈ keptOperands g e) : isAbsorbed g o = false :=
  ((collected_flattened hg hn).operands o (mem_keptOperands.1 ho)).1

omit [Scalar α] in
theorem uses_of_flattened (hn : g.node? id = some (.expression e)) :
    ∀ o, o ∈ (flattened g e).1 ∨ o ∈ (flattened g e).2 → Relation.TransGen g.Uses id o := by
  have hops : ∀ o ∈ e.operands, Relation.TransGen g.Uses id o := fun o ho =>
    .single (by rwa [Generation.Uses, Generation.operands_of_node? hn])
  unfold flattened
  split_ifs
  · exact forall_flatten (fun o ho m hm => ho.tail hm) _ hops (by simp)
  · rintro o (ho | ho)
    · exact hops o ho
    · cases ho

end Pass

open Pass

/-- What compressing does for the expressions in `D`. -/
def Act.Trims (g : Generation α) (D : NodeId → Prop) (d : Draft α) : Act α → Prop
  | .note _ | .copy _ | .drop _ | .credit .. => True
  | .write id n => D id ∧ ∃ e js, Overgrown g id e ∧ d.Images (keptOperands g e) js ∧
      n = .expression ⟨e.op, js, e.asserted⟩
  | .erase id => isAbsorbed g id ∧ (∀ j, d.mapping.get? id = some j → d.output.users j = []) ∧
      ∀ u ∈ g.users id, d.isRemoved u ∨ ∃ j, d.mapping.get? u = some j
  | .create .. | .redirect .. => False

omit [Scalar α] in
theorem Act.Trims.mono {D' : NodeId → Prop} (h : a.Trims g D d) (hD : ∀ i, D i → D' i) :
    a.Trims g D' d := by
  cases a with
  | write i n => exact ⟨hD i h.1, h.2⟩
  | _ => exact h

omit [Scalar α] in
theorem Act.Builds.trims (h : a.Builds g id (fun _ _ => False) d) : a.Trims g D d := by
  cases a with
  | create i n => exact h.2.elim
  | write i n | erase i | redirect i t => exact h.elim
  | _ => trivial

namespace Draft

/-- Only what is merged is gone, and its user is done with; every output node stands for an input
node. -/
structure Thinned (g : Generation α) (d : Draft α) : Prop where
  input : d.input = g
  removed : ∀ x, d.isRemoved x → isAbsorbed g x ∧
    ∀ u ∈ g.users x, d.isRemoved u ∨ ∃ j, d.mapping.get? u = some j
  bound : ∀ j, d.output.contains j → ∃ i, d.mapping.get? i = some j
  mirrors : Mirrors Set.univ (Source g) d

omit [Scalar α] in
/-- An output node that nothing uses goes alone. -/
theorem Erased.alone {gone : List NodeId} (h : Erased id gone d d')
    (hu : ∀ j, d.mapping.get? id = some j → d.output.users j = []) :
    ∀ x ∈ gone, d.mapping.get? id = some x :=
  h.least { x | d.mapping.get? id = some x } (fun _ hj => hj) fun x hx u hu' => by
    rw [hu x hx] at hu'
    cases hu'

omit [Scalar α] in
theorem Erased.mapping_of_ne {gone : List NodeId} {i j : NodeId} (h : Erased id gone d d')
    (hd : d.Coherent) (hu : ∀ j, d.mapping.get? id = some j → d.output.users j = []) (hi : i ≠ id)
    (hj : d.mapping.get? i = some j) : d'.mapping.get? i = some j ∧ j ∉ gone := by
  have hgone : j ∉ gone := fun hmem => hi (hd.injective i id j hj (h.alone hu j hmem))
  exact ⟨(h.mapping i j).2 ⟨hj, hgone⟩, hgone⟩

omit [Scalar α] in
theorem thinned_start (g : Generation α) (deduplicate : Bool) (journal : Journal) :
    Thinned g (start g deduplicate journal) := by
  refine ⟨rfl, fun x hx => ?_, fun j hj => ?_, fun i j _ hj => ?_⟩
  · rw [kept_start] at hx
    cases hx
  · simp [start, Generation.empty, Generation.contains, NodeMap.contains] at hj
  · simp [start] at hj

end Draft

omit [Scalar α] in
theorem Move.thinned (h : Move a d d') (hd : d.Coherent) (ha : a.Trims g D d) (hg : g.Linked)
    (hs : Thinned g d) : Thinned g d' := by
  have hcopies : a.Copies Set.univ (Source g) d := by
    cases a with
    | copy id => exact fun _ => Or.inl (by rw [hs.input])
    | write id n =>
      obtain ⟨-, e, js, hover, himages, rfl⟩ := ha
      exact fun _ => ⟨_, Or.inr ⟨e, hover, rfl⟩, himages⟩
    | redirect id t => exact ha.elim
    | _ => trivial
  have hmirrors := h.mirrors hd hcopies hs.mirrors
  have hinput := h.input.trans hs.input
  -- a new output node for an input node
  have hfor : ∀ {id j : NodeId} {n : Node α} {q : Provenance} {o' : Generation α}, id ≠ .null →
      d.mapping.get? id = none → d.output.Entered j n q o' →
      (∀ x, d.isRemoved x → isAbsorbed g x ∧ ∀ u ∈ g.users x,
        d.isRemoved u ∨ ∃ k, (d.mapping.insert id j).get? u = some k) ∧
      ∀ k, o'.contains k → ∃ i, (d.mapping.insert id j).get? i = some k := by
    intro id j n q o' hid hmap henter
    refine ⟨fun x hx => ⟨(hs.removed x hx).1, fun u hu => ((hs.removed x hx).2 u hu).imp_right ?_⟩,
      fun k hk => ?_⟩
    · exact fun ⟨k, hk⟩ => ⟨k, get?_bound_of_none hid hmap hk⟩
    · by_cases hkj : k = j
      · exact ⟨id, hkj ▸ NodeMap.get?_insert_self hid⟩
      · obtain ⟨m, hm⟩ := Generation.contains_iff.1 hk
        rw [henter.node?_of_ne hkj] at hm
        obtain ⟨i, hi⟩ := hs.bound k (Generation.contains_of_node? hm)
        exact ⟨i, get?_bound_of_none hid hmap hi⟩
  cases h with
  | note hn =>
    refine ⟨hinput, ?_, ?_, hmirrors⟩
    · unfold isRemoved
      rw [hn.removed, hn.mapping]
      exact hs.removed
    · rw [hn.output, hn.mapping]
      exact hs.bound
  | copy hn hremoved hmap hjs henter hq =>
    obtain ⟨hrem, hbound⟩ := hfor (Generation.ne_null_of_contains (Generation.contains_of_node? hn))
      hmap henter
    exact ⟨hinput, hrem, hbound, hmirrors⟩
  | @drop _ id o journal hid hmap ho hremoved =>
    -- the user of what is merged is mapped or gone, so the node was gone before
    have hgone : d.isRemoved id := by
      have hu : id ∈ g.users o := (hg.users o id).2 (hs.input ▸ ho)
      refine ((hs.removed o hremoved).2 id hu).resolve_right ?_
      rintro ⟨j, hj⟩
      rw [hmap] at hj
      cases hj
    have hsame : ∀ x, (d.removed.insert id ()).contains x ↔ d.isRemoved x := fun x => by
      refine (NodeMap.contains_insert (Generation.ne_null_of_contains hid)).trans
        ⟨fun hx => hx.elim (fun h => h) ?_, Or.inl⟩
      rintro rfl
      exact hgone
    refine ⟨hinput, fun x hx => ?_, hs.bound, hmirrors⟩
    obtain ⟨habs, husers⟩ := hs.removed x ((hsame x).1 hx)
    exact ⟨habs, fun u hu => (husers u hu).imp_left (hsame u).2⟩
  | create => exact ha.elim
  | place hid hremoved hmap henter hq =>
    obtain ⟨hrem, hbound⟩ := hfor (Generation.ne_null_of_contains hid) hmap henter
    exact ⟨hinput, hrem, hbound, hmirrors⟩
  | replace hmap hrep hq =>
    exact ⟨hinput, hs.removed, fun j hj => hs.bound j (hrep.contains_iff.1 hj), hmirrors⟩
  | credit hq =>
    refine ⟨hinput, hs.removed, fun j hj => hs.bound j ?_, hmirrors⟩
    rw [Generation.contains_iff, Generation.node?_addProvenance] at hj
    exact Generation.contains_iff.2 hj
  | @erase _ _ id gone hid he =>
    obtain ⟨habs, hnone, husers⟩ := ha
    have hstays : ∀ u, (d.isRemoved u ∨ ∃ j, d.mapping.get? u = some j) →
        d'.isRemoved u ∨ ∃ j, d'.mapping.get? u = some j := by
      rintro u (hu | ⟨j, hj⟩)
      · exact Or.inl ((he.removed u).2 (Or.inl hu))
      · by_cases huid : u = id
        · exact Or.inl ((he.removed u).2 (Or.inr (Or.inl huid)))
        · exact Or.inr ⟨j, (he.mapping_of_ne hd hnone huid hj).1⟩
    refine ⟨hinput, fun x hx => ?_, fun j hj => ?_, hmirrors⟩
    · rcases (he.removed x).1 hx with hx | rfl | ⟨j, hj, hxj⟩
      · exact ⟨(hs.removed x hx).1, fun u hu => hstays u ((hs.removed x hx).2 u hu)⟩
      · exact ⟨habs, fun u hu => hstays u (husers u hu)⟩
      · obtain rfl := hd.injective x id j hxj (he.alone hnone j hj)
        exact ⟨habs, fun u hu => hstays u (husers u hu)⟩
    · obtain ⟨hj, hgone⟩ := he.output.contains_iff.1 hj
      obtain ⟨i, hi⟩ := hs.bound j hj
      exact ⟨i, (he.mapping i j).2 ⟨hi, hgone⟩⟩
  | redirect => exact ha.elim

omit [Scalar α] in
theorem Moves.thinned (h : Moves (Act.Trims g D) d d') (hd : d.Coherent) (hg : g.Linked)
    (hs : Thinned g d) : Thinned g d' :=
  (h.invariant hd hs fun _ _ _ hd ha hmove hs => hmove.thinned hd ha hg hs).1

/-- The expression has the operands that it is to have. -/
def Draft.Trimmed (g : Generation α) (id : NodeId) (e : Expression) (d : Draft α) : Prop :=
  ∃ j, d.mapping.get? id = some j ∧ d.Images (keptOperands g e) (d.output.operands j)

omit [Scalar α] in
/-- An expression that is done with stays as it is. -/
theorem Move.trimmed (h : Move a d d') (hd : d.Coherent) (hg : g.Linked) (ha : a.Trims g D d)
    (hover : Overgrown g id e) (hid : ¬ D id) (ht : Trimmed g id e d) : Trimmed g id e d' := by
  obtain ⟨j, hj, himages⟩ := ht
  have hcont := (hd.mapped id j hj).2
  have hfor : ∀ {i k : NodeId} {n : Node α} {q : Provenance} {o' : Generation α} {dirty : Bool},
      i ≠ .null → d.mapping.get? i = none → d.output.Entered k n q o' →
      Trimmed g id e { d with dirty := dirty, output := o', mapping := d.mapping.insert i k } := by
    intro i k n q o' dirty hi hmap henter
    refine ⟨j, get?_bound_of_none hi hmap hj, ?_⟩
    dsimp only
    rw [Generation.operands_congr (henter.node?_of_ne (henter.ne_of_contains hcont))]
    exact himages.mono fun o x _ hx => get?_bound_of_none hi hmap hx
  cases h with
  | note hn =>
    unfold Trimmed Images
    rw [hn.mapping, hn.output]
    exact ⟨j, hj, himages⟩
  | copy hn _ hmap _ henter _ =>
    exact hfor (Generation.ne_null_of_contains (Generation.contains_of_node? hn)) hmap henter
  | drop => exact ⟨j, hj, himages⟩
  | create => exact ha.elim
  | place hi _ hmap henter _ => exact hfor (Generation.ne_null_of_contains hi) hmap henter
  | @replace _ i k n q o' hmap hrep _ =>
    have hne : j ≠ k := by
      rintro rfl
      exact hid (hd.injective id i j hj hmap ▸ ha.1)
    refine ⟨j, hj, ?_⟩
    dsimp only
    rw [Generation.operands_congr (hrep.node?_of_ne hne)]
    exact himages
  | credit =>
    refine ⟨j, hj, ?_⟩
    dsimp only
    rw [Generation.operands_congr (Generation.node?_addProvenance j)]
    exact himages
  | @erase _ _ i gone _ he =>
    obtain ⟨habs, hnone, -⟩ := ha
    have hne : ∀ x, isAbsorbed g x = false → x ≠ i := by
      rintro x hx rfl
      rw [hx] at habs
      cases habs
    obtain ⟨hj', hgone⟩ := he.mapping_of_ne hd hnone (hne id hover.root) hj
    refine ⟨j, hj', ?_⟩
    rw [Generation.operands_congr (by rw [he.output.node?, if_neg hgone] : _ = d.output.node? j)]
    -- what is left of the operands is not merged
    refine himages.mono fun o x hx ho => (he.mapping o x).2 ⟨ho, fun hxg => ?_⟩
    obtain ⟨o', ho', hox⟩ := himages.exists_source hx
    obtain rfl := hd.injective o' i x hox (he.alone hnone x hxg)
    exact hne o' (not_isAbsorbed_of_kept hg hover.node? ho') rfl
  | redirect => exact ha.elim

omit [Scalar α] in
theorem Moves.trimmed (h : Moves (Act.Trims g D) d d') (hd : d.Coherent) (hg : g.Linked)
    (hover : Overgrown g id e) (hid : ¬ D id) (ht : Trimmed g id e d) : Trimmed g id e d' :=
  (h.invariant hd ht fun _ _ _ hd ha hmove ht => hmove.trimmed hd hg ha hover hid ht).1

namespace Pass

omit [Scalar α] in
/-- Once the expression has its operands, nothing uses what is merged into it if what it is merged
through is gone. -/
theorem users_of_merged (hg : g.Linked) (hover : Overgrown g id e) (hd : d.Coherent)
    (hs : Thinned g d) (ht : Trimmed g id e d) {x j : NodeId} (hx : isAbsorbed g x)
    (husers : ∀ u ∈ g.users x, u = id ∨ d.isRemoved u) (hj : d.mapping.get? x = some j) :
    d.output.users j = [] := by
  have hkept : ∀ {i e}, g.node? i = some (.expression e) → x ∉ keptOperands g e := by
    intro i e hn hmem
    rw [not_isAbsorbed_of_kept hg hn hmem] at hx
    cases hx
  have hlists : ∀ {l w}, d.Images l (d.output.operands w) → j ∈ d.output.operands w → x ∈ l := by
    intro l w himages hmem
    obtain ⟨o, ho, hoj⟩ := himages.exists_source hmem
    exact hd.injective o x j hoj hj ▸ ho
  refine List.eq_nil_iff_forall_not_mem.2 fun w hw => ?_
  have hop := (hd.linked.users j w).1 hw
  obtain ⟨n, hn⟩ := Generation.node?_of_mem_operands hop
  obtain ⟨i, hi⟩ := hs.bound w (Generation.contains_of_node? hn)
  obtain ⟨l, rfl | ⟨e', hover', rfl⟩, himages⟩ := hs.mirrors i w trivial hi
  · rcases husers i ((hg.users x i).2 (hlists himages hop)) with rfl | hgone
    · obtain ⟨k, hk, hkimages⟩ := ht
      cases hi.symm.trans hk
      exact hkept hover.node? (hlists hkimages hop)
    · rw [hd.kept i w hi] at hgone
      cases hgone
  · exact hkept hover'.node? (hlists himages hop)

omit [Scalar α] in
/-- Only what can be flattened is merged, and that is in the basis. -/
theorem isCanonical_of_merged (h : (flattened g e).2.isEmpty = false) : e.op.isCanonical := by
  unfold flattened at h
  split_ifs at h with hop
  · exact (Bool.and_eq_true_iff.1 hop).1
  · cases h

theorem moves_dropMerged (hg : g.Linked) (hover : Overgrown g id e) {out : NodeId}
    (hd : d.Coherent) (hs : Thinned g d) (ht : Trimmed g id e d)
    (hout : ∀ n, d.output.node? out = some n → ∃ e', n = .expression e' ∧ e'.op = e.op)
    (hr : Runs (dropMerged out (flattened g e).2) d ⟨⟩ d') :
    Moves (Act.Trims g fun _ => False) d d' ∧ ∀ x ∈ (flattened g e).2, d'.isRemoved x := by
  obtain ⟨d₁, h₁, hr₁⟩ : ∃ d₁, Moves (Act.Trims g fun _ => False) d d₁ ∧
      Runs ((flattened g e).2.forM Draft.remove) d₁ ⟨⟩ d' := by
    unfold dropMerged at hr
    split_ifs at hr with hmerged
    · obtain ⟨_, d₁, habsorb, hr₁⟩ := runs_bind.1 hr
      have hop : e.op.isCanonical := isCanonical_of_merged (by simpa using hmerged)
      have hcanonical : ∀ n, d.output.node? out = some n →
          ∃ e', n = .expression e' ∧ (d.Unbound out ∨ e'.op.isCanonical) := fun n hn => by
        obtain ⟨e', rfl, hsame⟩ := hout n hn
        exact ⟨e', rfl, Or.inr (hsame ▸ hop)⟩
      exact ⟨d₁, .single (a := .credit out (flattened g e).2) trivial
        (move_absorb hcanonical habsorb), hr₁⟩
    · exact ⟨d, .refl _, hr⟩
  exact runs_forM (l := (flattened g e).2)
    (P := fun pre d' => Moves (Act.Trims g fun _ => False) d d' ∧ ∀ x ∈ pre, d'.isRemoved x)
    (fun pre x rest hl d₁ d₂ _ ⟨h₁, hpre⟩ hr => by
      have hd₁ := h₁.coherent hd
      have hs₁ := h₁.thinned hd hg hs
      have ht₁ := h₁.trimmed hd hg hover (fun h => h) ht
      obtain ⟨habs, -, husers⟩ := (collected_flattened hg hover.node?).absorbed pre x
        ⟨rest, by rw [List.append_assoc]; exact hl⟩
      have hremoved : ∀ u ∈ g.users x, u = id ∨ d₁.isRemoved u := fun u hu =>
        (husers u hu).imp_right (hpre u)
      obtain ⟨c, hc, -⟩ := (collected_flattened hg hover.node?).same x (hl ▸ by simp)
      have hmove := move_remove hd₁ (hs₁.input ▸ Generation.contains_of_node? hc) hr
      refine ⟨h₁.tail (a := .erase x) ⟨habs, fun j hj => users_of_merged hg hover hd₁ hs₁ ht₁ habs
        hremoved hj, fun u hu => ?_⟩ hmove, fun y hy => ?_⟩
      · rcases hremoved u hu with rfl | hgone
        · exact Or.inr (ht₁.imp fun _ h => h.1)
        · exact Or.inl hgone
      · cases hmove with
        | erase _ he =>
          rcases List.mem_append.1 hy with hy | hy
          · exact (he.removed y).2 (Or.inl (hpre y hy))
          · exact (he.removed y).2 (Or.inr (Or.inl (List.mem_singleton.1 hy))))
    (List.nil_append _) ⟨h₁, by simp⟩ hr₁

theorem moves_compress (hg : g.Sound) (hd : d.Coherent) (hs : Thinned g d)
    (hn : g.node? id = some (.expression e)) (hr : Runs (compress id e) d ⟨⟩ d') :
    Moves (Act.Trims g (· = id)) d d' ∧ (Overgrown g id e → Trimmed g id e d' ∧ d'.dirty ∧
      ∀ x ∈ (flattened g e).2, d'.isRemoved x) := by
  rw [compress_eq] at hr
  simp only [runs_get_bind, hs.input] at hr
  split_ifs at hr with hskip hsame
  · obtain ⟨-, rfl⟩ := runs_pure.1 hr
    refine ⟨.refl _, fun hover => ?_⟩
    rcases hover.op with hop | hop <;> simp [hop, hover.root] at hskip
  · obtain ⟨-, rfl⟩ := runs_pure.1 hr
    exact ⟨.refl _, fun hover => absurd hsame hover.operands⟩
  simp only [Bool.or_eq_true, Bool.not_eq_true', not_or, Bool.not_eq_false, Bool.not_eq_true] at hskip
  have hover : Overgrown g id e := ⟨hn, by simpa using hskip.1, hskip.2, hsame⟩
  have hthere : d.isRemoved id = false := by
    refine Bool.eq_false_iff.2 fun hgone => ?_
    have habs := (hs.removed id hgone).1
    rw [hover.root] at habs
    cases habs
  obtain ⟨r, d₂, hedit, hr₂⟩ := runs_bind.1 hr
  have hkept : ∀ {o}, Operand.input o ∈ (keptOperands g e).map (Operand.input (α := α)) →
      o ∈ keptOperands g e := by
    intro o ho
    obtain ⟨x, hx, heq⟩ := List.mem_map.1 ho
    cases heq
    exact hx
  rcases moves_editExpression (C := fun _ _ => False)
    { operands := some ((keptOperands g e).map .input) } hg.acyclic hd hs.input hn hthere rfl rfl rfl
    (fun o ho => uses_of_flattened hn o (Or.inl (mem_keptOperands.1 (hkept ho)))) (by simp) hedit with
    ⟨⟨-, -, hidle⟩, -⟩ | ⟨-, d₁, hbuilds, -, hend⟩
  · exact absurd (isInputs_inputs hidle) hsame
  have htrims : Moves (Act.Trims g (· = id)) d d₁ := hbuilds.mono fun _ _ ha => ha.trims
  have hs₁ := htrims.thinned hd hg.toLinked hs
  cases hend with
  | removed o ho hgone _ _ =>
    have habs := (hs₁.removed o hgone).1
    rw [not_isAbsorbed_of_kept hg.toLinked hn (hkept ho)] at habs
    cases habs
  | written js out hjs hmove hsome hmap hnode =>
    subst hsome
    have himages : d₁.Images (keptOperands g e) js := List.forall₂_map_left_iff.1 hjs
    have hwrite := htrims.tail (a := .write id (.expression ⟨e.op, js, e.asserted⟩))
      ⟨rfl, e, js, hover, himages, rfl⟩ hmove
    have ht₂ : Trimmed g id e d₂ := by
      refine ⟨out, hmap, ?_⟩
      rw [Generation.operands_of_node? hnode]
      cases hmove with
      | place hid _ hnone _ _ =>
        exact himages.mono fun _ _ _ hx =>
          get?_bound_of_none (Generation.ne_null_of_contains hid) hnone hx
      | replace => exact himages
    have hdirty : d₂.dirty := by cases hmove <;> rfl
    have hd₂ := hwrite.coherent hd
    obtain ⟨hdrop, hgone⟩ := moves_dropMerged hg.toLinked hover hd₂
      (hwrite.thinned hd hg.toLinked hs) ht₂
      (fun n hn' => ⟨_, Option.some.inj (hn'.symm.trans hnode), rfl⟩) hr₂
    exact ⟨hwrite.trans (hdrop.mono fun _ _ ha => ha.mono fun _ h => h.elim), fun _ =>
      ⟨hdrop.trimmed hd₂ hg.toLinked hover (fun h => h) ht₂, hdrop.dirty hdirty, hgone⟩⟩

/-- What is known of the draft of the pass over nested expressions, once it is closed. -/
structure Compressed (g : Generation α) (deduplicate : Bool) (journal : Journal) (d : Draft α) :
    Prop where
  moves : Moves (Act.Trims g fun _ => True) (start g deduplicate journal) d
  closed : d.Closed
  trimmed : ∀ i e, Overgrown g i e → Trimmed g i e d ∧ d.dirty ∧
    ∀ x ∈ (flattened g e).2, d.isRemoved x

theorem exists_compressed (hg : g.Sound) {deduplicate : Bool} {journal journal' : Journal}
    {rev : Revision α}
    (h : (nesting : Pass α).apply deduplicate journal g = .ok (rev, journal')) :
    ∃ d, Compressed g deduplicate journal d ∧ rev = ⟨d.output, d.dirty, d.mapping⟩ := by
  have hstart := coherent_start g deduplicate journal
  have hkeeps : ∀ {D d d' i e}, Moves (Act.Trims g D) d d' → d.Coherent → Overgrown g i e → ¬ D i →
      (Trimmed g i e d ∧ d.dirty ∧ ∀ x ∈ (flattened g e).2, d.isRemoved x) →
      Trimmed g i e d' ∧ d'.dirty ∧ ∀ x ∈ (flattened g e).2, d'.isRemoved x :=
    fun h hd hover hi ⟨ht, hdirty, hgone⟩ => ⟨h.trimmed hd hg.toLinked hover hi ht, h.dirty hdirty,
      fun x hx => h.removed (hgone x hx)⟩
  obtain ⟨d₁, d₂, hr, hclose⟩ := Pass.runs_of_apply h
  obtain ⟨hmoves, hall⟩ := runs_forM (l := g.expressions) (d := start g deduplicate journal)
    (P := fun done d => Moves (Act.Trims g (· ∈ done.map (·.1))) (start g deduplicate journal) d ∧
      ∀ x ∈ done, Overgrown g x.1 x.2 → Trimmed g x.1 x.2 d ∧ d.dirty ∧
        ∀ y ∈ (flattened g x.2).2, d.isRemoved y)
    (fun done x rest hl d d' _ ⟨hmoves, hall⟩ hr => by
      have hd := hmoves.coherent hstart
      have hnodup := Generation.nodup_expressions (g := g)
      rw [← hl, List.map_append, List.map_cons, List.nodup_append] at hnodup
      have hnew : x.1 ∉ done.map (·.1) := fun hmem => hnodup.2.2 _ hmem _ (by simp) rfl
      obtain ⟨h', hself⟩ := moves_compress hg hd
        (hmoves.thinned hstart hg.toLinked (thinned_start g deduplicate journal))
        (Generation.mem_expressions.1 (hl ▸ by simp)) hr
      refine ⟨(hmoves.mono fun _ _ ha => ha.mono fun i hi => ?_).trans
        (h'.mono fun _ _ ha => ha.mono fun i hi => ?_), fun z hz hover => ?_⟩
      · rw [List.map_append]
        exact List.mem_append_left _ hi
      · rw [List.map_append, hi]
        exact List.mem_append_right _ (by simp)
      · rcases List.mem_append.1 hz with hz | hz
        · exact hkeeps h' hd hover (fun h => hnew (h ▸ List.mem_map_of_mem hz)) (hall z hz hover)
        · rw [List.mem_singleton.1 hz] at hover ⊢
          exact hself hover) (List.nil_append _) ⟨.refl _, by simp⟩ (runs_get_bind.1 hr)
  have hd₁ := hmoves.coherent hstart
  obtain ⟨hcopies, hclosed, rfl⟩ := moves_close hg.acyclic hd₁ hmoves.input hclose
  have htrims : Moves (Act.Trims g fun _ => False) d₁ d₂ := hcopies.mono fun _ a ha => by
    obtain ⟨i, rfl | rfl⟩ := ha <;> trivial
  refine ⟨d₂, ⟨(hmoves.mono fun _ _ ha => ha.mono fun _ _ => trivial).trans
    (htrims.mono fun _ _ ha => ha.mono fun _ _ => trivial), hclosed, fun i e hover => ?_⟩, rfl⟩
  exact hkeeps htrims hd₁ hover (fun h => h)
    (hall (i, e) (Generation.mem_expressions.2 hover.node?) hover)

/-- The pass finds nothing to do if no expression is to have other operands. -/
theorem runs_nesting_of_not_overgrown {deduplicate : Bool} {journal : Journal}
    (hnone : ∀ id e, ¬ Overgrown g id e) :
    Runs (nesting : Pass α).run (start g deduplicate journal) ⟨⟩ (start g deduplicate journal) := by
  refine runs_get_bind.2 (runs_forM_idle fun x hx => ?_)
  have hn : g.node? x.1 = some (.expression x.2) := Generation.mem_expressions.1 hx
  change Runs (compress x.1 x.2) _ _ _
  rw [compress_eq]
  simp only [runs_get_bind]
  split_ifs with hskip hsame
  · exact runs_pure.2 ⟨rfl, rfl⟩
  · exact runs_pure.2 ⟨rfl, rfl⟩
  · simp only [Bool.or_eq_true, Bool.not_eq_true', not_or, Bool.not_eq_false, Bool.not_eq_true]
      at hskip
    exact absurd ⟨hn, by simpa using hskip.1, hskip.2, hsame⟩ (hnone x.1 x.2)

theorem dirty_of_not_overgrown {deduplicate : Bool} {journal journal' : Journal}
    {rev : Revision α} (hnone : ∀ id e, ¬ Overgrown g id e)
    (h : (nesting : Pass α).apply deduplicate journal g = .ok (rev, journal')) :
    rev.dirty = false := dirty_of_idle (runs_nesting_of_not_overgrown hnone) h

namespace Compressed

variable {deduplicate : Bool} {journal : Journal} (h : Compressed g deduplicate journal d)

include h

omit [Scalar α]

theorem input : d.input = g := h.moves.input

theorem coherent : d.Coherent := h.moves.coherent (coherent_start g deduplicate journal)

theorem sourced : Sourced d :=
  h.moves.sourced (coherent_start g deduplicate journal) (sourced_start g deduplicate journal)

theorem thinned (hg : g.Linked) : Thinned g d :=
  h.moves.thinned (coherent_start g deduplicate journal) hg (thinned_start g deduplicate journal)

/-- What is not merged is still there. -/
theorem mapped (hg : g.Linked) {i : NodeId} (hi : g.contains i) (habs : isAbsorbed g i = false) :
    ∃ j, d.mapping.get? i = some j := by
  refine (h.closed i (h.input ▸ hi)).resolve_right fun hgone => ?_
  have := ((h.thinned hg).removed i hgone).1
  rw [habs] at this
  cases this

/-- Every output node looks like the node it stands for. -/
theorem inventory (hg : g.Linked) {j : NodeId} {n : Node α} (hn : d.output.node? j = some n) :
    ∃ i m, d.mapping.get? i = some j ∧ g.node? i = some m ∧ n.skeleton = m.skeleton := by
  have hshaped : Shaped (fun i n => ∃ e, g.node? i = some (.expression e) ∧
      n = (Node.expression e).skeleton) (fun _ => True) d := by
    refine h.moves.shaped (fun d a ha => ?_) (coherent_start g deduplicate journal) (shaped_start _ _)
    cases a with
    | write id n =>
      obtain ⟨-, e, js, hover, -, rfl⟩ := ha
      exact ⟨e, hover.node?, rfl⟩
    | redirect id t => exact ha.elim
    | _ => trivial
  rcases hshaped j n hn with ⟨i, m, hi, hm, hsame | ⟨e, he, hsame⟩⟩ | ⟨hfree, -⟩
  · exact ⟨i, m, hi, h.input ▸ hm, hsame⟩
  · exact ⟨i, _, hi, he, hsame⟩
  · obtain ⟨i, hi⟩ := (h.thinned hg).bound j (Generation.contains_of_node? hn)
    exact absurd hi (hfree i)

end Compressed

end Pass

end ParameterSolver
