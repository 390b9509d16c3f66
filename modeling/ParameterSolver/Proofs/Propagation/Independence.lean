import ParameterSolver.Proofs.Graph.Separate
import ParameterSolver.Proofs.Propagation.Fixpoint

/-! Parts of a graph that do not use each other do not influence each other. Step by step, what is known
of the nodes of a part is what is known of them in the graph that has nothing else; and when the part
has come to rest before the whole has, further sweeps of the whole tell nothing new of it. -/

namespace ParameterSolver

theorem NodeMap.get?_insert_congr {β : Type} {m m' : NodeMap β} {j : NodeId}
    (h : m'.get? j = m.get? j) (id : NodeId) (x : β) :
    (m'.insert id x).get? j = (m.insert id x).get? j := by
  cases id with
  | null => exact h
  | nth n => rw [get?_insert, get?_insert, h]

variable {α : Type}

namespace Knowledge

variable {g : Generation α} {part : NodeId → Bool} {k k' : Knowledge α} {because : Provenance}
  {id a b : NodeId} {e : Expression} {operands : List NodeId}

/-- In `k'` the same is known of the nodes of the part as in `k`, and what is reported there is what
is reported of the part in `k`, in the same order. -/
structure Shares (part : NodeId → Bool) (k k' : Knowledge α) : Prop where
  value : ∀ n, part n → k'.value? n = k.value? n
  exact : ∀ n, part n → k'.exact.get? n = k.exact.get? n
  evidence : ∀ n, part n → k'.evidence.get? n = k.evidence.get? n
  emptied : k'.emptied = k.emptied.filter part
  changed : k'.changed → k.changed

namespace Shares

section Reading

variable (h : Shares part k k')

include h

theorem isEmpty (hid : part id) : k'.isEmpty id = k.isEmpty id := by
  rw [Knowledge.isEmpty, h.value id hid, Knowledge.isEmpty]

theorem any_isEmpty (ho : ∀ o ∈ operands, part o) :
    operands.any k'.isEmpty = operands.any k.isEmpty := by
  rw [Bool.eq_iff_iff, List.any_eq_true, List.any_eq_true]
  exact exists_congr fun o => and_congr_right fun hmem => by rw [h.isEmpty (ho o hmem)]

theorem evidenceOf (hid : part id) : k'.evidenceOf id = k.evidenceOf id := by
  rw [Knowledge.evidenceOf, h.evidence id hid, Knowledge.evidenceOf]

theorem contains_exact (hid : part id) : k'.exact.contains id = k.exact.contains id := by
  rw [NodeMap.contains, h.exact id hid, NodeMap.contains]

theorem all_contains_exact (ho : ∀ o ∈ operands, part o) :
    operands.all k'.exact.contains = operands.all k.exact.contains := by
  rw [Bool.eq_iff_iff, List.all_eq_true, List.all_eq_true]
  exact forall₂_congr fun o hmem => by rw [h.contains_exact (ho o hmem)]

theorem mem_emptied (hid : part id) : id ∈ k'.emptied ↔ id ∈ k.emptied := by
  rw [h.emptied, List.mem_filter, and_iff_left hid]

theorem explanation (hid : part id) :
    Knowledge.explanation (g.only part) k' id = Knowledge.explanation g k id := by
  rw [Knowledge.explanation, Generation.provenance?_only_of_mem hid, h.evidenceOf hid,
    Knowledge.explanation]

theorem limits? (hid : part id) : k'.limits? id = k.limits? id := by
  rw [Knowledge.limits?, h.value id hid, Knowledge.limits?]

theorem explanations (ho : ∀ o ∈ operands, part o) :
    operands.foldl (fun p o => p.union (Knowledge.explanation (g.only part) k' o)) SortedSet.empty =
      operands.foldl (fun p o => p.union (Knowledge.explanation g k o)) SortedSet.empty :=
  List.foldl_rel (r := Eq) rfl fun o hmem p p' hp => by rw [hp, h.explanation (ho o hmem)]

theorem reasons (ho : ∀ o ∈ e.operands, part o) :
    Knowledge.reasons (g.only part) k' e = Knowledge.reasons g k e := h.explanations ho

theorem refined? [Scalar α] (hid : part id) (bound : ValueSet α) :
    k'.refined? id bound = k.refined? id bound := by
  rw [Knowledge.refined?, h.value id hid, Knowledge.refined?]

end Reading

theorem clear (h : Shares part k k') :
    Shares part { k with changed := false } { k' with changed := false } :=
  { h with changed := fun h => h }

theorem mark (h : Shares part k k') (id : NodeId) :
    Shares part { k with exact := k.exact.insert id () }
      { k' with exact := k'.exact.insert id () } :=
  { h with exact := fun n hn => NodeMap.get?_insert_congr (h.exact n hn) id () }

theorem learn (h : Shares part k k') (id : NodeId) (next : ValueSet α) (origins : Provenance) :
    Shares part
      { k with
        values := k.values.insert id next
        evidence := k.evidence.insert id origins
        changed := true }
      { k' with
        values := k'.values.insert id next
        evidence := k'.evidence.insert id origins
        changed := true } where
  value n hn := NodeMap.get?_insert_congr (h.value n hn) id next
  exact := h.exact
  evidence n hn := NodeMap.get?_insert_congr (h.evidence n hn) id origins
  emptied := h.emptied
  changed _ := rfl

theorem report (h : Shares part k k') (hid : part id) :
    Shares part { k with emptied := k.emptied ++ [id] }
      { k' with emptied := k'.emptied ++ [id] } :=
  { h with
    emptied := by rw [List.filter_append, h.emptied, List.filter_cons_of_pos hid, List.filter_nil] }

theorem members_only (hid : part id) : members (g.only part) id = members g id := by
  rw [members, Generation.expression?_only_of_mem hid, members]

theorem part_of_mem_members (hA : g.Separates part) (hid : part id) (ha : a ∈ members g id) :
    part a := by
  rcases Relation.reflTransGen_iff_eq_or_transGen.1 (uses_of_mem_members ha) with rfl | huses
  · exact hid
  · exact (Generation.part_of_uses hA huses).trans hid

theorem part_of_mem_operands (hA : g.Separates part) (hid : part id)
    (he : g.expression? id = some e) : ∀ o ∈ e.operands, part o :=
  fun o ho => (hA id o (Generation.mem_operands_iff.2 ⟨e, he, ho⟩)).trans hid

/-! Steps at a node of the part. -/

variable [Scalar α]

theorem restrict (h : Shares part k k') (hA : g.Separates part) (hid : part id)
    (bound : ValueSet α) :
    Shares part (Knowledge.restrict g because k id bound)
      (Knowledge.restrict (g.only part) because k' id bound) := by
  unfold Knowledge.restrict
  rw [h.refined? hid, h.evidenceOf hid, h.isEmpty hid, Generation.operands_only_of_mem hid]
  cases k.refined? id bound with
  | none => exact h
  | some next =>
    have hlearn := h.learn id next ((k.evidenceOf id).union because)
    dsimp only
    rw [hlearn.any_isEmpty fun o ho => (hA id o ho).trans hid]
    simp only [h.mem_emptied hid]
    split_ifs
    · exact hlearn.report hid
    · exact hlearn

theorem narrow (h : Shares part k k') (hA : g.Separates part) (hid : part id)
    (bound : ValueSet α) :
    Shares part (Knowledge.narrow g because k id bound)
      (Knowledge.narrow (g.only part) because k' id bound) := by
  unfold Knowledge.narrow
  rw [Generation.node?_only_of_mem hid]
  split_ifs
  · exact h
  · exact h.restrict hA hid bound

theorem narrowIs (h : Shares part k k') (hA : g.Separates part) (ha : part a) (hb : part b) :
    Shares part (Knowledge.narrowIs g because k a b)
      (Knowledge.narrowIs (g.only part) because k' a b) := by
  unfold Knowledge.narrowIs
  rw [h.value a ha, h.value b hb]
  split
  · split
    · exact (h.narrow hA ha _).narrow hA hb _
    · exact h
  · exact h.narrow hA ha _
  · exact h.narrow hA hb _
  · exact h

theorem narrowPair (h : Shares part k k') (hA : g.Separates part) (ha : part a) (hb : part b) :
    Shares part (Knowledge.narrowPair g because k a b)
      (Knowledge.narrowPair (g.only part) because k' a b) := by
  unfold Knowledge.narrowPair
  extract_lets k₁ k₁'
  have h₁ : Shares part k₁ k₁' := by
    dsimp only [k₁, k₁']
    rw [h.limits? hb]
    split
    · exact h.narrow hA ha _
    · exact h
  rw [h₁.limits? ha]
  split
  · exact h₁.narrow hA hb _
  · exact h₁

theorem narrowOrder (h : Shares part k k') (hA : g.Separates part) (ha : part a) (hb : part b) :
    Shares part (Knowledge.narrowOrder g because k a b)
      (Knowledge.narrowOrder (g.only part) because k' a b) := by
  unfold Knowledge.narrowOrder
  rw [members_only ha, members_only hb]
  refine List.foldl_rel h fun m hm k k' h => List.foldl_rel h fun l hl k k' h => ?_
  exact h.narrowPair hA (part_of_mem_members hA ha hm) (part_of_mem_members hA hb hl)

theorem narrowOr (h : Shares part k k') (hA : g.Separates part) (ho : ∀ o ∈ operands, part o)
    (value : ValueSet α) :
    Shares part (Knowledge.narrowOr g because k operands value)
      (Knowledge.narrowOr (g.only part) because k' operands value) := by
  have hopen : (operands.filter fun o => !(k'.value? o).any ValueSet.isFalse) =
      operands.filter fun o => !(k.value? o).any ValueSet.isFalse :=
    List.filter_congr fun o hmem => by rw [h.value o (ho o hmem)]
  unfold Knowledge.narrowOr
  rw [hopen]
  split_ifs
  · exact List.foldl_rel h fun o hmem k k' h => h.narrow hA (ho o hmem) _
  · split
    · rename_i only honly
      have hmem : only ∈ operands.filter fun o => !(k.value? o).any ValueSet.isFalse := by
        rw [honly]
        exact List.mem_singleton_self only
      exact h.narrow hA (ho only (List.mem_of_mem_filter hmem)) _
    · exact h
  · exact h

theorem narrowEach (h : Shares part k k') (hA : g.Separates part) (ho : ∀ o ∈ operands, part o)
    (bound? : Quantities α → List (Quantities α) → Nat → Option (Quantities α))
    (value : ValueSet α) :
    Shares part (Knowledge.narrowEach g because k bound? operands value)
      (Knowledge.narrowEach (g.only part) because k' bound? operands value) := by
  have hsets : (operands.mapM fun o => (k'.value? o).bind ValueSet.quantities?) =
      operands.mapM fun o => (k.value? o).bind ValueSet.quantities? := by
    have hvalues := congrArg (List.mapM fun v => v.bind ValueSet.quantities?)
      (List.map_congr_left fun o hmem => h.value o (ho o hmem))
    rwa [List.mapM_map, List.mapM_map] at hvalues
  unfold Knowledge.narrowEach
  rw [hsets]
  split
  · refine List.foldl_rel h fun x hx k k' h => ?_
    dsimp only
    split
    · exact h.narrow hA (ho x.1 (List.fst_mem_of_mem_zipIdx hx)) _
    · exact h
  · exact h

theorem narrowOperands (h : Shares part k k') (hA : g.Separates part)
    (ho : ∀ o ∈ e.operands, part o) (value : ValueSet α) :
    Shares part (Knowledge.narrowOperands g because k e value)
      (Knowledge.narrowOperands (g.only part) because k' e value) := by
  unfold Knowledge.narrowOperands
  split
  · rename_i a b rest _ hops
    split_ifs
    · exact h.narrowIs hA (ho a (by simp [hops])) (ho b (by simp [hops]))
    · exact h
  · rename_i a b rest _ hops
    rw [h.value b (ho b (by simp [hops]))]
    split
    · exact h.narrow hA (ho a (by simp [hops])) _
    · exact h
  · rename_i a b rest _ hops
    split_ifs
    · exact h.narrowOrder hA (ho a (by simp [hops])) (ho b (by simp [hops]))
    · exact h
  · rename_i a rest _ hops
    split
    · exact h.narrow hA (ho a (by simp [hops])) _
    · exact h
  · exact h.narrowOr hA ho _
  · exact h.narrowEach hA ho _ _
  · exact h.narrowEach hA ho _ _
  · exact h

theorem backwardStep (h : Shares part k k') (hA : g.Separates part) (hid : part id) :
    Shares part (Knowledge.backwardStep g k id) (Knowledge.backwardStep (g.only part) k' id) := by
  unfold Knowledge.backwardStep
  rw [Generation.expression?_only_of_mem hid, h.value id hid, h.explanation hid]
  split
  · rename_i e value he hvalue
    split_ifs
    · exact h
    · exact h.narrowOperands hA (part_of_mem_operands hA hid he) value
  · exact h

omit [Scalar α] in
theorem marked (h : Shares part k k') (ho : ∀ o ∈ e.operands, part o) (id : NodeId) :
    Shares part (k.marked id e) (k'.marked id e) := by
  unfold Knowledge.marked
  rw [h.all_contains_exact ho]
  split_ifs
  · exact h.mark id
  · exact h

theorem learnInitial (h : Shares part k k') (id : NodeId) (n : Node α) :
    Shares part (k.learnInitial id n) (k'.learnInitial id n) := by
  unfold Knowledge.learnInitial
  cases initial? n with
  | none => exact h
  | some value =>
    have hvalue (m : NodeId) (hm : part m) :
        (k'.values.insert id value).get? m = (k.values.insert id value).get? m :=
      NodeMap.get?_insert_congr (h.value m hm) id value
    dsimp only
    split_ifs
    · exact { h.mark id with value := hvalue }
    · exact { h with value := hvalue }

theorem forwardStep_eq (he : g.expression? id = some e) :
    Knowledge.forwardStep g k id =
      match k.forwardValue? e with
      | none => k.marked id e
      | some v =>
        Knowledge.restrict g (Knowledge.reasons g (k.marked id e) e) (k.marked id e) id v := by
  unfold Knowledge.forwardStep
  rw [he]
  rfl

theorem forwardStep (h : Shares part k k') (hA : g.Separates part) (hid : part id) :
    Shares part (Knowledge.forwardStep g k id) (Knowledge.forwardStep (g.only part) k' id) := by
  cases he : g.expression? id with
  | none =>
    rw [Knowledge.forwardStep, Knowledge.forwardStep, Generation.expression?_only_of_mem hid, he]
    exact h
  | some e =>
    have ho := part_of_mem_operands hA hid he
    have hmarked := h.marked ho id
    rw [forwardStep_eq he, forwardStep_eq ((Generation.expression?_only_of_mem hid).trans he),
      forwardValue?_congr (fun o hmem => h.value o (ho o hmem))
        fun o hmem => h.contains_exact (ho o hmem), hmarked.reasons ho]
    cases k.forwardValue? e with
    | none => exact hmarked
    | some v => exact hmarked.restrict hA hid v

/-! Steps outside of the part. -/

omit [Scalar α] in
theorem insert_outside {β : Type} (m : NodeMap β) (hid : part id = false) (x : β) (n : NodeId)
    (hn : part n) : (m.insert id x).get? n = m.get? n := by
  refine NodeMap.get?_insert_other ?_
  rintro rfl
  cases hn.symm.trans hid

theorem learnInitial_outside (h : Shares part k k') (hid : part id = false) (n : Node α) :
    Shares part (k.learnInitial id n) k' := by
  unfold Knowledge.learnInitial
  cases initial? n with
  | none => exact h
  | some value =>
    refine ⟨fun m hm => ?_, fun m hm => ?_, h.evidence, h.emptied, h.changed⟩
    · exact (h.value m hm).trans (insert_outside _ hid value m hm).symm
    · dsimp only
      split_ifs
      · exact (h.exact m hm).trans (insert_outside _ hid () m hm).symm
      · exact h.exact m hm

theorem restrict_outside (h : Shares part k k') (hid : part id = false) (bound : ValueSet α) :
    Shares part (Knowledge.restrict g because k id bound) k' := by
  obtain ⟨hr, -⟩ | ⟨next, emptied, hr, -, hemptied⟩ := restrict_cases g because k id bound
  · rwa [hr]
  rw [hr]
  refine ⟨fun n hn => ?_, h.exact, fun n hn => ?_, ?_, fun _ => rfl⟩
  · exact (h.value n hn).trans (insert_outside _ hid next n hn).symm
  · exact (h.evidence n hn).trans (insert_outside _ hid _ n hn).symm
  · rcases hemptied with rfl | ⟨rfl, -⟩
    · exact h.emptied
    · rw [List.filter_append, List.filter_cons_of_neg (by simp [hid]), List.filter_nil,
        List.append_nil, h.emptied]

theorem narrows_outside (h : Shares part k k') {targets : NodeId → Prop} {k₁ : Knowledge α}
    (hout : ∀ n, targets n → part n = false) (hn : Narrows g because targets k k₁) :
    Shares part k₁ k' := by
  induction hn with
  | refl => exact h
  | narrow _ hid bound ih =>
    unfold Knowledge.narrow
    split_ifs
    · exact ih
    · exact ih.restrict_outside (hout _ hid) bound

theorem backwardStep_outside (h : Shares part k k') (hA : g.Separates part)
    (hid : part id = false) : Shares part (Knowledge.backwardStep g k id) k' :=
  h.narrows_outside (fun _ hn => (Generation.part_of_uses hA hn).trans hid)
    (narrows_backwardStep k id)

theorem forwardStep_outside (h : Shares part k k') (hid : part id = false) :
    Shares part (Knowledge.forwardStep g k id) k' := by
  obtain hsame | ⟨e, -, exact, hexact, hstep⟩ := forwardStep_cases (g := g) k id
  · rwa [hsame]
  have hmarked : Shares part { k with exact := exact } k' := by
    rcases hexact with rfl | rfl
    · exact h
    · exact { h with
        exact := fun n hn => (h.exact n hn).trans (insert_outside _ hid () n hn).symm }
  rcases hstep with hstep | ⟨because, v, hstep⟩ <;> rw [hstep]
  · exact hmarked
  · exact hmarked.restrict_outside hid v

/-! Sweeps. A node that is not in the smaller graph is outside of the part, or it is in neither. -/

variable {order order' : List NodeId}

theorem forward (hA : g.Separates part)
    (horder : order.filter (g.only part).contains = order'.filter (g.only part).contains)
    (h : Shares part k k') :
    Shares part (order.foldl (Knowledge.forwardStep g) k)
      (order'.foldl (Knowledge.forwardStep (g.only part)) k') := by
  refine foldl_rel_of_filter horder (fun id hid k k' h => ?_) (fun id _ hid k k' h => ?_)
    (fun id _ hid k k' h => ?_) h
  · exact h.forwardStep hA (Generation.contains_only_iff.1 hid).1
  · cases hp : part id with
    | false => exact h.forwardStep_outside hp
    | true =>
      rw [Knowledge.forwardStep,
        Generation.expression?_of_not_contains (Generation.contains_only_eq_false hp hid)]
      exact h
  · rw [Knowledge.forwardStep, Generation.expression?_of_not_contains hid]
    exact h

theorem backward (hA : g.Separates part)
    (horder : order.filter (g.only part).contains = order'.filter (g.only part).contains)
    (h : Shares part k k') :
    Shares part (order.foldl (Knowledge.backwardStep g) k)
      (order'.foldl (Knowledge.backwardStep (g.only part)) k') := by
  refine foldl_rel_of_filter horder (fun id hid k k' h => ?_) (fun id _ hid k k' h => ?_)
    (fun id _ hid k k' h => ?_) h
  · exact h.backwardStep hA (Generation.contains_only_iff.1 hid).1
  · cases hp : part id with
    | false => exact h.backwardStep_outside hA hp
    | true =>
      rw [Knowledge.backwardStep,
        Generation.expression?_of_not_contains (Generation.contains_only_eq_false hp hid)]
      exact h
  · rw [Knowledge.backwardStep, Generation.expression?_of_not_contains hid]
    exact h

theorem sweep (h : Shares part k k') (hg : g.Acyclic) (hA : g.Separates part) :
    Shares part (Knowledge.sweep g g.topologicalOrder k)
      (Knowledge.sweep (g.only part) (g.only part).topologicalOrder k') := by
  have horder := Generation.filter_topologicalOrder hg hA
  have hreverse : g.topologicalOrder.reverse.filter (g.only part).contains =
      (g.only part).topologicalOrder.reverse.filter (g.only part).contains := by
    rw [List.filter_reverse, List.filter_reverse, horder]
  exact backward hA hreverse (forward hA horder h.clear)

end Shares

theorem shares_seed [Scalar α] (g : Generation α) (part : NodeId → Bool) :
    Shares part (seed g) (seed (g.only part)) := by
  have hlist : g.toList.filter (fun x => part x.1) =
      (g.only part).toList.filter fun x => part x.1 := by
    rw [Generation.toList_only, List.filter_filter]
    simp
  refine foldl_rel_of_filter (R := Shares part) hlist (fun x _ k k' h => ?_)
    (fun x _ hx k k' h => ?_) (fun x hmem hx => ?_)
    ⟨fun _ _ => rfl, fun _ _ => rfl, fun _ _ => rfl, rfl, fun h => h⟩
  · exact h.learnInitial x.1 x.2.node
  · exact h.learnInitial_outside hx x.2.node
  · rw [Generation.toList_only, List.mem_filter, hx] at hmem
    cases hmem.2

end Knowledge

namespace Propagation

open Knowledge

variable [Scalar α] {g : Generation α} {part : NodeId → Bool}

/-- A part that has come to rest stays as it is while the whole goes on. -/
theorem shares_iterate_of_rest (hg : g.Acyclic) (hA : g.Separates part) {k' : Knowledge α}
    (hrest : k'.sweep (g.only part) (g.only part).topologicalOrder = k') (budget : ℕ)
    {p : Propagation α} (h : Shares part p.knowledge k') :
    Shares part (iterate g g.topologicalOrder budget p).knowledge k' := by
  induction budget generalizing p with
  | zero => exact h
  | succ budget ih =>
    have hsweep := h.sweep hg hA
    rw [hrest] at hsweep
    unfold iterate
    dsimp only
    split_ifs
    · exact ih hsweep
    · exact hsweep

theorem shares_iterate (hg : g.Acyclic) (hA : g.Separates part) (budget : ℕ)
    {p p' : Propagation α} (h : Shares part p.knowledge p'.knowledge) :
    Shares part (iterate g g.topologicalOrder budget p).knowledge
      (iterate (g.only part) (g.only part).topologicalOrder budget p').knowledge := by
  induction budget generalizing p p' with
  | zero => exact h
  | succ budget ih =>
    have hsweep := h.sweep hg hA
    unfold iterate
    dsimp only
    split_ifs with hc hc' hc'
    · exact ih hsweep
    · -- the part has stopped, and the whole goes on
      have hrest := sweep_eq_of_quiet (hg.only part) (Bool.eq_false_iff.2 hc')
      exact shares_iterate_of_rest hg hA hrest budget hsweep
    · exact absurd (hsweep.changed hc') hc
    · exact hsweep

theorem shares_run (hg : g.Acyclic) (hA : g.Separates part) (budget : ℕ) :
    Shares part (run g budget).knowledge (run (g.only part) budget).knowledge :=
  shares_iterate hg hA budget (shares_seed g part)

end Propagation

/-! What is reported. Only the short names of parameters without names are counted over all parts. -/

namespace Generation

variable [Scalar α] {g : Generation α} {part : NodeId → Bool} {id : NodeId}

theorem describeWith_of_not_node? (h : g.node? id = none) (fuel : ℕ) :
    g.describeWith fuel id = "<" ++ id.text ++ ">" := by
  cases fuel with
  | zero => rfl
  | succ fuel => rw [describeWith, h]

omit [Scalar α] in
theorem Heights.node?_of_zero {height : NodeId → ℕ} (hh : g.Heights height)
    (h : height id = 0) : g.node? id = none := by
  refine Option.eq_none_iff_forall_ne_some.2 fun n hn => ?_
  have := hh.pos id (contains_of_node? hn)
  omega

/-- Among parameters that have names, a node is written as it is without the rest. -/
theorem describeWith_only (hA : g.Separates part)
    (hnamed : ∀ id p, g.parameter? id = some p → p.name.isSome) {height height' : NodeId → ℕ}
    (hh : g.Heights height) (hh' : (g.only part).Heights height') {fuel fuel' : ℕ}
    (hid : part id) (hfuel : height id ≤ fuel) (hfuel' : height' id ≤ fuel') :
    (g.only part).describeWith fuel' id = g.describeWith fuel id := by
  have hnode := node?_only_of_mem (g := g) hid
  induction fuel generalizing id fuel' with
  | zero =>
    have hnone := hh.node?_of_zero (Nat.le_zero.1 hfuel)
    rw [describeWith_of_not_node? hnone, describeWith_of_not_node? (hnode.trans hnone)]
  | succ fuel ih =>
    obtain _ | fuel' := fuel'
    · have hnone := hh'.node?_of_zero (Nat.le_zero.1 hfuel')
      rw [describeWith_of_not_node? hnone, describeWith_of_not_node? (hnode.symm.trans hnone)]
    rw [describeWith, describeWith, hnode]
    cases hn : g.node? id with
    | none => rfl
    | some n =>
      cases n with
      | parameter p =>
        have hname := hnamed id p (by rw [parameter?, hn]; rfl)
        obtain ⟨name, hname⟩ := Option.isSome_iff_exists.1 hname
        simp only [parameterName, hname]
      | expression e =>
        have hoperands : e.operands.map ((g.only part).describeWith fuel') =
            e.operands.map (g.describeWith fuel) := by
          refine List.map_congr_left fun o ho => ?_
          have hmem : o ∈ g.operands id := by rwa [operands_of_node? hn]
          have hheight := hh.operand id o hmem
          have hheight' := hh'.operand id o (by rwa [operands_only_of_mem hid])
          have hpo := (hA id o hmem).trans hid
          exact ih hpo (by omega) (by omega) (node?_only_of_mem hpo)
        simp only [hoperands]
      | literal value source => rfl
      | constant c => rfl

theorem describe_only (hg : g.Acyclic) (hA : g.Separates part)
    (hnamed : ∀ id p, g.parameter? id = some p → p.name.isSome) (hid : part id) :
    (g.only part).describe id = g.describe id := by
  obtain ⟨height, hh⟩ := hg.exists_heights
  obtain ⟨height', hh'⟩ := (hg.only part).exists_heights
  exact describeWith_only hA hnamed hh hh' hid (hh.le_size id) (hh'.le_size id)

end Generation

/-! A graph to look at: two numbers that are each asserted to be two things, in turns. -/

namespace Sample

def twinsOf (u v : Parameter Float) : Blueprint Float :=
  let b := (Blueprint.empty.addParameter u).2
  let b := (b.addParameter v).2
  let b := (b.assign (.nth 0) (.number 5)).2
  let b := (b.assign (.nth 1) (.number 5)).2
  let b := (b.assign (.nth 0) (.number 6)).2
  (b.assign (.nth 1) (.number 7)).2

def twins : Blueprint Float := twinsOf (Parameter.real.withName "u") (Parameter.real.withName "v")

/-- The same numbers without names of their own. -/
def unnamed : Blueprint Float := twinsOf .real .real

/-- The first number and what is asserted of it. -/
def twin (id : NodeId) : Bool := id ∈ ([0, 2, 3, 6, 7] : List ℕ).map NodeId.nth

theorem twinsOf_reachable (u v : Parameter Float) : (twinsOf u v).Reachable := by
  have hassign {b : Blueprint Float} (h : b.Reachable) (target : NodeId) (s : ValueSet Float) :
      (b.assign target s).2.Reachable := .assertion (.literal h s) _ _
  unfold twinsOf
  exact hassign (hassign (hassign (hassign (.parameter (.parameter .empty u) v) _ _) _ _) _ _) _ _

theorem twinsOf_acyclic (u v : Parameter Float) : (twinsOf u v).generation.Acyclic :=
  (Blueprint.sane_of_reachable (twinsOf_reachable u v)).ascending.acyclic

theorem separates_of_nodes {g : Generation Float} {part : NodeId → Bool}
    (h : ∀ x ∈ g.nodes, ∀ o ∈ x.2.operands, part o = part x.1) : g.Separates part := by
  intro id o ho
  obtain ⟨n, hn⟩ := Generation.node?_of_mem_operands ho
  rw [Generation.operands_of_node? hn] at ho
  exact h _ (Generation.mem_nodes.2 hn) o ho

theorem twins_separate : twins.generation.Separates twin := separates_of_nodes (by decide +kernel)

theorem unnamed_separate : unnamed.generation.Separates twin := separates_of_nodes (by decide +kernel)

theorem twins_named (id : NodeId) (p : Parameter Float)
    (hp : twins.generation.parameter? id = some p) : p.name.isSome := by
  have hall : ∀ x ∈ twins.generation.nodes, (x.2.parameter?.all fun p => p.name.isSome) := by
    decide +kernel
  obtain ⟨n, hn, hnp⟩ := Option.bind_eq_some_iff.1 hp
  have hname := hall _ (Generation.mem_nodes.2 hn)
  rwa [hnp] at hname

end Sample

namespace Analysis

open Propagation

variable [Scalar α] {g : Generation α} {part : NodeId → Bool} {budget : ℕ}
  {mappings : List (NodeMap NodeId)}

theorem contradiction_only {k k' : Knowledge α} {id : NodeId} (h : k.Shares part k')
    (hA : g.Separates part) (hid : part id) :
    contradiction g k id =
      { contradiction (g.only part) k' id with name := g.describe id } := by
  have hmem : ∀ n ∈ id :: g.operands id, part n := by
    intro n hn
    rcases List.mem_cons.1 hn with rfl | hn
    · exact hid
    · exact (hA id n hn).trans hid
  unfold contradiction
  rw [Generation.operands_only_of_mem hid, h.explanations hmem]
  rfl

theorem contradictions_perm (g : Generation α) (budget : ℕ) (mappings : List (NodeMap NodeId)) :
    (ofSteps g budget mappings).contradictions.Perm
      ((run g budget).knowledge.emptied.map (contradiction g (run g budget).knowledge)) :=
  (List.mergeSort_perm _ _).map _

/-- The contradictions of the part are those of the whole at its nodes, but for the names. -/
theorem contradictions_only_perm (hg : g.Acyclic) (hA : g.Separates part) (budget : ℕ)
    (mappings : List (NodeMap NodeId)) :
    ((ofSteps (g.only part) budget mappings).contradictions.map
      fun c => { c with name := g.describe c.node }).Perm
        (((run g budget).knowledge.emptied.filter part).map
          (contradiction g (run g budget).knowledge)) := by
  have hshares := shares_run hg hA budget
  refine ((contradictions_perm (g.only part) budget mappings).map _).trans (.of_eq ?_)
  rw [List.map_map, hshares.emptied]
  refine List.map_congr_left fun id hid => ?_
  exact (contradiction_only hshares hA (List.mem_filter.1 hid).2).symm

/-- Among parameters that have names the names are the same as well. -/
theorem renamed_of_named (hg : g.Acyclic) (hA : g.Separates part)
    (hnamed : ∀ id p, g.parameter? id = some p → p.name.isSome) {c : Contradiction}
    (hc : c ∈ (ofSteps (g.only part) budget mappings).contradictions) :
    { c with name := g.describe c.node } = c := by
  obtain ⟨id, hid, rfl⟩ := List.mem_map.1 ((contradictions_perm _ budget mappings).subset hc)
  rw [(shares_run hg hA budget).emptied, List.mem_filter] at hid
  rw [contradiction, Generation.describe_only hg hA hnamed hid.2]

/-- Two parts that do not use each other do not influence each other. With every budget, the run on
the whole knows of the nodes of each part, and reports of them, what the run on the part alone does;
and the contradictions of the whole are those of the two parts, written with the names of the whole,
which are the same if all parameters have names. -/
theorem ofSteps_of_separates (hg : g.Acyclic) (hA : g.Separates part) (budget : ℕ)
    (mappings : List (NodeMap NodeId)) :
    (run g budget).knowledge.Shares part (run (g.only part) budget).knowledge ∧
    (run g budget).knowledge.Shares (fun id => !part id)
      (run (g.only fun id => !part id) budget).knowledge ∧
    (ofSteps g budget mappings).contradictions.Perm
      (((ofSteps (g.only part) budget mappings).contradictions ++
        (ofSteps (g.only fun id => !part id) budget mappings).contradictions).map
          fun c => { c with name := g.describe c.node }) ∧
    ((∀ id p, g.parameter? id = some p → p.name.isSome) →
      (ofSteps g budget mappings).contradictions.Perm
        ((ofSteps (g.only part) budget mappings).contradictions ++
          (ofSteps (g.only fun id => !part id) budget mappings).contradictions)) := by
  have hunion : (ofSteps g budget mappings).contradictions.Perm
      (((ofSteps (g.only part) budget mappings).contradictions ++
        (ofSteps (g.only fun id => !part id) budget mappings).contradictions).map
          fun c => { c with name := g.describe c.node }) := by
    have hsplit := (List.filter_append_perm part (run g budget).knowledge.emptied).symm.map
      (contradiction g (run g budget).knowledge)
    rw [List.map_append] at hsplit ⊢
    have hpart := contradictions_only_perm hg hA budget mappings
    have hrest := contradictions_only_perm hg hA.compl budget mappings
    exact ((contradictions_perm g budget mappings).trans hsplit).trans (hpart.append hrest).symm
  refine ⟨shares_run hg hA budget, shares_run hg hA.compl budget, hunion, fun hnamed => ?_⟩
  refine hunion.trans (.of_eq ((List.map_congr_left fun c hc => ?_).trans (List.map_id _)))
  rcases List.mem_append.1 hc with hc | hc
  · exact renamed_of_named hg hA hnamed hc
  · exact renamed_of_named hg hA.compl hnamed hc

/-- Each of two numbers is asserted to be two things, in turns: both parts report a contradiction,
and so does the whole, with or without names. -/
theorem ofSteps_of_separates_twins :
    (Sample.twins.generation.Acyclic ∧ Sample.twins.generation.Separates Sample.twin ∧
      (ofSteps Sample.twins.generation 64 []).contradictions.Perm
        ((ofSteps (Sample.twins.generation.only Sample.twin) 64 []).contradictions ++
          (ofSteps (Sample.twins.generation.only fun id => !Sample.twin id) 64 []).contradictions) ∧
      (ofSteps (Sample.twins.generation.only Sample.twin) 64 []).contradictions.length = 1 ∧
      (ofSteps (Sample.twins.generation.only fun id => !Sample.twin id) 64 []).contradictions.length = 1) ∧
    Sample.unnamed.generation.Acyclic ∧ Sample.unnamed.generation.Separates Sample.twin ∧
      (ofSteps Sample.unnamed.generation 64 []).contradictions.Perm
        (((ofSteps (Sample.unnamed.generation.only Sample.twin) 64 []).contradictions ++
          (ofSteps (Sample.unnamed.generation.only fun id => !Sample.twin id) 64 []).contradictions).map
            fun c => { c with name := Sample.unnamed.generation.describe c.node }) ∧
      (ofSteps (Sample.unnamed.generation.only Sample.twin) 64 []).contradictions.length = 1 ∧
      (ofSteps (Sample.unnamed.generation.only fun id => !Sample.twin id) 64 []).contradictions.length = 1 := by
  have hnamed := ofSteps_of_separates (Sample.twinsOf_acyclic _ _) Sample.twins_separate 64 []
  have hunnamed := ofSteps_of_separates (Sample.twinsOf_acyclic _ _) Sample.unnamed_separate 64 []
  refine ⟨⟨Sample.twinsOf_acyclic _ _, Sample.twins_separate, hnamed.2.2.2 Sample.twins_named, ?_, ?_⟩,
    Sample.twinsOf_acyclic _ _, Sample.unnamed_separate, hunnamed.2.2.1, ?_, ?_⟩
  all_goals decide +kernel

end Analysis

end ParameterSolver
