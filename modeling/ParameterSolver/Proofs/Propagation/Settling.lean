import ParameterSolver.Proofs.Propagation.Direct

/-! What holds of a direct predicate once it has had its turn. Forward, its own set is within the truth
values that its operands leave for it; backward, the sets of its operands are within the bounds that
it passes on. Sets only get smaller, so bounds stay kept, and after a sweep without news both hold of
all direct predicates at once. -/

namespace ParameterSolver

open Scalar Scalar.Ordered Scalar.Reading

variable {α : Type} [Scalar α]

/-! The sets that leaves start with are in normal form. -/

section Leaves

variable [Ordered α] {s : ValueSet α}

theorem canonical_ofBounds? (lo hi : Bound α) :
    (Numbers.ofInterval? (Interval.ofBounds? lo hi)).Canonical :=
  Numbers.canonical_ofInterval? fun _ => Interval.proper_of_ofBounds?

theorem canonical_ofUnits {q : Numbers α} (hq : q.Canonical) (unit : MeasureUnit α) :
    (ValueSet.numeric (.ofUnits q unit)).Canonical := by
  unfold ValueSet.Canonical Quantities.ofUnits Numbers.scale
  dsimp only
  split_ifs
  · exact hq
  · exact Numbers.canonical_mapEnds _

theorem canonical_number (x : α) : (ValueSet.number x).Canonical := canonical_ofBounds? _ _

theorem Domain.canonical_values (unit : MeasureUnit α) (d : Domain) :
    (d.values unit).Canonical := by
  have hline : (Numbers.unbounded : Numbers α).Canonical :=
    Numbers.canonical_ofInterval? (i := some .unbounded) fun _ h =>
      Option.some.inj h ▸ Interval.proper_unbounded
  rcases d with ⟨_ | _, _ | _, _⟩ | _ | _ | _
  · exact canonical_ofBounds? _ _
  · exact canonical_ofBounds? _ _
  · exact hline
  · exact hline
  all_goals trivial

theorem Constant.canonical_toSet {c : Constant α} (h : c.toSet = .ok s) : s.Canonical := by
  cases c with
  | number x unit => exact Except.ok.inj h ▸ canonical_ofUnits (canonical_ofBounds? _ _) unit
  | range lo hi unit => exact Except.ok.inj h ▸ canonical_ofUnits (canonical_ofBounds? _ _) unit
  | bool b => exact Except.ok.inj h ▸ trivial
  | member e m =>
    obtain ⟨c, -, rfl⟩ := ValueSet.map_ok h
    trivial
  | text t => exact Except.ok.inj h ▸ trivial

theorem Knowledge.canonical_initial? {m : Node α}
    (hm : ∀ s source, m = .literal s source → s.Canonical) (h : initial? m = some s) :
    s.Canonical := by
  cases m with
  | parameter p =>
    have hall : p.values.Canonical := p.domain.canonical_values p.unit
    cases h
    cases p.within with
    | none => exact hall
    | some bound =>
      cases hr : p.values.inter bound with
      | error => simpa [hr, Except.toOption] using hall
      | ok u => simpa [hr, Except.toOption] using ValueSet.canonical_inter hr
  | literal t source => exact Option.some.inj h ▸ hm t source rfl
  | constant c =>
    cases hr : c.toSet with
    | error => simp [initial?, hr, Except.toOption] at h
    | ok t =>
      obtain rfl : t = s := by simpa [initial?, hr, Except.toOption] using h
      exact Constant.canonical_toSet hr
  | expression e => cases h

end Leaves

namespace Generation

variable {g : Generation α} {n : NodeId} {s : ValueSet α}

/-- Literals are in normal form, and no leaf starts without values. -/
structure Grounded (g : Generation α) : Prop where
  canonical : ∀ id s source, g.node? id = some (.literal s source) → s.Canonical
  fed : ∀ id n, g.node? id = some n → n.startsEmpty = false

/-- The node is a leaf with a set or a predicate. -/
def Valued (g : Generation α) (n : NodeId) : Prop :=
  ((Knowledge.seed g).value? n).isSome ∨ ∃ e, g.expression? n = some e ∧ e.op.isPredicate

theorem Grounded.seed [Scalar.Ordered α] (hg : g.Grounded)
    (hs : (Knowledge.seed g).value? n = some s) : s.Canonical ∧ s.isEmpty = false := by
  obtain ⟨m, hm, hinitial⟩ := Knowledge.initial?_of_seed hs
  refine ⟨Knowledge.canonical_initial? (fun t source hlit => hg.canonical n t source (hlit ▸ hm)) hinitial, ?_⟩
  simpa [Node.startsEmpty, hinitial] using hg.fed n m hm

theorem Passes.canonical [Scalar.Ordered α] {e : Expression} {v b : ValueSet α} (hg : g.Grounded)
    (h : g.Passes e v n b) : b.Canonical := by
  cases h with
  | left _ _ _ _ hs => exact (hg.seed hs).1
  | right _ _ _ _ hs => exact (hg.seed hs).1
  | member _ _ _ hs => exact (hg.seed hs).1
  | floor => exact Numbers.canonical_ofInterval? fun _ => Interval.proper_of_ofBounds?
  | ceiling => exact Numbers.canonical_ofInterval? fun _ => Interval.proper_of_ofBounds?
  | opposite => trivial

end Generation

namespace Knowledge

variable {g : Generation α} {k k' : Knowledge α} {because : Provenance} {id n : NodeId}
  {e : Expression} {s b bound v : ValueSet α}

/-- The set of a direct predicate is within what its operands leave for it. -/
def Knows (g : Generation α) (k : Knowledge α) (id : NodeId) : Prop :=
  ∀ e, g.expression? id = some e → g.isDirect e → ∃ t, k.value? id = some (.boolean t) ∧
    ∀ u, k.forwardValue? e = some (.boolean u) → t.isSubset u

theorem forwardValue?_congr (hvalue : ∀ o ∈ e.operands, k'.value? o = k.value? o)
    (hexact : ∀ o ∈ e.operands, k'.exact.contains o = k.exact.contains o) :
    k'.forwardValue? e = k.forwardValue? e := by
  unfold forwardValue?
  rw [List.map_congr_left hvalue, List.map_congr_left hexact]

theorem Kept.exists_truths (h : Kept g k) (he : g.expression? n = some e) (hp : e.op.isPredicate)
    (hs : k.value? n = some s) : ∃ t, s = .boolean t := by
  have hfamily := h.truths n e s he hp hs
  cases s with
  | boolean t => exact ⟨t, rfl⟩
  | numeric q => cases hfamily
  | enum c => cases hfamily
  | text t => cases hfamily

theorem knows_forwardStep (hacyclic : g.Acyclic) (h : Kept g k) (id : NodeId) :
    Knows g (forwardStep g k id) id := by
  intro e he hd
  have hp := Generation.isPredicate_of_isDirect hd
  obtain ⟨t, ht, hstep⟩ := forwardStep_of_isPredicate (k := k) he hp
  have hnull := Generation.ne_null_of_contains
    (Generation.contains_of_node? (Generation.expression?_eq.1 he))
  have hother {o : NodeId} (ho : o ∈ e.operands) : o ≠ id := by
    rintro rfl
    exact hacyclic.not_mem_operands (Generation.mem_operands_iff.2 ⟨e, he, ho⟩)
  have hforward : (restrict g (reasons g k e) k id (.boolean t)).forwardValue? e =
      k.forwardValue? e := by
    obtain ⟨hr, -⟩ | ⟨next, emptied, hr, -⟩ := restrict_cases g (reasons g k e) k id (.boolean t) <;>
      rw [hr]
    exact forwardValue?_congr (fun o ho => NodeMap.get?_insert_other (hother ho)) fun _ _ => rfl
  rw [hstep]
  obtain ⟨hr, current, hcurrent, hnews⟩ | ⟨next, emptied, hr, hvalue, -⟩ :=
    restrict_cases g (reasons g k e) k id (.boolean t) <;> rw [hr] at hforward ⊢
  · obtain ⟨c, rfl⟩ := h.exists_truths he hp hcurrent
    refine ⟨c, hcurrent, fun u hu => ?_⟩
    cases ht.symm.trans hu
    have hc : c = c.inter t := eq_of_beq (hnews (.boolean (c.inter t)) rfl)
    rw [hc]
    exact Truths.isSubset_iff.2 fun b hb => (Truths.mem_inter.1 hb).2
  · have hself : (k.values.insert id next).get? id = some next := by
      rw [NodeMap.get?_insert_self hnull]
    rcases hvalue with ⟨-, rfl⟩ | ⟨current, hcurrent, hinter⟩
    · refine ⟨t, hself, fun u hu => ?_⟩
      cases ht.symm.trans (hforward.symm.trans hu)
      exact Truths.isSubset_refl t
    · obtain ⟨c, rfl⟩ := h.exists_truths he hp hcurrent
      cases hinter
      refine ⟨c.inter t, hself, fun u hu => ?_⟩
      cases ht.symm.trans (hforward.symm.trans hu)
      exact Truths.isSubset_iff.2 fun b hb => (Truths.mem_inter.1 hb).2

theorem Knows.congr (h : Knows g k id) (hk : Kept g k) (hk' : Kept g k')
    (hvalue : ∀ n, k'.value? n = k.value? n) : Knows g k' id := by
  intro e he hd
  obtain ⟨t, ht, hsub⟩ := h e he hd
  refine ⟨t, (hvalue id).trans ht, fun u hu => hsub u ?_⟩
  rw [← hu]
  unfold forwardValue?
  have hflags : ∀ i, Propagation.setIndex? e.op = some i →
      (e.operands.map k.exact.contains).getD i false =
        (e.operands.map k'.exact.contains).getD i false := by
    intro i hi
    rw [List.getD_eq_getElem?_getD, List.getD_eq_getElem?_getD, List.getElem?_map,
      List.getElem?_map]
    cases ho : e.operands[i]? with
    | none => rfl
    | some o =>
      have hgiven := Generation.isGiven_of_setIndex? hd hi ho
      simp [hk.exact o hgiven, hk'.exact o hgiven]
  rw [List.map_congr_left fun o _ => (hvalue o).symm,
    Propagation.evaluate?_congr_exact (Generation.isPredicate_of_isDirect hd) hflags]

omit [Scalar α] in
theorem foldl_inv {β : Type} {Inv : Knowledge α → Prop} {f : Knowledge α → β → Knowledge α}
    (hinv : ∀ k x, Inv k → Inv (f k x)) (l : List β) (hk : Inv k) : Inv (l.foldl f k) :=
  foldl_inv_of_mem (fun x _ k hk => hinv k x hk) hk

section Fold

variable {Inv : Knowledge α → Prop} {P : Knowledge α → NodeId → Prop}
  {f : Knowledge α → NodeId → Knowledge α} (hinv : ∀ k x, Inv k → Inv (f k x))

include hinv

omit [Scalar α] in
/-- What each step brings about is still there after steps without news. -/
theorem forall_of_quiet (hquiet : ∀ k x, Quiet k (f k x)) (hstep : ∀ k x, Inv k → P (f k x) x)
    (hcongr : ∀ k k' x, Inv k → Inv k' → (∀ n, k'.value? n = k.value? n) → P k x → P k' x)
    (l : List NodeId) (hk : Inv k) (h : (l.foldl f k).changed = false) :
    ∀ x ∈ l, P (l.foldl f k) x := by
  induction l generalizing k with
  | nil => exact fun x hx => absurd hx List.not_mem_nil
  | cons y l ih =>
    intro x hx
    have hy := hinv k y hk
    rcases List.mem_cons.1 hx with rfl | hx
    · have hsame := (Quiet.foldl hquiet l (f k x) h).2
      exact hcongr _ _ x hy (foldl_inv hinv l hy) hsame (hstep k x hk)
    · exact ih hy h x hx

end Fold

theorem Kept.clear (h : Kept g k) : Kept g { k with changed := false } :=
  ⟨h.learnt.clear, h.given, h.exact, h.truths⟩

section Sweep

variable {order : List NodeId} (horder : ∀ n, g.contains n → n ∈ order)

include horder

theorem Kept.forward (h : Kept g k) :
    Kept g (order.foldl (Knowledge.forwardStep g) { k with changed := false }) ∧
      Filled g (order.foldl (Knowledge.forwardStep g) { k with changed := false }) :=
  ⟨foldl_inv (fun _ id hk => hk.forwardStep id) order h.clear, filled_forward horder _⟩

omit horder in
theorem kept_and_filled_backwardStep (k : Knowledge α) (id : NodeId) (h : Kept g k ∧ Filled g k) :
    Kept g (backwardStep g k id) ∧ Filled g (backwardStep g k id) :=
  ⟨h.1.backwardStep h.2 id, h.2.learns (learns_backwardStep k id)⟩

theorem Kept.sweep (h : Kept g k) : Kept g (sweep g order k) :=
  (foldl_inv kept_and_filled_backwardStep order.reverse (h.forward horder)).1

end Sweep

variable [Ordered α] [Reading α]

/-- Sets in normal form get smaller. -/
theorem Learns.shrinks (h : Learns g k k') (hs : k.value? n = some s) (hc : s.Canonical) :
    ∃ s', k'.value? n = some s' ∧ s'.Canonical ∧ s'.family = s.family ∧ s'.points ⊆ s.points := by
  induction h with
  | refl => exact ⟨s, hs, hc, rfl, subset_rfl⟩
  | @restrict k' _ because m bound ih =>
    obtain ⟨t, ht, htc, hfamily, hsub⟩ := ih
    obtain ⟨hr, -⟩ | ⟨next, emptied, hr, hvalue, -⟩ := restrict_cases g because k' m bound
    · rw [hr]
      exact ⟨t, ht, htc, hfamily, hsub⟩
    rw [hr]
    by_cases hm : n = m
    · subst hm
      obtain ⟨hnone, -⟩ | ⟨current, hcurrent, hinter⟩ := hvalue
      · cases ht.symm.trans hnone
      cases ht.symm.trans hcurrent
      refine ⟨next, ?_, ValueSet.canonical_inter hinter, ?_, ?_⟩
      · rw [value?, NodeMap.get?_insert_self (NodeMap.ne_null_of_get? ht)]
      · exact (ValueSet.family_of_inter hinter).2.trans hfamily
      · exact (ValueSet.points_inter_subset htc hinter).trans hsub
    · exact ⟨t, (NodeMap.get?_insert_other hm).trans ht, htc, hfamily, hsub⟩
  | exact _ _ ih => exact ih
  | clear _ ih => exact ih

/-- The set of a node is in normal form and within a bound that it can be compared with. -/
def Keeps (k : Knowledge α) (n : NodeId) (b : ValueSet α) : Prop :=
  ∃ s, k.value? n = some s ∧ s.Canonical ∧ (s.family = b.family → s.points ⊆ b.points)

theorem Keeps.learns (h : k.Keeps n b) (hl : Learns g k k') : k'.Keeps n b := by
  obtain ⟨s, hs, hc, hsub⟩ := h
  obtain ⟨s', hs', hc', hfamily, hsub'⟩ := hl.shrinks hs hc
  exact ⟨s', hs', hc', fun h => hsub'.trans (hsub (hfamily.symm.trans h))⟩

/-- A restricted node is within the bound. -/
theorem keeps_restrict (hn : n ≠ .null) (hk : ∀ s, k.value? n = some s → s.Canonical)
    (hb : bound.Canonical) : (restrict g because k n bound).Keeps n bound := by
  obtain ⟨hr, t, ht, hnews⟩ | ⟨next, emptied, hr, hvalue, -⟩ := restrict_cases g because k n bound
  · rw [hr]
    have hc := hk t ht
    refine ⟨t, ht, hc, fun hfamily => ?_⟩
    obtain ⟨u, hu⟩ := ValueSet.exists_inter hfamily
    rw [ValueSet.points_eq_of_beq hc (ValueSet.canonical_inter hu) (hnews u hu),
      ValueSet.points_inter hc hb hu]
    exact Set.inter_subset_right
  · have hnext : (restrict g because k n bound).value? n = some next := by
      rw [hr, value?, NodeMap.get?_insert_self hn]
    obtain ⟨-, rfl⟩ | ⟨t, ht, hinter⟩ := hvalue
    · exact ⟨next, hnext, hb, fun _ => subset_rfl⟩
    · refine ⟨next, hnext, ValueSet.canonical_inter hinter, fun _ => ?_⟩
      rw [ValueSet.points_inter (hk t ht) hb hinter]
      exact Set.inter_subset_right

theorem keeps_narrow (hn : g.isGiven n = false) (hs : k.value? n = some s) (hc : s.Canonical)
    (hb : bound.Canonical) : (narrow g because k n bound).Keeps n bound := by
  rw [narrow_of_not_isGiven hn]
  refine keeps_restrict (NodeMap.ne_null_of_get? hs) (fun t ht => ?_) hb
  cases hs.symm.trans ht
  exact hc

/-- A leaf and a predicate that has had its turn have sets in normal form. -/
theorem Kept.exists_of_valued (h : Kept g k) (hg : g.Grounded) (hf : Filled g k) (hn : g.Valued n) :
    ∃ s, k.value? n = some s ∧ s.Canonical := by
  rcases hn with hn | ⟨e, he, hp⟩
  · obtain ⟨s, hs⟩ := Option.isSome_iff_exists.1 hn
    obtain ⟨s', hs', hc, -⟩ := h.learnt.shrinks hs (hg.seed hs).1
    exact ⟨s', hs', hc⟩
  · obtain ⟨s, hs⟩ := Option.isSome_iff_exists.1 (hf n e he hp)
    refine ⟨s, hs, ?_⟩
    have hfamily := h.truths n e s he hp hs
    cases s <;> trivial

omit [Reading α] in
/-- The set that a bound leaves of a node is in normal form if the bound is. -/
theorem Leaves.canonical (h : k.Leaves n b bound) (hb : b.Canonical) : bound.Canonical := by
  rcases h with rfl | ⟨s, -, hinter | hinter⟩
  · exact hb
  · exact ValueSet.canonical_inter hinter
  · exact ValueSet.canonical_inter hinter

/-- A node that is within what a bound leaves of it is within the bound. -/
theorem Keeps.of_leaves {k₀ : Knowledge α} (h : k.Keeps n bound) (hl : k₀.Leaves n b bound)
    (hs : k₀.value? n = some s) (hc : s.Canonical) (hb : b.Canonical) : k.Keeps n b := by
  obtain ⟨t, ht, htc, hsub⟩ := h
  refine ⟨t, ht, htc, fun hfamily => ?_⟩
  rcases hl with rfl | ⟨s', hs', hinter | hinter⟩
  · exact hsub hfamily
  all_goals
    cases hs.symm.trans hs'
    have hfamilies := ValueSet.family_of_inter hinter
  · refine (hsub (hfamily.trans (hfamilies.1.symm.trans hfamilies.2.symm))).trans ?_
    rw [ValueSet.points_inter hc hb hinter]
    exact Set.inter_subset_right
  · refine (hsub (hfamily.trans hfamilies.2.symm)).trans ?_
    rw [ValueSet.points_inter hb hc hinter]
    exact Set.inter_subset_left

/-- The operands of a direct predicate are within the bounds that it passes on. -/
def Heeds (g : Generation α) (k : Knowledge α) (id : NodeId) : Prop :=
  ∀ e s, g.expression? id = some e → g.isDirect e → k.value? id = some s → s.isEmpty = false →
    ∀ n b, g.Passes e s n b → g.Valued n → g.isGiven n = false → k.Keeps n b

theorem keeps_narrowAll (h : Kept g k) (hg : g.Grounded) (hf : Filled g k)
    {l : List (NodeId × ValueSet α)} (hl : (n, bound) ∈ l) (hvalued : g.Valued n)
    (hn : g.isGiven n = false) (hb : bound.Canonical) : (narrowAll g because k l).Keeps n bound := by
  obtain ⟨l₁, l₂, rfl⟩ := List.append_of_mem hl
  have hfirst : Narrows g because (fun _ => True) k _ := narrows_narrowAll l₁ k
  obtain ⟨s, hs, hc⟩ := (h.narrows hf hfirst).exists_of_valued hg (hf.learns hfirst.learns) hvalued
  rw [narrowAll, List.foldl_append, List.foldl_cons]
  exact (keeps_narrow hn hs hc hb).learns (narrows_narrowAll l₂ _).learns

theorem heeds_backwardStep (hacyclic : g.Acyclic) (hg : g.Grounded) (h : Kept g k) (hf : Filled g k)
    (id : NodeId) : Heeds g (backwardStep g k id) id := by
  intro e s he hd hs hne n b hp hvalued hn
  rw [value?_backwardStep_self hacyclic] at hs
  obtain ⟨l, hl, hcarries⟩ := backwardStep_of_isDirect h he hd hs hne
  obtain ⟨t, ht, htc⟩ := h.exists_of_valued hg hf hvalued
  have hb := hp.canonical hg
  rw [hl]
  rcases hcarries.covers n b hp hn with ⟨bound, hmem, hleaves⟩ | ⟨t', ht', hapart⟩
  · exact (keeps_narrowAll h hg hf hmem hvalued hn (hleaves.canonical hb)).of_leaves hleaves ht htc hb
  · cases ht.symm.trans ht'
    have hkeeps : k.Keeps n b := ⟨t, ht, htc, fun hfamily => absurd hfamily hapart⟩
    exact hkeeps.learns (narrows_narrowAll l k).learns

omit [Ordered α] in
theorem Heeds.congr (h : Heeds g k id) (hvalue : ∀ n, k'.value? n = k.value? n) : Heeds g k' id := by
  intro e s he hd hs hne n b hp hvalued hn
  rw [hvalue] at hs
  obtain ⟨t, ht, hkeeps⟩ := h e s he hd hs hne n b hp hvalued hn
  exact ⟨t, (hvalue n).trans ht, hkeeps⟩

/-- All direct predicates have had their turn and are at rest. -/
def AtRest (g : Generation α) (k : Knowledge α) : Prop := ∀ id, Knows g k id ∧ Heeds g k id

/-- A sweep without news leaves all direct predicates at rest. -/
theorem atRest_sweep {order : List NodeId} (horder : ∀ n, g.contains n → n ∈ order)
    (hacyclic : g.Acyclic) (hg : g.Grounded) (h : Kept g k)
    (hquiet : (sweep g order k).changed = false) : AtRest g (sweep g order k) := by
  intro id
  cases he : g.expression? id with
  | none =>
    have hno (e : Expression) (he' : g.expression? id = some e) : False := by
      cases he.symm.trans he'
    exact ⟨fun e he' => (hno e he').elim, fun e s he' => (hno e he').elim⟩
  | some e =>
    have hid := horder id (Generation.contains_of_node? (Generation.expression?_eq.1 he))
    have hforward := h.forward horder
    have hback := Quiet.foldl (fun k id => (narrows_backwardStep (g := g) k id).quiet) order.reverse
      (order.foldl (forwardStep g) { k with changed := false }) hquiet
    constructor
    · have hknows := forall_of_quiet (fun k id hk => hk.forwardStep id) quiet_forwardStep
        (fun k id hk => knows_forwardStep hacyclic hk id)
        (fun k k' id hk hk' hvalue hknows => hknows.congr hk hk' hvalue) order h.clear hback.1 id hid
      exact hknows.congr hforward.1 (h.sweep horder) hback.2
    · exact forall_of_quiet kept_and_filled_backwardStep
        (fun k id => (narrows_backwardStep k id).quiet)
        (fun k id hk => heeds_backwardStep hacyclic hg hk.1 hk.2 id)
        (fun k k' id _ _ hvalue hheeds => hheeds.congr hvalue) order.reverse hforward hquiet id
        (List.mem_reverse.2 hid)

end Knowledge

end ParameterSolver
