import ParameterSolver.Proofs.Propagation.Budgets
import ParameterSolver.Proofs.Propagation.Settling

/-! How a set that a parameter has to lie in is enforced. It stands with the parameter, or it is asserted
that the parameter lies in it: by the assertion itself, or by another one that says that it holds. One
sweep is enough for any of them, since going backward a node has its turn before its operands. -/

namespace ParameterSolver

open Scalar Scalar.Ordered Scalar.Reading

variable {α : Type} [Scalar α]

namespace ValueSet

variable {s t w : ValueSet α}

theorem isEmpty_stripped (s : ValueSet α) : s.stripped.isEmpty = s.isEmpty := by
  cases s <;> rfl

theorem canonical_stripped [Ordered α] (s : ValueSet α) : s.stripped.Canonical ↔ s.Canonical := by
  cases s <;> rfl

theorem points_stripped [Ordered α] [Scalar.Reading α] (s : ValueSet α) : s.stripped.points = s.points := by
  cases s <;> rfl

omit [Scalar α] in
theorem eq_truth_of_isTrue (h : s.isTrue) : s = .truth true := by
  cases s with
  | boolean b => exact congrArg boolean (eq_of_beq h)
  | _ => cases h

end ValueSet

/-- The set holds the values that `w` holds and can be compared with those of the parameter. -/
structure Parameter.Restates (q : Parameter α) (w t : ValueSet α) : Prop where
  family : t.family = q.values.family
  stripped : t.stripped = w.stripped

namespace Generation

/-- An expression with the mark of an assertion, or one without it that an assertion says is true. -/
inductive Affirms (g : Generation α) (c : NodeId) : Bool → Prop
  | marked : Affirms g c true
  | said {f v : NodeId} {t : ValueSet α} {u : Option (MeasureUnit α)}
    (word : g.node? f = some (.expression ⟨.is, [c, v], true⟩))
    (truth : g.node? v = some (.literal t u)) (holds : t.isTrue) : Affirms g c false

/-- The parameter `q` at `x` has to lie in the set that holds what `w` holds. -/
inductive Enforces (g : Generation α) (x : NodeId) (q : Parameter α) (w : ValueSet α) : Prop
  | within {t : ValueSet α} (bound : q.within = some t) (states : q.Restates w t)
  | asserted {c l : NodeId} {t : ValueSet α} {u : Option (MeasureUnit α)} {mark : Bool}
    (member : g.node? c = some (.expression ⟨.isSubset, [x, l], mark⟩))
    (set : g.node? l = some (.literal t u)) (states : q.Restates w t) (affirmed : g.Affirms c mark)

section Barren

variable {g : Generation α} {n a b : NodeId} {m : Node α} {op : Operator} {mark : Bool}

theorem not_barren (hn : g.node? n = some m) (hm : m.startsEmpty = false)
    (ho : ∀ o ∈ m.operands, ¬ g.Barren o) : ¬ g.Barren n := by
  rintro ⟨leaf, m', hpath, hm', hstart⟩
  rcases Relation.ReflTransGen.cases_head hpath with rfl | ⟨o, huses, hpath⟩
  · cases hn.symm.trans hm'
    rw [hm] at hstart
    cases hstart
  · rw [Generation.Uses, Generation.operands_of_node? hn] at huses
    exact ho o huses ⟨leaf, m', hpath, hm', hstart⟩

theorem not_barren_pair (hn : g.node? n = some (.expression ⟨op, [a, b], mark⟩))
    (ha : ¬ g.Barren a) (hb : ¬ g.Barren b) : ¬ g.Barren n := by
  refine not_barren hn rfl fun o ho => ?_
  rcases List.mem_pair.1 ho with rfl | rfl
  · exact ha
  · exact hb

theorem not_barren_literal {s : ValueSet α} {u : Option (MeasureUnit α)}
    (hn : g.node? n = some (.literal s u)) (hs : s.isEmpty = false) : ¬ g.Barren n :=
  not_barren hn hs (List.forall_mem_nil _)

end Barren

end Generation

namespace Knowledge

variable {g : Generation α} {k k' : Knowledge α} {because : Provenance} {c f l n v x : NodeId}
  {e : Expression} {s t b b' bound : ValueSet α} {u : Option (MeasureUnit α)} {mark : Bool}
  {order : List NodeId}

theorem isEmpty_eq_false_of_learns (hl : Learns g k k') (h : k'.isEmpty n = false) :
    k.isEmpty n = false := by
  rw [Bool.eq_false_iff] at h ⊢
  intro hempty
  obtain ⟨s, hs, hse⟩ := isEmpty_iff.1 hempty
  have hinherits : k.Inherits n true := ⟨s, hs, fun _ => hse⟩
  obtain ⟨s', hs', hse'⟩ := hinherits.learns hl
  exact h (isEmpty_iff.2 ⟨s', hs', hse' rfl⟩)

/-! What a backward step does for an assertion that holds. -/

theorem backwardStep_of_isTrue (he : g.expression? n = some e) (hs : k.value? n = some s)
    (htrue : s.isTrue) :
    backwardStep g k n = narrowOperands g (explanation g k n) k e (.truth true) := by
  obtain rfl := ValueSet.eq_truth_of_isTrue htrue
  unfold backwardStep
  rw [he, hs]
  rfl

/-- What is in a set that is given is narrowed to the set. -/
theorem backwardStep_isSubset (h : Kept g k)
    (hc : g.node? c = some (.expression ⟨.isSubset, [x, l], mark⟩))
    (hl : g.node? l = some (.literal t u)) (hs : k.value? c = some s) (htrue : s.isTrue) :
    backwardStep g k c = narrow g (explanation g k c) k x t := by
  have hlt : k.value? l = some t :=
    (h.given l (by rw [Generation.isGiven, hl]; rfl)).trans (seed_of_initial? hl rfl)
  rw [backwardStep_of_isTrue (Generation.expression?_eq.2 hc) hs htrue]
  simp only [narrowOperands, hlt]
  rfl

/-- What is said to be true is narrowed to the truth. -/
theorem backwardStep_is (h : Kept g k)
    (hf : g.node? f = some (.expression ⟨.is, [c, v], true⟩))
    (hv : g.node? v = some (.literal (.truth true) u)) (hs : k.value? f = some s)
    (htrue : s.isTrue) (hc : k.value? c = some b) (hinter : b.inter (.truth true) = .ok bound) :
    backwardStep g k f = narrow g (explanation g k f) k c bound := by
  have hgiven : g.isGiven v := by rw [Generation.isGiven, hv]; rfl
  have hvt : k.value? v = some (.truth true) :=
    (h.given v hgiven).trans (seed_of_initial? hv rfl)
  rw [backwardStep_of_isTrue (Generation.expression?_eq.2 hf) hs htrue]
  change narrowIs g (explanation g k f) k c v = _
  unfold narrowIs
  simp only [hc, hvt, hinter]
  exact narrow_of_isGiven hgiven

variable [Ordered α] [Scalar.Reading α]

omit [Ordered α] in
theorem Keeps.mono (h : k.Keeps n b) (hfamily : b'.family = b.family) (hsub : b.points ⊆ b'.points) :
    k.Keeps n b' := by
  obtain ⟨s, hs, hc, hkeeps⟩ := h
  exact ⟨s, hs, hc, fun hs' => (hkeeps (hs'.trans hfamily)).trans hsub⟩

omit [Ordered α] in
/-- A predicate that keeps to the truth and has a value is true. -/
theorem Keeps.isTrue (h : k.Keeps n (.truth true)) (hk : Kept g k) (he : g.expression? n = some e)
    (hp : e.op.isPredicate) (hfed : k.isEmpty n = false) : ∃ s, k.value? n = some s ∧ s.isTrue := by
  obtain ⟨s, hs, hc, hsub⟩ := h
  have hfamily : s.family = (ValueSet.truth true : ValueSet α).family := hk.truths n e s he hp hs
  have hne : s.isEmpty = false := by
    rw [Bool.eq_false_iff]
    intro hempty
    rw [isEmpty_iff.2 ⟨s, hs, hempty⟩] at hfed
    cases hfed
  have hpart : s.PartOf (.truth true) := ⟨hc, trivial, hfamily, hsub hfamily, hne⟩
  exact ⟨s, hs, hpart.isTrue rfl⟩

/-- An assertion keeps to the truth from its turn on. -/
theorem keeps_forwardStep (h : Kept g k) (he : g.expression? n = some e) (hp : e.op.isPredicate)
    (ha : e.asserted) : (forwardStep g k n).Keeps n (.truth true) := by
  obtain ⟨t, ht⟩ := Propagation.evaluate?_of_isPredicate hp (e.operands.map k.value?)
    (e.operands.map k.exact.contains)
  have hvalue := forwardValue?_of_evaluate? ht
  rw [if_pos ha] at hvalue
  obtain ⟨u, hu, hstep⟩ := forwardStep_of_isPredicate (k := k) he hp
  cases hvalue.symm.trans hu
  rw [hstep]
  have hkeeps : (restrict g (reasons g k e) k n (.boolean (t.inter (.of true)))).Keeps n
      (.boolean (t.inter (.of true))) :=
    keeps_restrict (Generation.ne_null_of_contains
      (Generation.contains_of_node? (Generation.expression?_eq.1 he)))
      (fun s hs => by obtain ⟨b, rfl⟩ := h.exists_truths he hp hs; trivial) trivial
  refine hkeeps.mono rfl (Set.image_mono fun b hb => ?_)
  exact (Truths.mem_inter.1 hb).2

/-! One sweep. -/

theorem keeps_forward (h : Kept g k) (hn : n ∈ order) (he : g.expression? n = some e)
    (hp : e.op.isPredicate) (ha : e.asserted) :
    (order.foldl (forwardStep g) k).Keeps n (.truth true) := by
  obtain ⟨l₁, l₂, rfl⟩ := List.append_of_mem hn
  have hk : Kept g (l₁.foldl (forwardStep g) k) := foldl_inv (fun _ id hk => hk.forwardStep id) l₁ h
  rw [List.foldl_append, List.foldl_cons]
  exact (keeps_forwardStep hk he hp ha).learns (Learns.foldl learns_forwardStep l₂ _)

omit [Ordered α] [Scalar.Reading α] in
/-- The state in which a node has its turn on the way back, and what is learnt from then on. -/
theorem exists_turn (h : Kept g k) (hf : Filled g k) (hn : n ∈ order) :
    ∃ k₁ l₁ l₂, order = l₁ ++ n :: l₂ ∧ Learns g k k₁ ∧ Kept g k₁ ∧ Filled g k₁ ∧
      order.foldl (backwardStep g) k = l₂.foldl (backwardStep g) (backwardStep g k₁ n) := by
  obtain ⟨l₁, l₂, rfl⟩ := List.append_of_mem hn
  obtain ⟨hk, hfilled⟩ := foldl_inv kept_and_filled_backwardStep l₁ ⟨h, hf⟩
  exact ⟨_, l₁, l₂, rfl, Learns.foldl learns_backwardStep l₁ k, hk, hfilled,
    by rw [List.foldl_append, List.foldl_cons]⟩

section Member

variable {q : Parameter α} (hx : g.node? x = some (.parameter q))
  (hc : g.node? c = some (.expression ⟨.isSubset, [x, l], mark⟩))
  (hl : g.node? l = some (.literal t u)) (ht : t.Canonical)

include hx hc hl ht

theorem keeps_backward_member (h : Kept g k) (hf : Filled g k) (hcorder : c ∈ order)
    (hc' : k.Keeps c (.truth true)) (hfed : (order.foldl (backwardStep g) k).isEmpty c = false) :
    (order.foldl (backwardStep g) k).Keeps x t := by
  obtain ⟨k₁, -, l₂, -, hlearns, hk₁, -, hfold⟩ := exists_turn h hf hcorder
  rw [hfold] at hfed ⊢
  have hrest := Learns.foldl (learns_backwardStep (g := g)) l₂ (backwardStep g k₁ c)
  obtain ⟨s, hs, htrue⟩ := (hc'.learns hlearns).isTrue hk₁ (Generation.expression?_eq.2 hc) rfl
    (isEmpty_eq_false_of_learns ((learns_backwardStep k₁ c).trans hrest) hfed)
  rw [backwardStep_isSubset hk₁ hc hl hs htrue] at hrest ⊢
  -- a parameter has a value from the start
  have hinitial : initial? (.parameter q) = some _ := rfl
  obtain ⟨r, hr, hrc, -⟩ := hk₁.learnt.shrinks (seed_of_initial? hx hinitial)
    (canonical_initial? (by rintro _ _ ⟨⟩) hinitial)
  exact (keeps_narrow (by rw [Generation.isGiven, hx]; rfl) hr hrc ht).learns hrest

theorem keeps_sweep_marked (hg : g.Acyclic) (h : Kept g k) (hmark : mark = true)
    (hfed : (sweep g g.topologicalOrder k).isEmpty c = false) :
    (sweep g g.topologicalOrder k).Keeps x t := by
  subst hmark
  have hcorder := hg.mem_topologicalOrder (Generation.contains_of_node? hc)
  obtain ⟨hk, hf⟩ := h.forward (fun _ hn => hg.mem_topologicalOrder hn)
  exact keeps_backward_member hx hc hl ht hk hf (List.mem_reverse.2 hcorder)
    (keeps_forward h.clear hcorder (Generation.expression?_eq.2 hc) rfl rfl) hfed

theorem keeps_sweep_said {b : ValueSet α} {u' : Option (MeasureUnit α)} (hg : g.Acyclic)
    (h : Kept g k) (hf : g.node? f = some (.expression ⟨.is, [c, v], true⟩))
    (hv : g.node? v = some (.literal b u')) (hb : b.isTrue)
    (hfed : (sweep g g.topologicalOrder k).isEmpty c = false)
    (hffed : (sweep g g.topologicalOrder k).isEmpty f = false) :
    (sweep g g.topologicalOrder k).Keeps x t := by
  obtain rfl := ValueSet.eq_truth_of_isTrue hb
  have hforder := hg.mem_topologicalOrder (Generation.contains_of_node? hf)
  obtain ⟨hk, hfilled⟩ := h.forward (fun _ hn => hg.mem_topologicalOrder hn)
  have hf' := keeps_forward h.clear hforder (Generation.expression?_eq.2 hf) rfl rfl
  unfold sweep at hfed hffed ⊢
  dsimp only at hfed hffed ⊢
  obtain ⟨k₁, l₁, l₂, horder, hlearns, hk₁, hfilled₁, hfold⟩ :=
    exists_turn hk hfilled (List.mem_reverse.2 hforder)
  rw [hfold] at hfed hffed ⊢
  have hrest := Learns.foldl (learns_backwardStep (g := g)) l₂ (backwardStep g k₁ f)
  obtain ⟨s, hs, htrue⟩ := (hf'.learns hlearns).isTrue hk₁ (Generation.expression?_eq.2 hf) rfl
    (isEmpty_eq_false_of_learns ((learns_backwardStep k₁ f).trans hrest) hffed)
  -- the expression has its turn later, and by then it keeps to the truth
  have hcorder : c ∈ l₂ := by
    have hordered := hg.ordered
    rw [horder] at hordered
    refine hordered.mem_of_append c ?_ (Generation.contains_of_node? hc)
    rw [Generation.operands_of_node? hf]
    exact List.mem_cons_self
  refine keeps_backward_member hx hc hl ht (hk₁.backwardStep hfilled₁ f)
    (hfilled₁.learns (learns_backwardStep k₁ f)) hcorder ?_ hfed
  obtain ⟨vc, hvc⟩ := Option.isSome_iff_exists.1 (hfilled₁ c _ (Generation.expression?_eq.2 hc) rfl)
  obtain ⟨w, rfl⟩ := hk₁.exists_truths (Generation.expression?_eq.2 hc) rfl hvc
  rw [backwardStep_is hk₁ hf hv hs htrue hvc rfl]
  have hnarrowed : (narrow g (explanation g k₁ f) k₁ c (.boolean (w.inter (.of true)))).Keeps c
      (.boolean (w.inter (.of true))) :=
    keeps_narrow (Generation.isGiven_eq_false_of_expression? (Generation.expression?_eq.2 hc)) hvc
      trivial trivial
  exact hnarrowed.mono rfl (Set.image_mono fun a ha => (Truths.mem_inter.1 ha).2)

end Member

end Knowledge

namespace Parameter.Restates

variable {q : Parameter α} {w t : ValueSet α}

theorem isEmpty (h : q.Restates w t) : t.isEmpty = w.isEmpty := by
  rw [← ValueSet.isEmpty_stripped t, h.stripped, ValueSet.isEmpty_stripped]

theorem canonical [Ordered α] (h : q.Restates w t) (hw : w.Canonical) : t.Canonical := by
  rwa [← ValueSet.canonical_stripped t, h.stripped, ValueSet.canonical_stripped]

theorem points [Ordered α] [Scalar.Reading α] (h : q.Restates w t) : t.points = w.points := by
  rw [← ValueSet.points_stripped t, h.stripped, ValueSet.points_stripped]

end Parameter.Restates

theorem Propagation.learns_of_sweep {g : Generation α} {budget : ℕ} (h : 0 < budget) :
    (Knowledge.sweep g g.topologicalOrder (Knowledge.seed g)).Learns g (run g budget).knowledge := by
  have hone : (iterate g g.topologicalOrder 1 ⟨Knowledge.seed g, 0⟩).knowledge =
      Knowledge.sweep g g.topologicalOrder (Knowledge.seed g) := by
    unfold iterate
    dsimp only
    split_ifs <;> rfl
  rw [← hone]
  exact learns_iterate_of_le h _

section Enforced

variable [Scalar.Ordered α] [Scalar.Reading α] {g : Generation α} {x : NodeId} {q : Parameter α}
  {w : ValueSet α} {budget : ℕ}

/-- The set keeps to the domain of the parameter and to the bound that stands with it. -/
structure Parameter.Bounds (q : Parameter α) (s : ValueSet α) : Prop where
  canonical : s.Canonical
  family : s.family = q.values.family
  values : s.points ⊆ q.values.points
  within : ∀ t, q.within = some t → t.family = q.values.family → t.Canonical → s.points ⊆ t.points

theorem Knowledge.bounds_initial (q : Parameter α) :
    ∃ s, initial? (.parameter q) = some s ∧ q.Bounds s := by
  have hvalues : q.values.Canonical := q.domain.canonical_values q.unit
  cases hwithin : q.within with
  | none => exact ⟨q.values, by simp [initial?, hwithin], hvalues, rfl, subset_rfl, by simp [hwithin]⟩
  | some t =>
    cases hr : q.values.inter t with
    | error =>
      refine ⟨q.values, by simp [initial?, hwithin, hr, Except.toOption], hvalues, rfl, subset_rfl, ?_⟩
      rintro t' ht' hfamily -
      cases hwithin.symm.trans ht'
      obtain ⟨u, hu⟩ := ValueSet.exists_inter hfamily.symm
      cases hr.symm.trans hu
    | ok s =>
      refine ⟨s, by simp [initial?, hwithin, hr, Except.toOption], ValueSet.canonical_inter hr,
        (ValueSet.family_of_inter hr).2, ValueSet.points_inter_subset hvalues hr, ?_⟩
      rintro t' ht' - hcanonical
      cases hwithin.symm.trans ht'
      rw [ValueSet.points_inter hvalues hcanonical hr]
      exact Set.inter_subset_right

/-- Whatever is learnt of a parameter, it keeps to its domain and to the bound that stands with it. -/
theorem Propagation.bounds_run (hx : g.node? x = some (.parameter q)) (budget : ℕ) :
    ∃ s, (run g budget).knowledge.value? x = some s ∧ q.Bounds s := by
  obtain ⟨s, hs, hbounds⟩ := Knowledge.bounds_initial q
  obtain ⟨s', hs', hc, hfamily, hsub⟩ :=
    (learns_run g budget).shrinks (Knowledge.seed_of_initial? hx hs) hbounds.canonical
  exact ⟨s', hs', hc, hfamily.trans hbounds.family, hsub.trans hbounds.values,
    fun t ht htf htc => hsub.trans (hbounds.within t ht htf htc)⟩

omit [Scalar.Ordered α] [Scalar.Reading α] in
/-- A leaf that has values in the end has some to start with. -/
theorem Propagation.startsEmpty_eq_false {n : Node α} {s : ValueSet α} (hx : g.node? x = some n)
    (hs : (run g budget).knowledge.value? x = some s) (hne : s.isEmpty = false) :
    n.startsEmpty = false := by
  rw [Node.startsEmpty]
  cases hinitial : Knowledge.initial? n with
  | none => rfl
  | some s₀ =>
    have hseed : (Knowledge.seed g).Inherits x s₀.isEmpty :=
      ⟨s₀, Knowledge.seed_of_initial? hx hinitial, id⟩
    obtain ⟨s', hs', hempty⟩ := hseed.learns (learns_run g budget)
    cases hs.symm.trans hs'
    rw [Option.any_some, Bool.eq_false_iff]
    exact fun hs₀ => by simp [hempty hs₀] at hne

/-- A set that a parameter has to lie in holds all its values, unless some node is reported to have
none. -/
theorem Generation.Enforces.subset (h : g.Enforces x q w) (hg : g.Acyclic)
    (hx : g.node? x = some (.parameter q)) (hw : w.Canonical) (hne : w.isEmpty = false)
    (hbudget : 0 < budget) (hreported : (Propagation.run g budget).knowledge.emptied = [])
    {s : ValueSet α} (hs : (Propagation.run g budget).knowledge.value? x = some s) :
    s.points ⊆ w.points := by
  obtain ⟨s', hs', hbounds⟩ := Propagation.bounds_run hx budget
  cases hs.symm.trans hs'
  cases h with
  | @within t ht hstates =>
    exact hstates.points ▸ hbounds.within t ht hstates.family (hstates.canonical hw)
  | @asserted c l t u mark hc hl hstates haffirmed =>
    cases hempty : s.isEmpty with
    | true =>
      rw [(ValueSet.isEmpty_iff_points hbounds.canonical).1 hempty]
      exact Set.empty_subset _
    | false =>
      -- what the assertion is made of has values, so that it has some itself
      have hcfed : ¬ g.Barren c :=
        not_barren_pair hc
          (not_barren hx (Propagation.startsEmpty_eq_false hx hs hempty) (List.forall_mem_nil _))
          (not_barren_literal hl (hstates.isEmpty.trans hne))
      have hsweep := Propagation.learns_of_sweep (g := g) hbudget
      have hfed {n : NodeId} (hn : ¬ g.Barren n) :
          (Knowledge.sweep g g.topologicalOrder (Knowledge.seed g)).isEmpty n = false := by
        refine Knowledge.isEmpty_eq_false_of_learns hsweep (Bool.eq_false_iff.2 fun hempty => hn ?_)
        exact (Knowledge.rooted_seed g).learns hg (Propagation.learns_run g budget) hreported n hempty
      have hkeeps : (Knowledge.sweep g g.topologicalOrder (Knowledge.seed g)).Keeps x t := by
        cases haffirmed with
        | marked =>
          exact Knowledge.keeps_sweep_marked hx hc hl (hstates.canonical hw) hg
            (Knowledge.kept_seed g) rfl (hfed hcfed)
        | @said f v b u' hf hv hb =>
          have hbfed : b.isEmpty = false := by
            rw [ValueSet.eq_truth_of_isTrue hb]
            rfl
          exact Knowledge.keeps_sweep_said hx hc hl (hstates.canonical hw) hg (Knowledge.kept_seed g)
            hf hv hb (hfed hcfed) (hfed (not_barren_pair hf hcfed (not_barren_literal hv hbfed)))
      obtain ⟨s', hs', -, hsub⟩ := hkeeps.learns hsweep
      cases hs.symm.trans hs'
      exact hstates.points ▸ hsub (hbounds.family.trans hstates.family.symm)

end Enforced

end ParameterSolver
