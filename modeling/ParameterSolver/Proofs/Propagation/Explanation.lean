import ParameterSolver.Proofs.Graph.Release
import ParameterSolver.Proofs.Propagation.Settling

/-! Why a node has no values. A run on the generation in which all assertions outside of some origins
are released follows the run on the whole generation: wherever only these origins explain what is
known of a node, the released run knows at least as much. So a contradiction that they explain is
found again. -/

namespace ParameterSolver

open Scalar Scalar.Ordered Scalar.Reading

variable {α : Type} [Scalar α]

/-! What the release of assertions leaves as it is: leaves and what predicates pass on. -/

namespace Generation

variable {g : Generation α} {origins : Provenance} {id n : NodeId} {e : Expression}
  {v b : ValueSet α}

theorem seed_release (g : Generation α) (origins : Provenance) :
    Knowledge.seed (g.release origins) = Knowledge.seed g := by
  have hlearn (k : Knowledge α) (id : NodeId) (e : Entry α) :
      k.learnInitial id (e.release origins).node = k.learnInitial id e.node := by
    obtain h | h := Entry.node_release origins e <;> rw [h]
    cases e.node <;> rfl
  rw [Knowledge.seed, toList_release, List.foldl_map, Knowledge.seed]
  simp only [hlearn]

omit [Scalar α] in
theorem isGiven_release (g : Generation α) (origins : Provenance) (id : NodeId) :
    (g.release origins).isGiven id = g.isGiven id := by
  rw [isGiven, isGiven]
  obtain h | h := node?_release g origins id <;> rw [h]
  rw [Option.any_map]
  refine congrArg (Option.any · (g.node? id)) (funext fun n => ?_)
  cases n <;> rfl

omit [Scalar α] in
theorem members_release (g : Generation α) (origins : Provenance) (id : NodeId) :
    Knowledge.members (g.release origins) id = Knowledge.members g id := by
  unfold Knowledge.members expression?
  obtain h | h := node?_release g origins id <;> rw [h]
  cases g.node? id with
  | none => rfl
  | some n => cases n <;> rfl

omit [Scalar α] in
theorem isDirect_release : (g.release origins).isDirect e = g.isDirect e := by
  simp only [isDirect, isGiven_release]

theorem Passes.release (h : g.Passes e v n b) : (g.release origins).Passes e v n b := by
  cases h with
  | left hop hops hv hb hs =>
    exact .left hop hops hv (by rwa [isGiven_release]) (by rwa [seed_release])
  | right hop hops hv ha hs =>
    exact .right hop hops hv (by rwa [isGiven_release]) (by rwa [seed_release])
  | member hop hops hv hs => exact .member hop hops hv (by rwa [seed_release])
  | floor hop hops hv hb hm hl =>
    exact .floor hop hops hv (by rwa [isGiven_release]) (by rwa [members_release])
      (by rwa [seed_release])
  | ceiling hop hops hv ha hm hl =>
    exact .ceiling hop hops hv (by rwa [isGiven_release]) (by rwa [members_release])
      (by rwa [seed_release])
  | opposite hop hops hv => exact .opposite hop hops hv

theorem Grounded.release (h : g.Grounded) (origins : Provenance) : (g.release origins).Grounded where
  canonical id s source hn := by
    obtain hnode | hnode := node?_release g origins id <;> rw [hnode] at hn
    · exact h.canonical id s source hn
    · obtain ⟨m, hm, heq⟩ := Option.map_eq_some_iff.1 hn
      cases m <;> cases heq
      exact h.canonical id s source hm
  fed id n hn := by
    obtain hnode | hnode := node?_release g origins id <;> rw [hnode] at hn
    · exact h.fed id n hn
    · obtain ⟨m, hm, rfl⟩ := Option.map_eq_some_iff.1 hn
      rw [← h.fed id m hm]
      cases m <;> rfl

theorem Valued.release (h : g.Valued n) (hw : g.Within origins n) (hv : g.validate = .ok ()) :
    (g.release origins).Valued n := by
  rcases h with h | ⟨e, he, hp⟩
  · exact Or.inl (by rwa [seed_release])
  · exact Or.inr ⟨e, expression?_release hv hw he, hp⟩

/-- A negation passes on fewer truth values if it has fewer; other bounds stay the same. -/
theorem Passes.mono [Scalar.Ordered α] [Scalar.Reading α] {v' : ValueSet α}
    (h : g.Passes e v n b) (hv : v'.PartOf v) :
    ∃ b', g.Passes e v' n b' ∧ b'.family = b.family ∧ b'.points ⊆ b.points := by
  cases h with
  | left hop hops ht hb hs => exact ⟨b, .left hop hops (hv.isTrue ht) hb hs, rfl, subset_rfl⟩
  | right hop hops ht ha hs => exact ⟨b, .right hop hops (hv.isTrue ht) ha hs, rfl, subset_rfl⟩
  | member hop hops ht hs => exact ⟨b, .member hop hops (hv.isTrue ht) hs, rfl, subset_rfl⟩
  | floor hop hops ht hb hm hl =>
    exact ⟨_, .floor hop hops (hv.isTrue ht) hb hm hl, rfl, subset_rfl⟩
  | ceiling hop hops ht ha hm hl =>
    exact ⟨_, .ceiling hop hops (hv.isTrue ht) ha hm hl, rfl, subset_rfl⟩
  | opposite hop hops ht =>
    subst ht
    obtain ⟨t', rfl, hsub⟩ := hv.exists_boolean
    refine ⟨_, .opposite hop hops rfl, rfl, Set.image_mono fun x hx => ?_⟩
    exact Truths.isSubset_iff.1 (Truths.not_isSubset hsub) x hx

/-- All expressions that have no other origins are direct predicates. -/
def Direct (g : Generation α) (origins : Provenance) : Prop :=
  ∀ id e, g.expression? id = some e → g.Within origins id → g.isDirect e

instance (g : Generation α) (origins : Provenance) : Decidable (g.Direct origins) :=
  decidable_of_iff (∀ x ∈ g.nodes, ∀ e ∈ g.expression? x.1, g.Within origins x.1 → g.isDirect e)
    ⟨fun h _ e he => h _ (mem_nodes.2 (expression?_eq.1 he)) e he, fun h x _ e he => h x.1 e he⟩

theorem Direct.valued (h : g.Direct origins) (hn : g.contains n) (hgiven : g.isGiven n = false)
    (hw : g.Within origins n) : g.Valued n := by
  obtain ⟨m, hm⟩ := contains_iff.1 hn
  cases m with
  | parameter p => exact Or.inl (by rw [Knowledge.seed_of_initial? hm rfl]; rfl)
  | literal s provenance => simp [isGiven, hm, Node.isGiven] at hgiven
  | constant c => simp [isGiven, hm, Node.isGiven] at hgiven
  | expression e =>
    have he := expression?_eq.2 hm
    exact Or.inr ⟨e, he, isPredicate_of_isDirect (h n e he hw)⟩

theorem Passes.contains (h : g.Passes e v n b) (he : g.expression? id = some e)
    (hv : g.validate = .ok ()) : g.contains n := by
  obtain ⟨m, -, hm⟩ := Relation.TransGen.tail'_iff.1 (h.uses he)
  exact closed_of_validate hv hm

end Generation

namespace Knowledge

variable {g : Generation α} {k k' k'' : Knowledge α} {origins because : Provenance}
  {id m n : NodeId} {e : Expression} {s bound v : ValueSet α}

/-- No node is known to have no values. -/
def Fed (k : Knowledge α) : Prop := ∀ n s, k.value? n = some s → s.isEmpty = false

theorem Fed.of_learns (h : Fed k') (hl : Learns g k k') : Fed k := by
  intro n s hs
  rw [Bool.eq_false_iff]
  intro hempty
  have hk : k.Inherits n true := ⟨s, hs, fun _ => hempty⟩
  obtain ⟨s', hs', hempty'⟩ := hk.learns hl
  simpa [h n s' hs'] using hempty' rfl

/-- Only `origins` explain what is known of the node. -/
def Covered (g : Generation α) (origins : Provenance) (k : Knowledge α) (n : NodeId) : Prop :=
  ∀ o ∈ k.explanation g n, o ∈ origins

omit [Scalar α] in
theorem Covered.within (h : Covered g origins k n) : g.Within origins n :=
  fun o ho => h o (SortedSet.mem_union.2 (Or.inl ho))

omit [Scalar α] in
theorem Covered.congr (h : Covered g origins k n) (hk : k'.evidenceOf n = k.evidenceOf n) :
    Covered g origins k' n := by
  rw [Covered, explanation, hk]
  exact h

omit [Scalar α] in
theorem covered_of_insert {next : ValueSet α} {emptied : List NodeId}
    (h : Covered g origins ⟨k.values.insert n next, k.exact,
      k.evidence.insert n ((k.evidenceOf n).union because), emptied, true⟩ m) :
    Covered g origins k m ∧ (m = n → n ≠ .null → ∀ o ∈ because, o ∈ origins) := by
  by_cases hm : m = n ∧ n ≠ .null
  · obtain ⟨rfl, hnull⟩ := hm
    have hevidence (o : Origin) (ho : o ∈ k.evidenceOf m ∨ o ∈ because) : o ∈ origins := by
      refine h o (SortedSet.mem_union.2 (Or.inr ?_))
      rw [evidenceOf, NodeMap.get?_insert_self hnull]
      exact SortedSet.mem_union.2 ho
    refine ⟨fun o ho => ?_, fun _ _ o ho => hevidence o (Or.inr ho)⟩
    rcases SortedSet.mem_union.1 ho with ho | ho
    · exact h.within o ho
    · exact hevidence o (Or.inl ho)
  · refine ⟨h.congr ?_, fun heq hnull => absurd ⟨heq, hnull⟩ hm⟩
    rw [evidenceOf, evidenceOf]
    by_cases hn : m = n
    · obtain rfl : n = .null := by_contra fun hnull => hm ⟨hn, hnull⟩
      rfl
    · rw [NodeMap.get?_insert_other hn]

theorem Covered.of_restrict (h : Covered g origins (restrict g because k n bound) m) :
    Covered g origins k m := by
  obtain ⟨hr, -⟩ | ⟨next, emptied, hr, -⟩ := restrict_cases g because k n bound <;> rw [hr] at h
  · exact h
  · exact (covered_of_insert h).1

theorem Covered.of_narrow (h : Covered g origins (narrow g because k n bound) m) :
    Covered g origins k m := by
  unfold narrow at h
  split_ifs at h
  · exact h
  · exact h.of_restrict

variable [Ordered α] [Reading α]

/-- Wherever only `origins` explain what is known in `k`, at least as much is known in `k'`. -/
def Follows (g : Generation α) (origins : Provenance) (k k' : Knowledge α) : Prop :=
  ∀ n s, Covered g origins k n → k.value? n = some s → ∃ s', k'.value? n = some s' ∧ s'.PartOf s

/-- The bound is known to `k'` as well, and if nothing else is known in `k`, then it is of its kind. -/
structure Confirms (k k' : Knowledge α) (n : NodeId) (bound : ValueSet α) : Prop where
  canonical : bound.Canonical
  keeps : k'.Keeps n bound
  family : k.value? n = none → ∃ s, k'.value? n = some s ∧ s.family = bound.family

theorem Follows.restrict (h : Follows g origins k k') (hfed : Fed k')
    (hbound : (∀ o ∈ because, o ∈ origins) → Covered g origins k n → k.Confirms k' n bound) :
    Follows g origins (restrict g because k n bound) k' := by
  obtain ⟨hr, -⟩ | ⟨next, emptied, hr, hvalue, -⟩ := restrict_cases g because k n bound <;> rw [hr]
  · exact h
  intro m s hcovered hs
  obtain ⟨hbefore, hbecause⟩ := covered_of_insert hcovered
  rcases NodeMap.get?_insert_cases hs with ⟨rfl, rfl⟩ | hs'
  · obtain ⟨hcanonical, ⟨t, ht, htc, hsub⟩, hfamily⟩ :=
      hbound (hbecause rfl (NodeMap.ne_null_of_get? hs)) hbefore
    refine ⟨t, ht, ?_⟩
    rcases hvalue with ⟨hnone, rfl⟩ | ⟨current, hcurrent, hinter⟩
    · obtain ⟨t', ht', hfamily⟩ := hfamily hnone
      cases ht.symm.trans ht'
      exact ⟨htc, hcanonical, hfamily, hsub hfamily, hfed m t ht⟩
    · obtain ⟨t', ht', hpart⟩ := h m current hbefore hcurrent
      cases ht.symm.trans ht'
      have hfamilies := ValueSet.family_of_inter hinter
      refine ⟨htc, ValueSet.canonical_inter hinter, hpart.family.trans hfamilies.2.symm, ?_,
        hpart.nonempty⟩
      rw [ValueSet.points_inter hpart.whole hcanonical hinter]
      exact Set.subset_inter hpart.subset (hsub (hpart.family.trans hfamilies.1))
  · exact h m s hbefore hs'

/-- More is known in the run on the released generation. -/
theorem Follows.tighten (h : Follows g origins k k') (hl : Learns (g.release origins) k' k'')
    (hfed : Fed k'') : Follows g origins k k'' := by
  intro n s hcovered hs
  obtain ⟨t, ht, hpart⟩ := h n s hcovered hs
  obtain ⟨u, hu, hcanonical, hfamily, hsub⟩ := hl.shrinks ht hpart.canonical
  exact ⟨u, hu, hcanonical, hpart.whole, hfamily.trans hpart.family, hsub.trans hpart.subset,
    hfed n u hu⟩

/-- What is learnt for a reason outside of the origins is covered nowhere. -/
theorem Follows.narrows {k₁ : Knowledge α} {targets : NodeId → Prop} (h : Follows g origins k k')
    (hfed : Fed k') (hb : ¬ ∀ o ∈ because, o ∈ origins) (hn : Narrows g because targets k k₁) :
    Follows g origins k₁ k' := by
  induction hn with
  | refl => exact h
  | narrow _ _ bound ih =>
    unfold narrow
    split_ifs
    · exact ih
    · exact ih.restrict hfed fun hbecause => absurd hbecause hb

omit [Ordered α] in
theorem Confirms.learns {k₁ : Knowledge α} (h : k.Confirms k' n bound) (hl : Learns g k k₁) :
    k₁.Confirms k' n bound := by
  refine ⟨h.canonical, h.keeps, fun hnone => h.family ?_⟩
  by_contra hsome
  simpa [hnone] using isSome_of_learns hl (Option.isSome_iff_ne_none.2 hsome)

theorem Follows.narrowAll (h : Follows g origins k k') (hfed : Fed k')
    {l : List (NodeId × ValueSet α)} (hl : ∀ x ∈ l, g.isGiven x.1 = false →
      Covered g origins k x.1 → k.Confirms k' x.1 x.2) :
    Follows g origins (narrowAll g because k l) k' := by
  induction l generalizing k with
  | nil => exact h
  | cons x l ih =>
    obtain ⟨hx, hl⟩ := List.forall_mem_cons.1 hl
    have hstep : Follows g origins (narrow g because k x.1 x.2) k' := by
      cases hgiven : g.isGiven x.1 with
      | true => rwa [narrow_of_isGiven hgiven]
      | false =>
        rw [narrow_of_not_isGiven hgiven]
        exact h.restrict hfed fun _ => hx hgiven
    refine ih hstep fun y hy hgiven hcovered => ?_
    exact (hl y hy hgiven hcovered.of_narrow).learns (learns_narrow k x.1 x.2)

/-! One step of the run on the whole generation, after the same step of the run on the released one. -/

section Step

variable (hv : g.validate = .ok ()) (hdirect : g.Direct origins) (hk : Kept g k)
  (h : Follows g origins k k') (hfed : Fed k')

include hk h hfed

theorem Follows.forwardValue? (hk' : Kept (g.release origins) k') (hd : g.isDirect e)
    (hoperands : ∀ o ∈ e.operands, Covered g origins k o) {t t' : Truths}
    (ht : k.forwardValue? e = some (.boolean t)) (ht' : k'.forwardValue? e = some (.boolean t')) :
    t'.isSubset t := by
  have hp := Generation.isPredicate_of_isDirect hd
  obtain ⟨u, hu⟩ := Propagation.evaluate?_of_isPredicate hp (e.operands.map k.value?)
    (e.operands.map k.exact.contains)
  obtain ⟨u', hu'⟩ := Propagation.evaluate?_of_isPredicate hp (e.operands.map k'.value?)
    (e.operands.map k'.exact.contains)
  have hsub : u'.isSubset u := by
    refine Propagation.evaluate?_isSubset hp (fun o ho s hs => h o s (hoperands o ho) hs)
      (fun o _ => hfed o) (fun i o hi ho => ?_) hu hu'
    -- the set of a test for membership is given, so that both runs know the same of it
    have hgiven := Generation.isGiven_of_setIndex? hd hi ho
    have hgiven' : (g.release origins).isGiven o := by rwa [Generation.isGiven_release]
    rw [hk'.given o hgiven', hk'.exact o hgiven', Generation.seed_release, hk.given o hgiven,
      hk.exact o hgiven]
    exact ⟨rfl, rfl⟩
  cases ht.symm.trans (forwardValue?_of_evaluate? hu)
  cases ht'.symm.trans (forwardValue?_of_evaluate? hu')
  cases e.asserted with
  | false => exact hsub
  | true => exact Truths.inter_isSubset hsub

include hv hdirect

theorem Follows.forwardStep (hk' : Kept (g.release origins) k')
    (hknows : Knows (g.release origins) k' id) : Follows g origins (forwardStep g k id) k' := by
  by_cases hw : g.Within origins id
  · cases he : g.expression? id with
    | none => simpa only [Knowledge.forwardStep, he] using h
    | some e =>
      have hd := hdirect id e he hw
      obtain ⟨t, ht, hstep⟩ :=
        forwardStep_of_isPredicate (k := k) he (Generation.isPredicate_of_isDirect hd)
      rw [hstep]
      refine h.restrict hfed fun hbecause _ => ?_
      have hoperands (o : NodeId) (ho : o ∈ e.operands) : Covered g origins k o :=
        fun x hx => hbecause x (mem_reasons.2 ⟨o, ho, hx⟩)
      obtain ⟨u, hu⟩ := forwardValue?_of_isPredicate k' (Generation.isPredicate_of_isDirect hd)
      obtain ⟨t', ht', hsub⟩ :=
        hknows e (Generation.expression?_release hv hw he) (by rwa [Generation.isDirect_release])
      have hle := Truths.isSubset_trans (hsub u hu) (h.forwardValue? hk hfed hk' hd hoperands ht hu)
      exact ⟨trivial, ⟨_, ht', trivial, fun _ => Set.image_mono (Truths.isSubset_iff.1 hle)⟩,
        fun _ => ⟨_, ht', rfl⟩⟩
  · -- another origin of the expression stays in its explanation
    obtain hsame | ⟨e, -, exact, -, hsame | ⟨because, v, hstep⟩⟩ := forwardStep_cases (g := g) k id
    · rwa [hsame]
    · rw [hsame]
      exact h
    · rw [hstep]
      have hexact : Follows g origins { k with exact := exact } k' := h
      exact hexact.restrict hfed fun _ hcovered => absurd hcovered.within hw

omit hfed in
theorem Follows.confirms (hg : g.Grounded) (hf : Filled g k)
    (hheeds : Heeds (g.release origins) k' id) {b : ValueSet α} (he : g.expression? id = some e)
    (hvalue : k.value? id = some v) (hcovered : Covered g origins k id) (hp : g.Passes e v n b)
    (hn : g.isGiven n = false) (hcovered' : Covered g origins k n) (hl : k.Leaves n b bound) :
    k.Confirms k' n bound := by
  have hvalued := hdirect.valued (hp.contains he hv) hn hcovered'.within
  obtain ⟨s, hs, -⟩ := hk.exists_of_valued hg hf hvalued
  obtain ⟨s', hs', hpart⟩ := h n s hcovered' hs
  have hcanonical := hp.canonical hg
  have hkeeps : k'.Keeps n b := by
    obtain ⟨v', hv', hpartv⟩ := h id v hcovered hvalue
    obtain ⟨b', hp', hfamily, hsub⟩ := hp.mono hpartv
    have he' := Generation.expression?_release hv hcovered.within he
    have hd := hdirect id e he hcovered.within
    obtain ⟨t, ht, htc, htsub⟩ := hheeds e v' he' (by rwa [Generation.isDirect_release]) hv'
      hpartv.nonempty n b' hp'.release (hvalued.release hcovered'.within hv)
      (by rwa [Generation.isGiven_release])
    exact ⟨t, ht, htc, fun h => (htsub (h.trans hfamily.symm)).trans hsub⟩
  refine ⟨hl.canonical hcanonical, ?_, fun hnone => by simp [hs] at hnone⟩
  obtain ⟨t, ht, htc, hsub⟩ := hkeeps
  cases hs'.symm.trans ht
  refine ⟨s', hs', htc, fun hfamily => ?_⟩
  rcases hl with rfl | ⟨s₁, hs₁, hinter | hinter⟩
  · exact hsub hfamily
  all_goals
    cases hs.symm.trans hs₁
    have hfamilies := ValueSet.family_of_inter hinter
  · rw [ValueSet.points_inter hpart.whole hcanonical hinter]
    exact Set.subset_inter hpart.subset (hsub (hpart.family.trans hfamilies.1))
  · rw [ValueSet.points_inter hcanonical hpart.whole hinter]
    exact Set.subset_inter (hsub (hpart.family.trans hfamilies.1.symm)) hpart.subset

theorem Follows.backwardStep (hg : g.Grounded) (hf : Filled g k)
    (hheeds : Heeds (g.release origins) k' id) : Follows g origins (backwardStep g k id) k' := by
  by_cases hcovered : Covered g origins k id
  · cases he : g.expression? id with
    | none => simpa only [Knowledge.backwardStep, he] using h
    | some e =>
      cases hvalue : k.value? id with
      | none => simpa only [Knowledge.backwardStep, he, hvalue] using h
      | some v =>
        obtain ⟨v', -, hpart⟩ := h id v hcovered hvalue
        obtain ⟨l, hl, hcarries⟩ := backwardStep_of_isDirect hk he
          (hdirect id e he hcovered.within) hvalue hpart.whole_nonempty
        rw [hl]
        refine h.narrowAll hfed fun x hx hgiven hcovered' => ?_
        obtain ⟨b, hp, hleaves⟩ := hcarries.passes x hx
        exact h.confirms hv hdirect hk hg hf hheeds he hvalue hcovered hp hgiven hcovered' hleaves
  · exact h.narrows hfed hcovered (narrows_backwardStep k id)

end Step

end Knowledge

end ParameterSolver
