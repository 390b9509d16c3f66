import ParameterSolver.Proofs.Pass.Reproduction
import ParameterSolver.Proofs.Propagation.Enforcement

/-! What a parameter has to lie in is still enforced after a pass. The first pass asserts the set that
stood with the parameter, the second one lets another assertion say that this one holds, the third one
takes the units away on both sides, and the last two leave such assertions alone. -/

namespace ParameterSolver

open Draft Pass

variable {α : Type} [Scalar α] {g : Generation α} {d : Draft α} {deduplicate : Bool}
  {journal journal' : Journal} {rev : Revision α} {x j c c' : NodeId} {q r : Parameter α}
  {w s t t' : ValueSet α} {mark : Bool}

/-! Taking units away. -/

namespace ValueSet

theorem eq_of_stripped_boolean {b : Truths} (h : s.stripped = .boolean b) : s = .boolean b := by
  cases s with
  | boolean a => exact h
  | _ => cases h

theorem isTrue_of_stripped (h : t.stripped = s.stripped) (hs : s.isTrue) : t.isTrue := by
  obtain rfl := eq_truth_of_isTrue hs
  rw [eq_of_stripped_boolean h]
  rfl

theorem family_stripped_congr (h : s.family = t.family) : s.stripped.family = t.stripped.family := by
  cases s <;> cases t <;> first | rfl | exact h | cases h

theorem family_stripped_of_isOne (h : ∀ u, s.unit? = some u → u.isOne) :
    s.stripped.family = s.family := by
  cases s with
  | numeric q => exact congrArg Family.numbers (eq_of_beq (Bool.and_eq_true_iff.1 (h q.unit rfl)).1).symm
  | _ => rfl

end ValueSet

theorem Parameter.family_values_of_exponents (hdomain : r.domain = q.domain)
    (hunit : r.unit.exponents = .zero) : r.values.family = q.values.stripped.family := by
  have hzero := congrArg Family.numbers hunit
  unfold Parameter.values
  rw [hdomain]
  rcases q.domain with ⟨_ | _, _ | _, _⟩ | _ | _ | _ <;> first | exact hzero | rfl

namespace Pass

theorem exponents_of_isOne {u : MeasureUnit α} (h : u.isOne) : u.exponents = .zero :=
  eq_of_beq (Bool.and_eq_true_iff.1 h).1

theorem family_values_stripParameter (q : Parameter α) :
    (stripParameter q).values.family = q.values.stripped.family := by
  refine Parameter.family_values_of_exponents rfl ?_
  unfold stripParameter
  dsimp only
  split_ifs with hone
  · exact exponents_of_isOne hone
  · rfl

/-- A parameter that the pass over the leaves has nothing to do for has plain numbers. -/
theorem family_values_of_retouched?_eq_none (h : retouched? (.parameter q) = none) :
    q.values.family = q.values.stripped.family := by
  refine Parameter.family_values_of_exponents rfl ?_
  cases hone : q.unit.isOne with
  | true => exact exponents_of_isOne hone
  | false =>
    have hunit := one_beq_unit_of_retouched? h hone
    exact (eq_of_beq (Bool.and_eq_true_iff.1 hunit).1).symm

theorem family_of_carriedUnit?_eq_none (h : carriedUnit? t = none) : t.stripped.family = t.family := by
  refine ValueSet.family_stripped_of_isOne fun u hu => ?_
  simpa [carriedUnit?, hu] using h

end Pass

theorem Parameter.Restates.strip (h : q.Restates w t) (ht : t'.stripped = t.stripped)
    (hfamily : t'.family = t.stripped.family) (hr : r.values.family = q.values.stripped.family) :
    r.Restates w t' :=
  ⟨hfamily.trans ((ValueSet.family_stripped_congr h.family).trans hr.symm), ht.trans h.stripped⟩

/-! Assertions that come through a pass. -/

namespace Draft

variable {f l v l' v' : NodeId} {u' : Option (MeasureUnit α)}

omit [Scalar α] in
theorem Reproduces.affirms (hf : d.Reproduces f (.expression ⟨.is, [c, v], true⟩))
    (hc : d.mapping.get? c = some c') (hv : d.mapping.get? v = some v')
    (hv' : d.output.node? v' = some (.literal t' u')) (ht : t'.isTrue) :
    d.output.Affirms c' false := by
  obtain ⟨f', i, k, -, hi, hk, hf'⟩ := hf.pair
  cases hc.symm.trans hi
  cases hv.symm.trans hk
  exact .said hf' hv' ht

theorem Reproduces.enforces (hc : d.Reproduces c (.expression ⟨.isSubset, [x, l], mark⟩))
    (hx : d.mapping.get? x = some j) (hl : d.mapping.get? l = some l')
    (hl' : d.output.node? l' = some (.literal t' u')) (hstates : r.Restates w t')
    (haffirmed : ∀ c', d.mapping.get? c = some c' → d.output.Affirms c' mark) :
    d.output.Enforces j r w := by
  obtain ⟨c', i, k, hc, hi, hk, hc'⟩ := hc.pair
  cases hx.symm.trans hi
  cases hl.symm.trans hk
  exact .asserted hc' hl' hstates (haffirmed c' hc)

end Draft

/-- A pass that reproduces such assertions, as far as they are made of nodes in `P`, and keeps the
values of literals goes on enforcing what they enforce. -/
theorem Generation.Enforces.transfer {P : NodeId → Prop} (h : g.Enforces x q w)
    (hj : d.mapping.get? x = some j) (hx : P x)
    (hwithin : ∀ t, q.within = some t → q.Restates w t → d.output.Enforces j r w)
    (hliteral : ∀ l t u, g.node? l = some (.literal t u) → P l ∧ ∃ l' t' u',
      d.mapping.get? l = some l' ∧ d.output.node? l' = some (.literal t' u') ∧
        t'.stripped = t.stripped ∧ (q.Restates w t → r.Restates w t'))
    (hexpression : ∀ n op a b mark, g.node? n = some (.expression ⟨op, [a, b], mark⟩) →
      op = .is ∨ op = .isSubset → P a → P b →
        P n ∧ d.Reproduces n (.expression ⟨op, [a, b], mark⟩)) : d.output.Enforces j r w := by
  cases h with
  | within ht hstates => exact hwithin _ ht hstates
  | asserted hc hl hstates haffirmed =>
    obtain ⟨hPl, l', t', u', hl', hnode, -, hstates'⟩ := hliteral _ _ _ hl
    obtain ⟨hPc, hreproduces⟩ := hexpression _ _ _ _ _ hc (Or.inr rfl) hx hPl
    refine hreproduces.enforces hj hl' hnode (hstates' hstates) fun c' hc' => ?_
    cases haffirmed with
    | marked => exact .marked
    | said hf hv ht =>
      obtain ⟨hPv, v', t', u', hv', hnode, hsame, -⟩ := hliteral _ _ _ hv
      obtain ⟨-, hreproduces⟩ := hexpression _ _ _ _ _ hf (Or.inl rfl) hPc hPv
      exact hreproduces.affirms hc' hv' hnode (ValueSet.isTrue_of_stripped hsame ht)

/-- Every parameter becomes one with its domain, and what it has to lie in is enforced there. -/
def Revision.Maintains (rev : Revision α) (g : Generation α) : Prop :=
  ∀ x q, g.node? x = some (.parameter q) → ∃ j r, rev.mapping.get? x = some j ∧
    rev.generation.node? j = some (.parameter r) ∧ r.domain = q.domain ∧
      ∀ w, g.Enforces x q w → rev.generation.Enforces j r w

namespace Pass

theorem maintains_domains (hg : g.Acyclic)
    (h : (domains : Pass α).apply deduplicate journal g = .ok (rev, journal')) : rev.Maintains g := by
  obtain ⟨d, hd, rfl⟩ := outcome_domains hg h
  intro x q hq
  have hsame {n : NodeId} {m : Node α} (hn : g.node? n = some m) (hm : ∀ p, m ≠ .parameter p) :
      d.Reproduces n m := by
    refine hd.reproduces images_domains hn ?_
    rintro ⟨p, hp, -⟩
    cases hn.symm.trans hp
    exact hm p rfl
  obtain ⟨j, r, hj, hr, hdomain, hunit, hwithin⟩ : ∃ j r, d.mapping.get? x = some j ∧
      d.output.node? j = some (.parameter r) ∧ r.domain = q.domain ∧ r.unit = q.unit ∧
        ∀ w t, q.within = some t → q.Restates w t → d.output.Enforces j r w := by
    by_cases hdue : Unapplied g x
    · obtain ⟨⟨j, m, hj, hm, p, hp, happlied⟩, hconfined, -⟩ := hd.stands x hdue
      cases hq.symm.trans hp
      obtain rfl : m = .parameter (applied q) := Node.eq_of_skeleton_eq_leaf happlied rfl
      refine ⟨j, _, hj, hm, rfl, rfl, fun w t ht hstates => ?_⟩
      obtain ⟨c, i, k, hi, hk, hc⟩ := hconfined q t hq (by simp [constraints, ht])
      cases hj.symm.trans hi
      exact .asserted hc.2 hk.2 ⟨hstates.family, hstates.stripped⟩ .marked
    · obtain ⟨j, hj, hm⟩ := (hd.reproduces images_domains hq hdue).leaf rfl
      exact ⟨j, q, hj, hm, rfl, rfl, fun w t ht hstates => .within ht hstates⟩
  have hvalues : r.values = q.values := by rw [Parameter.values, hdomain, hunit, Parameter.values]
  refine ⟨j, r, hj, hr, hdomain, fun w h => h.transfer (P := fun _ => True) hj trivial (hwithin w)
    (fun l t u hl => ⟨trivial, ?_⟩)
    fun n op a b mark hn _ _ _ => ⟨trivial, hsame hn (by rintro p ⟨⟩)⟩⟩
  obtain ⟨l', hl', hnode⟩ := (hsame hl (by rintro p ⟨⟩)).leaf rfl
  exact ⟨l', t, u, hl', hnode, rfl, fun hstates => ⟨hvalues ▸ hstates.family, hstates.stripped⟩⟩

theorem maintains_assertions (hg : g.Acyclic)
    (h : (assertions : Pass α).apply deduplicate journal g = .ok (rev, journal')) :
    rev.Maintains g := by
  obtain ⟨d, hd, rfl⟩ := outcome_assertions hg h
  intro x q hq
  have hleaf {n : NodeId} {m : Node α} (hn : g.node? n = some m) (hm : m.expression? = none) :
      ∃ j, d.mapping.get? n = some j ∧ d.output.node? j = some m := by
    refine (hd.reproduces images_assertions hn ?_).leaf hm
    rintro ⟨e, he, -⟩
    cases hn.symm.trans he
    cases hm
  obtain ⟨j, hj, hr⟩ := hleaf hq rfl
  refine ⟨j, q, hj, hr, rfl, fun w h => ?_⟩
  cases h with
  | within ht hstates => exact .within ht hstates
  | @asserted c l t u mark hc hl hstates haffirmed =>
    obtain ⟨l', hl', hlnode⟩ := hleaf hl rfl
    cases haffirmed with
    | marked =>
      -- another assertion says now that it holds
      have hdue : Unwrapped g c := ⟨_, hc, rfl, rfl, rfl⟩
      obtain ⟨⟨c', m, hc', hm, e, he, hskeleton⟩, ⟨f, i, k, -, hi, hk, hf, -⟩, -⟩ := hd.stands c hdue
      cases hc.symm.trans he
      cases hc'.symm.trans hi
      have himages := hd.images images_assertions hc'
      rw [Generation.operands_of_node? hc, Generation.operands_of_node? hm] at himages
      obtain ⟨i, k', hops, hi, hk'⟩ := exists_pair himages
      cases hj.symm.trans hi
      cases hl'.symm.trans hk'
      have hinner : m = (Node.expression ⟨.isSubset, [], false⟩).withOperands m.operands :=
        Node.eq_withOperands_of_skeleton hskeleton
      rw [hinner, hops] at hm
      exact .asserted hm hlnode hstates (.said hf.2 hk.2 rfl)
    | @said f v b u' hf hv hb =>
      obtain ⟨v', hv', hvnode⟩ := hleaf hv rfl
      have hcsame : d.Reproduces c _ := hd.reproduces images_assertions hc (by
        rintro ⟨e, he, hasserted, -⟩
        cases hc.symm.trans he
        cases hasserted)
      have hfsame : d.Reproduces f _ := hd.reproduces images_assertions hf (by
        rintro ⟨e, he, -, -, htrue⟩
        cases hf.symm.trans he
        simp [saysTrue, Generation.literal?, Node.literal?, hv, hb] at htrue)
      exact hcsame.enforces hj hl' hlnode hstates fun c' hc' => hfsame.affirms hc' hv' hvnode hb

/-- What the pass over the leaves makes of a leaf, whether there is something to do for it or not. -/
theorem exists_retouched
    (h : Outcome g (Unplain g) (fun _ => IsRetouched g) (fun _ _ _ => False) (IsRetouched g)
      (fun _ _ => True) deduplicate journal d)
    {n : NodeId} {m : Node α} (hn : g.node? n = some m) (hm : m.expression? = none) :
    ∃ j m', d.mapping.get? n = some j ∧ d.output.node? j = some m' ∧
      (retouched? m = some m' ∨ retouched? m = none ∧ m' = m) := by
  cases hr : retouched? m with
  | none =>
    have hdue : ¬ Unplain g n := by
      rintro ⟨m', hm', hsome⟩
      cases hn.symm.trans hm'
      rw [hr] at hsome
      cases hsome
    obtain ⟨j, hj, hnode⟩ := (h.reproduces images_leaves hn hdue).leaf hm
    exact ⟨j, m, hj, hnode, Or.inr ⟨rfl, rfl⟩⟩
  | some m' =>
    obtain ⟨⟨j, k, hj, hk, n', hn', hretouched⟩, -⟩ := h.stands n ⟨m, hn, by rw [hr]; rfl⟩
    cases hn.symm.trans hn'
    have hk' : k = k.skeleton := Node.eq_of_skeleton_eq_leaf Node.withOperands_withOperands.symm
      (expression?_of_retouched? hretouched)
    refine ⟨j, k, hj, hk, Or.inl ?_⟩
    rw [← hr, hretouched, ← hk']

theorem maintains_leaves (hg : g.Acyclic)
    (h : (leaves : Pass α).apply deduplicate journal g = .ok (rev, journal')) : rev.Maintains g := by
  obtain ⟨d, hd, rfl⟩ := outcome_leaves hg h
  intro x q hq
  obtain ⟨j, m, hj, hm, hparameter⟩ := exists_retouched hd hq rfl
  obtain ⟨r, rfl, hdomain, hfamily, hwithin⟩ : ∃ r, m = .parameter r ∧ r.domain = q.domain ∧
      r.values.family = q.values.stripped.family ∧
        ∀ w t, q.within = some t → q.Restates w t → d.output.Enforces j r w := by
    rcases hparameter with hr | ⟨hr, rfl⟩
    · have hstrip := family_values_stripParameter q
      rw [retouched?] at hr
      split_ifs at hr
      cases hr
      refine ⟨_, rfl, rfl, hstrip, fun w t ht hstates => .within (t := t.stripped) ?_
        (hstates.strip (ValueSet.stripped_stripped t) rfl hstrip)⟩
      simp [stripParameter, ht]
    · exact ⟨q, rfl, rfl, family_values_of_retouched?_eq_none hr,
        fun w t ht hstates => .within ht hstates⟩
  refine ⟨j, r, hj, hm, hdomain, fun w h => h.transfer (P := fun _ => True) hj trivial (hwithin w)
    (fun l t u hl => ⟨trivial, ?_⟩) fun n op a b mark hn _ _ _ => ⟨trivial, ?_⟩⟩
  · obtain ⟨l', m, hl', hm, hr | ⟨hr, rfl⟩⟩ := exists_retouched hd hl rfl
    · obtain ⟨v, -, rfl⟩ := Option.map_eq_some_iff.1 hr
      exact ⟨l', _, _, hl', hm, ValueSet.stripped_stripped t,
        fun hstates => hstates.strip (ValueSet.stripped_stripped t) rfl hfamily⟩
    · have hunit : carriedUnit? t = none := Option.map_eq_none_iff.1 hr
      exact ⟨l', t, u, hl', hm, rfl,
        fun hstates => hstates.strip rfl (family_of_carriedUnit?_eq_none hunit).symm hfamily⟩
  · refine hd.reproduces images_leaves hn ?_
    rintro ⟨m, hm, hsome⟩
    cases hn.symm.trans hm
    cases hsome

theorem maintains_operators (hg : g.Sound)
    (h : (operators : Pass α).apply deduplicate journal g = .ok (rev, journal')) :
    rev.Maintains g := by
  obtain ⟨d, hd, rfl⟩ := exists_canonized hg h
  intro x q hq
  have hleaf {n : NodeId} {m : Node α} (hn : g.node? n = some m) (hm : m.expression? = none) :
      ¬ g.Tainted n ∧ ∃ j, d.mapping.get? n = some j ∧ d.output.node? j = some m := by
    have hplain := Generation.not_tainted_of_leaf hn hm
    refine ⟨hplain, (hd.reproduces hn ?_ hplain).leaf hm⟩
    rintro ⟨e, he, -⟩
    cases hn.symm.trans he
    cases hm
  obtain ⟨hplain, j, hj, hr⟩ := hleaf hq rfl
  refine ⟨j, q, hj, hr, rfl, fun w h => h.transfer (P := fun n => ¬ g.Tainted n) hj hplain
    (fun t ht hstates => .within ht hstates) (fun l t u hl => ?_)
    fun n op a b mark hn hop ha hb => ?_⟩
  · obtain ⟨hplain, l', hl', hnode⟩ := hleaf hl rfl
    exact ⟨hplain, l', t, u, hl', hnode, rfl, id⟩
  · have hplain : ¬ g.Tainted n := by
      refine Generation.not_tainted_of_operands hn (fun e he => ?_) fun o ho => ?_
      · cases he
        rcases hop with rfl | rfl <;> simp
      · rcases List.mem_pair.1 ho with rfl | rfl
        · exact ha
        · exact hb
    refine ⟨hplain, hd.reproduces hn ?_ hplain⟩
    rintro ⟨e, he, hforeign⟩
    cases hn.symm.trans he
    rcases hop with rfl | rfl <;> cases hforeign

theorem maintains_nesting (hg : g.Sound)
    (h : (nesting : Pass α).apply deduplicate journal g = .ok (rev, journal')) :
    rev.Maintains g := by
  obtain ⟨d, hd, rfl⟩ := exists_compressed hg h
  intro x q hq
  have hleaf {n : NodeId} {m : Node α} (hn : g.node? n = some m) (hm : m.expression? = none) :
      ∃ j, d.mapping.get? n = some j ∧ d.output.node? j = some m := by
    refine (hd.reproduces hg.toLinked hn fun e he => ?_).leaf hm
    rw [he] at hm
    cases hm
  obtain ⟨j, hj, hr⟩ := hleaf hq rfl
  refine ⟨j, q, hj, hr, rfl, fun w h => h.transfer (P := fun _ => True) hj trivial
    (fun t ht hstates => .within ht hstates) (fun l t u hl => ⟨trivial, ?_⟩)
    fun n op a b mark hn hop _ _ => ⟨trivial, hd.reproduces hg.toLinked hn fun e he => ?_⟩⟩
  · obtain ⟨l', hl', hnode⟩ := hleaf hl rfl
    exact ⟨l', t, u, hl', hnode, rfl, id⟩
  · cases he
    rcases hop with rfl | rfl <;> exact ⟨rfl, rfl⟩

end Pass

end ParameterSolver
