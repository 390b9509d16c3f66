import ParameterSolver.Proofs.Pass.Enforcement
import ParameterSolver.Proofs.Solve.Survival

/-! What the pass over the leaves makes plain. Constants become literals, literals are written in the
plain unit, and so is a parameter with the sets that stand with it. One parameter is overlooked: where
it is in the plain unit already and its sets only in multiples of it, such as percent, the parameter
without units counts as equal to what it was and stays. -/

namespace ParameterSolver

open Draft Pass Scalar Scalar.Ordered

variable {α : Type} [Scalar α] {g : Generation α} {p : Parameter α} {s : ValueSet α}
  {n m : Node α} {images : NodeMap NodeId}

/-- The numbers of the set, if it is one of numbers, are written in the plain unit. -/
def ValueSet.IsPlain (s : ValueSet α) : Prop := ∀ u, s.unit? = some u → u.isOne

namespace Parameter

/-- The set stands with the parameter. -/
def Hints (p : Parameter α) (s : ValueSet α) : Prop :=
  p.within = some s ∨ p.soft = some s ∨ p.guess = some s

/-- A parameter in the plain unit, with sets in multiples of it. -/
structure Overlooked (p : Parameter α) : Prop where
  unit : p.unit.isOne
  scaled : ∃ s, p.Hints s ∧ ¬ s.IsPlain
  dimensionless : ∀ s, p.Hints s → ∀ u, s.unit? = some u → u.isDimensionless

end Parameter

/-- No unit but the plain one occurs in the node. -/
def Node.IsPlain : Node α → Prop
  | .constant _ => False
  | .literal s _ => s.IsPlain
  | .parameter p => p.unit.isOne ∧ ∀ s, p.Hints s → s.IsPlain
  | .expression _ => True

/-- The second node is the first one over the images of its operands, with the same base values, and
shown in the same unit. -/
inductive Node.Rebased (images : NodeMap NodeId) : Node α → Node α → Prop
  | constant {c : Constant α} {s t : ValueSet α} {u : Option (MeasureUnit α)} (hc : c.toSet = .ok s)
    (ht : t.stripped = s.stripped) : Rebased images (.constant c) (.literal t u)
  | literal {s t : ValueSet α} {u v : Option (MeasureUnit α)} (ht : t.stripped = s.stripped) :
    Rebased images (.literal s v) (.literal t u)
  | parameter {p r : Parameter α} (h : p.Persists r)
    (within : r.within.map ValueSet.stripped = p.within.map ValueSet.stripped) :
    Rebased images (.parameter p) (.parameter r)
  | expression {op : Operator} {operands js : List NodeId} {asserted : Bool}
    (h : List.Forall₂ (fun o j => images.get? o = some j) operands js) :
    Rebased images (.expression ⟨op, operands, asserted⟩) (.expression ⟨op, js, asserted⟩)

theorem ValueSet.isPlain_iff : s.IsPlain ↔ carriedUnit? s = none := by
  unfold IsPlain carriedUnit?
  cases s.unit? <;> simp

/-- Nothing is to be done for a plain parameter, and for no other one. -/
theorem Parameter.needsStripping_eq_false_iff :
    needsStripping p = false ↔ p.unit.isOne ∧ ∀ s, p.Hints s → s.IsPlain := by
  have hhint (o : Option (ValueSet α)) :
      (o.bind carriedUnit?).isSome = false ↔ ∀ s, o = some s → s.IsPlain := by
    cases o <;> simp [ValueSet.isPlain_iff]
  simp only [needsStripping, Bool.or_eq_false_iff, Bool.not_eq_false', List.any_cons, List.any_nil,
    hhint, Hints, or_imp, forall_and, and_true]

/-! The parameter without units, and when it counts as equal. -/

section Equality

theorem ValueSet.isDimensionless_of_beq (h : s.stripped == s) :
    ∀ u, s.unit? = some u → u.isDimensionless := by
  intro u hu
  cases s with
  | numeric q =>
    cases hu
    have hunit : (.one : MeasureUnit α).commensurable q.unit = true := (Bool.and_eq_true_iff.1 h).1
    exact beq_iff_eq.2 (beq_iff_eq.1 hunit).symm
  | _ => cases hu

/-- A parameter that counts as equal has only sets that do. -/
theorem Parameter.stripped_beq_of_hints (h : (stripParameter p == p) = true) (hs : p.Hints s) :
    s.stripped == s := by
  change (_ && _) = true at h
  simp only [Bool.and_eq_true] at h
  obtain ⟨⟨⟨⟨⟨⟨-, hwithin⟩, hsoft⟩, hguess⟩, -⟩, -⟩, -⟩ := h
  rcases hs with hs | hs | hs
  · simpa [stripParameter, hs] using hwithin
  · simpa [stripParameter, hs] using hsoft
  · simpa [stripParameter, hs] using hguess

variable [Ordered α]

/-- A set in a multiple of the plain unit counts as equal without it. -/
theorem ValueSet.Canonical.stripped_beq (h : s.Canonical)
    (hunit : ∀ u, s.unit? = some u → u.isDimensionless) : s.stripped == s := by
  cases s with
  | numeric q =>
    refine Bool.and_eq_true_iff.2 ⟨?_, Numbers.Canonical.beq_self h⟩
    exact beq_iff_eq.2 (beq_iff_eq.1 (hunit q.unit rfl)).symm
  | boolean b => exact beq_self_eq_true b
  | enum c => exact beq_self_eq_true c
  | text t => exact beq_self_eq_true t

theorem Parameter.Overlooked.stripParameter_beq (h : p.Overlooked) (hsource : p.sourceUnit = none)
    (hsets : ∀ s, p.Hints s → s.Canonical) : (stripParameter p == p) = true := by
  have hhint (o : Option (ValueSet α)) (ho : ∀ s, o = some s → p.Hints s) :
      (o.map ValueSet.stripped == o) = true := by
    cases o with
    | none => rfl
    | some s => exact (hsets s (ho s rfl)).stripped_beq (h.dimensionless s (ho s rfl))
  have hunit : (p.unit == p.unit) = true := by
    have hscale := (Bool.and_eq_true_iff.1 h.unit).2
    exact Bool.and_eq_true_iff.2 ⟨beq_self_eq_true _, number_of_beq hscale⟩
  have hunit' : ((stripParameter p).unit == p.unit) = true := by
    rwa [stripParameter, if_pos h.unit]
  have hsource' : ((stripParameter p).sourceUnit == p.sourceUnit) = true := by
    have hkept : (stripParameter p).sourceUnit = p.sourceUnit := if_pos h.unit
    rw [hkept, hsource]
    rfl
  change (_ && _) = true
  simp only [Bool.and_eq_true]
  exact ⟨⟨⟨⟨⟨⟨⟨⟨⟨beq_self_eq_true _, beq_self_eq_true _⟩, hunit'⟩, hsource'⟩,
    hhint p.within fun _ hs => Or.inl hs⟩, hhint p.soft fun _ hs => Or.inr (Or.inl hs)⟩,
    hhint p.guess fun _ hs => Or.inr (Or.inr hs)⟩, beq_self_eq_true _⟩, beq_self_eq_true _⟩,
    beq_self_eq_true _⟩

end Equality

section Plain

variable [Ordered α]

theorem MeasureUnit.isOne_one : (.one : MeasureUnit α).isOne := by
  have hone : (1 : α) == 1 := beq_of_isFinite isFinite_one
  simp [isOne, isDimensionless, one, hone]

theorem ValueSet.isPlain_stripped (s : ValueSet α) : s.stripped.IsPlain := by
  intro u hu
  cases s with
  | numeric q =>
    cases hu
    exact MeasureUnit.isOne_one
  | _ => cases hu

theorem Pass.isPlain_stripParameter (p : Parameter α) :
    (Node.parameter (stripParameter p)).IsPlain := by
  refine ⟨?_, fun s hs => ?_⟩
  · unfold stripParameter
    dsimp only
    split_ifs with hone
    · exact hone
    · exact MeasureUnit.isOne_one
  · obtain ⟨t, rfl⟩ : ∃ t : ValueSet α, t.stripped = s := by
      rcases hs with hs | hs | hs <;>
      · obtain ⟨t, -, ht⟩ := Option.map_eq_some_iff.1 hs
        exact ⟨t, ht⟩
    exact ValueSet.isPlain_stripped t

/-- A parameter that needs stripping and counts as equal without units is overlooked. -/
theorem Parameter.overlooked_of_beq (hneeds : needsStripping p)
    (h : (stripParameter p == p) = true) : p.Overlooked := by
  have hunit : p.unit.isOne = true := by
    by_contra hunit
    have hbeq := one_beq_unit_of_retouched? (p := p) (by simp [retouched?, h])
      (Bool.eq_false_iff.2 hunit)
    obtain ⟨hexponents, hscale⟩ := Bool.and_eq_true_iff.1 hbeq
    refine hunit (Bool.and_eq_true_iff.2 ⟨?_, beq_symm hscale⟩)
    exact beq_iff_eq.2 (beq_iff_eq.1 hexponents).symm
  refine ⟨hunit, ?_, fun s hs => ValueSet.isDimensionless_of_beq (stripped_beq_of_hints h hs)⟩
  by_contra hplain
  have hnot := Parameter.needsStripping_eq_false_iff.2
    ⟨hunit, fun s hs => by_contra fun hs' => hplain ⟨s, hs, hs'⟩⟩
  rw [hneeds] at hnot
  cases hnot

/-- What becomes of a leaf. It keeps its base values; if it is no overlooked parameter it is plain
afterwards, and an overlooked one as it is declared stays what it was. -/
theorem Pass.rebased_of_retouched? (hn : n.Proper) (hleaf : n.expression? = none)
    (h : retouched? n = some m ∨ retouched? n = none ∧ m = n) :
    n.Rebased images m ∧ ((∀ p, n = .parameter p → ¬ p.Overlooked) → m.IsPlain) ∧
      ∀ p, n = .parameter p → p.Overlooked → p.sourceUnit = none →
        (∀ s, p.Hints s → s.Canonical) → m = n := by
  cases n with
  | expression e => cases hleaf
  | constant c =>
    obtain ⟨s, hs⟩ := hn.constant c rfl
    have hm : retouched? (.constant c) = some (.literal s.stripped (carriedUnit? s)) := by
      rw [retouched?, hs]
      rfl
    rw [hm] at h
    rcases h with h | ⟨h, -⟩
    · cases h
      exact ⟨.constant hs (ValueSet.stripped_stripped s), fun _ => ValueSet.isPlain_stripped s,
        by rintro _ ⟨⟩⟩
    · cases h
  | literal s v =>
    rcases h with h | ⟨h, rfl⟩
    · obtain ⟨u, -, rfl⟩ := Option.map_eq_some_iff.1 h
      exact ⟨.literal (ValueSet.stripped_stripped s), fun _ => ValueSet.isPlain_stripped s,
        by rintro _ ⟨⟩⟩
    · exact ⟨.literal rfl, fun _ => ValueSet.isPlain_iff.2 (Option.map_eq_none_iff.1 h),
        by rintro _ ⟨⟩⟩
  | parameter p =>
    by_cases hstrip : needsStripping p = true ∧ (stripParameter p == p) = false
    · have hm : retouched? (.parameter p) = some (.parameter (stripParameter p)) := by
        simp [retouched?, hstrip]
      rw [hm] at h
      rcases h with h | ⟨h, -⟩
      · cases h
        refine ⟨.parameter (.stripParameter p) ?_, fun _ => isPlain_stripParameter p, ?_⟩
        · change (p.within.map _).map _ = _
          rw [Option.map_map]
          exact congrArg (p.within.map ·) (funext ValueSet.stripped_stripped)
        · rintro _ ⟨⟩ hover hsource hsets
          rw [hover.stripParameter_beq hsource hsets] at hstrip
          cases hstrip.2
      · cases h
    · have hm : retouched? (.parameter p) = none := by
        rw [retouched?, if_neg]
        simpa using hstrip
      rw [hm] at h
      rcases h with h | ⟨-, rfl⟩
      · cases h
      · refine ⟨.parameter (.refl p) rfl, fun hover => ?_, fun _ _ _ _ _ => rfl⟩
        refine Parameter.needsStripping_eq_false_iff.1 (Bool.eq_false_iff.2 fun hneeds => ?_)
        exact hover p rfl (Parameter.overlooked_of_beq hneeds
          (Bool.not_eq_false _ ▸ fun h => hstrip ⟨hneeds, h⟩))

section Leaves

variable {d : Draft α} {deduplicate : Bool} {journal : Journal} {x j : NodeId}
  (hd : Outcome g (Unplain g) (fun _ => IsRetouched g) (fun _ _ _ => False) (IsRetouched g)
    (fun _ _ => True) deduplicate journal d)

include hd

theorem Pass.exists_rebased (hg : g.Sound) (hn : g.node? x = some n) :
    ∃ j m, d.mapping.get? x = some j ∧ d.output.node? j = some m ∧ n.Rebased d.mapping m ∧
      ((∀ p, n = .parameter p → ¬ p.Overlooked) → m.IsPlain) ∧
      ∀ p, n = .parameter p → p.Overlooked → p.sourceUnit = none →
        (∀ s, p.Hints s → s.Canonical) → m = n := by
  cases he : n.expression? with
  | none =>
    obtain ⟨j, m, hj, hm, hretouched⟩ := exists_retouched hd hn he
    exact ⟨j, m, hj, hm, rebased_of_retouched? (hg.node hn) he hretouched⟩
  | some e =>
    obtain ⟨op, operands, asserted⟩ := e
    obtain rfl : n = .expression ⟨op, operands, asserted⟩ := by
      cases n <;> cases he
      rfl
    obtain ⟨j, js, hj, himages, hm⟩ := hd.reproduces images_leaves hn (by
      rintro ⟨m, hm, hsome⟩
      cases hn.symm.trans hm
      cases hsome)
    exact ⟨j, _, hj, hm, .expression himages, fun _ => trivial, by rintro _ ⟨⟩⟩

omit [Ordered α] in
theorem Pass.exists_preimage (hm : d.output.node? j = some m) :
    ∃ x, d.mapping.get? x = some j ∧ g.contains x := by
  rcases hd.inventory (R := fun _ _ => False) (fun _ _ _ h => h.elim) hm with
    ⟨x, n, hx, hn, -⟩ | ⟨x, hx, ⟨n, hn, -⟩, -⟩ | ⟨-, _, _, h⟩
  · exact ⟨x, hx, Generation.contains_of_node? hn⟩
  · exact ⟨x, hx, Generation.contains_of_node? hn⟩
  · exact h.elim

end Leaves

/-- The pass over the leaves of a graph that was built. It succeeds; every node comes out with its base
values, shown in the unit that it was shown in, and nothing else comes out. No constant is left, and
what is no overlooked parameter has only the plain unit. An overlooked parameter, with sets that were
made and no unit put aside, comes out as it went in, with a unit that is not plain. -/
theorem plain_of_leaves {b : Blueprint α} (hb : b.Reachable) (h : b.build = .ok g)
    (deduplicate : Bool) (journal : Journal) :
    ∃ rev journal', (leaves : Pass α).apply deduplicate journal g = .ok (rev, journal') ∧
      (∀ j m, rev.generation.node? j = some m → ∃ x, rev.mapping.get? x = some j ∧ g.contains x) ∧
      (∀ j c, rev.generation.node? j ≠ some (.constant c)) ∧
      ∀ x n, g.node? x = some n → ∃ j m, rev.mapping.get? x = some j ∧
        rev.generation.node? j = some m ∧ n.Rebased rev.mapping m ∧
        ((∀ p, n = .parameter p → ¬ p.Overlooked) → m.IsPlain) ∧
        ∀ p, n = .parameter p → p.Overlooked → p.sourceUnit = none →
          (∀ s, p.Hints s → s.Canonical) → m = n ∧ ¬ m.IsPlain := by
  have hg := hb.sound h
  obtain ⟨rev, journal', hrev, -⟩ := gives_leaves hg deduplicate journal
  obtain ⟨d, hd, rfl⟩ := outcome_leaves hg.acyclic hrev
  refine ⟨_, journal', hrev, fun j m hm => exists_preimage hd hm, fun j c hc => ?_, fun x n hn => ?_⟩
  · obtain ⟨x, hx, hin⟩ := exists_preimage hd hc
    obtain ⟨n, hn⟩ := Generation.contains_iff.1 hin
    obtain ⟨j', m, hj', hm, hrebased, -⟩ := exists_rebased hd hg hn
    cases hx.symm.trans hj'
    cases hc.symm.trans hm
    cases hrebased
  · obtain ⟨j, m, hj, hm, hrebased, hplain, hsame⟩ := exists_rebased hd hg hn
    refine ⟨j, m, hj, hm, hrebased, hplain, fun p hp hover hsource hsets => ?_⟩
    have hmn := hsame p hp hover hsource hsets
    obtain ⟨s, hs, hscaled⟩ := hover.scaled
    refine ⟨hmn, fun hm => hscaled ?_⟩
    rw [hmn, hp] at hm
    exact hm.2 s hs

end Plain

namespace Sample

/-- A plain number that is expected to be five percent. -/
def percentage : Parameter Float := Parameter.real.withGuess (.quantity 5 .percent)

def inPercent : Blueprint Float := (Blueprint.empty.addParameter percentage).2

theorem percentage_hints {s : ValueSet Float} (h : percentage.Hints s) : s = .quantity 5 .percent := by
  rcases h with h | h | h
  · cases h
  · cases h
  · exact (Option.some.inj h).symm

theorem percentage_overlooked : percentage.Overlooked := by
  refine ⟨by decide +kernel, ⟨_, Or.inr (Or.inr rfl), fun h => ?_⟩, fun s hs u hu => ?_⟩
  · have hone : (MeasureUnit.percent : MeasureUnit Float).isOne = false := by decide +kernel
    exact Bool.false_ne_true (hone.symm.trans (h _ rfl))
  · rw [percentage_hints hs] at hu
    cases hu
    decide +kernel

end Sample

/-- The guess of five percent is still one in percent after the pass. -/
theorem plain_of_leaves_percent : Sample.inPercent.Reachable ∧
    Sample.inPercent.build = .ok Sample.inPercent.generation ∧
      ∃ rev journal' j, (leaves : Pass Float).apply false .empty Sample.inPercent.generation
          = .ok (rev, journal') ∧
        rev.mapping.get? (.nth 0) = some j ∧
          rev.generation.node? j = some (.parameter Sample.percentage) ∧
            ¬ (Node.parameter Sample.percentage : Node Float).IsPlain := by
  have hreachable : Sample.inPercent.Reachable := .parameter .empty Sample.percentage
  have hbuild : Sample.inPercent.build = .ok Sample.inPercent.generation := rfl
  obtain ⟨rev, journal', hrev, -, -, hnodes⟩ := plain_of_leaves hreachable hbuild false .empty
  obtain ⟨j, m, hj, hm, -, -, hover⟩ := hnodes (.nth 0) (.parameter Sample.percentage) rfl
  have hcanonical : ∀ s : ValueSet Float, Sample.percentage.Hints s → s.Canonical := by
    intro s hs
    rw [Sample.percentage_hints hs]
    exact canonical_ofUnits (canonical_ofBounds? (⟨5, true⟩ : Bound Float) ⟨5, true⟩) .percent
  obtain ⟨rfl, hplain⟩ := hover _ rfl Sample.percentage_overlooked rfl hcanonical
  exact ⟨hreachable, hbuild, rev, journal', j, hrev, hj, hm, hplain⟩

end ParameterSolver
