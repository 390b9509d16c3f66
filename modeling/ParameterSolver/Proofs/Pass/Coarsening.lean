import ParameterSolver.Proofs.Blueprint.Reachable
import ParameterSolver.Proofs.Pass.Reduced
import ParameterSolver.Proofs.Pass.TotalLaws

/-! The laws of arithmetic and evaluation over the real numbers. A tree is evaluated like its operator as
long as no set that it negates or inverts has too many intervals. -/

namespace ParameterSolver

namespace Pass

open Propagation

variable {g : Generation Continuum} {id : NodeId} {e : Expression} {ss : List (ValueSet Continuum)}

/-- Both generations are evaluated, and the tree has the value that is coarse in places. -/
theorem exists_evaluates_coarsely (hg : g.Sound) (hn : g.node? id = some (.expression e))
    (hop : e.op.reduces)
    (hops : List.Forall₂ (fun o s => ∃ u, g.node? o = some (.literal s u)) e.operands ss)
    (hss : ∀ s ∈ ss, s.Canonical ∧ s.Measures 0 ∧ s.isEmpty = false)
    (hkind : e.op.has .arithmetic → ∀ s ∈ ss, s.kind = .numeric)
    (deduplicate : Bool) (journal : Journal) :
    ∃ rev journal' j r r' v v' w,
      (operators : Pass Continuum).apply deduplicate journal g = .ok (rev, journal') ∧
        (∀ i, ¬ rev.generation.Foreign i) ∧ rev.mapping.get? id = some j ∧
        g.Evaluates id r ∧ rev.generation.Evaluates j r' ∧
        r.value = some v ∧ r'.value = some v' ∧
        onLiterals? e.op ss = some v ∧ coarsely? e.op ss = some w ∧ v' == w := by
  have hsays : List.Forall₂ (g.Says Estimate.interpretation) e.operands (ss.map .given) := by
    rw [List.forall₂_map_right_iff]
    exact hops.imp fun o s ⟨u, ho⟩ => ⟨_, u, ho, rfl⟩
  have hmeans : List.Forall₂ (g.Means Estimate.interpretation) e.operands (ss.map .given) := by
    refine hsays.imp fun o r hr => ?_
    obtain ⟨s, u, ho, rfl⟩ := hr
    exact .literal ho
  have harity : e.op.arity.accepts ss.length := hops.length_eq ▸ (hg.node hn).arity _ rfl
  obtain ⟨v, w, v', hv, hw, htree, hbeq⟩ := coarsely_of_reduces hop harity hss hkind
  obtain ⟨rev, journal', happly, -, hforeign, -⟩ := gives_operators hg deduplicate journal
  obtain ⟨j, hj, hevaluates⟩ := exists_means_reduced hg hn hop hsays happly
  have hdirect : (Estimate.combine e.op (ss.map .given)).value = some v := by
    rw [Estimate.combine, List.map_map, List.map_map]
    exact hv
  exact ⟨rev, journal', j, _, _, v, v', w, happly, hforeign, hj, .of_forall₂ hn hmeans, hevaluates,
    hdirect, htree, hv, hw, hbeq⟩

/-- An operator of arithmetic or a relation over literals is evaluated, and so is the tree that its law
puts in its place. The tree gives what the operator does if the sets that are negated or inverted count as
their hulls as soon as they have too many intervals, and so does the value of a ceiling. Without such sets
the tree is evaluated like the operator. -/
theorem exists_evaluates_reduced (hg : g.Sound) (hn : g.node? id = some (.expression e))
    (hop : e.op.reduces)
    (hops : List.Forall₂ (fun o s => ∃ u, g.node? o = some (.literal s u)) e.operands ss)
    (hss : ∀ s ∈ ss, s.Canonical ∧ s.Measures 0 ∧ s.isEmpty = false)
    (hkind : e.op.has .arithmetic → ∀ s ∈ ss, s.kind = .numeric)
    (deduplicate : Bool) (journal : Journal) :
    ∃ rev journal' j r r' v v' w,
      (operators : Pass Continuum).apply deduplicate journal g = .ok (rev, journal') ∧
        (∀ i, ¬ rev.generation.Foreign i) ∧ rev.mapping.get? id = some j ∧
        g.Evaluates id r ∧ rev.generation.Evaluates j r' ∧
        r.value = some v ∧ r'.value = some v' ∧
        onLiterals? e.op ss = some v ∧ coarsely? e.op ss = some w ∧ v' == w ∧
        ((∀ s ∈ delicate e.op ss, s.Few) → v' == v) := by
  obtain ⟨rev, journal', j, r, r', v, v', w, happly, hforeign, hj, hr, hr', hv, hv', hdirect, hw, hbeq⟩ :=
    exists_evaluates_coarsely hg hn hop hops hss hkind deduplicate journal
  refine ⟨rev, journal', j, r, r', v, v', w, happly, hforeign, hj, hr, hr', hv, hv', hdirect, hw, hbeq,
    fun hfew => ?_⟩
  rw [coarsely?_eq hfew, hdirect] at hw
  rwa [Option.some.inj hw]

namespace Sample

/-- The difference of two numbers. -/
noncomputable def difference : Blueprint Continuum :=
  let b := (Blueprint.empty.addLiteral (.number (Scalar.ofDecimal 5 0))).2
  let b := (b.addLiteral (.number (Scalar.ofDecimal 2 0))).2
  (b.addExpression .subtract [.nth 0, .nth 1]).2

theorem difference_sound : difference.generation.Sound :=
  have hsane : difference.Sane :=
    Blueprint.sane_of_reachable (.expression (.literal (.literal .empty _) _) _ _)
  ⟨hsane.orderly rfl, hsane.ascending.acyclic⟩

theorem number_suits (m : ℤ) : (ValueSet.number (Scalar.ofDecimal m 0 : Continuum)).Canonical ∧
    (ValueSet.number (Scalar.ofDecimal m 0 : Continuum)).Measures 0 ∧
    (ValueSet.number (Scalar.ofDecimal m 0 : Continuum)).isEmpty = false ∧
    (ValueSet.number (Scalar.ofDecimal m 0 : Continuum)).Few := by
  have hfinite : Scalar.isFinite (Scalar.ofDecimal m 0 : Continuum) := Continuum.isFinite_iff.2 ⟨_, rfl⟩
  refine ⟨canonical_number _, ValueSet.measures_numeric.2 MeasureUnit.dims_one,
    (Estimate.counts_constant hfinite).fed, ?_⟩
  rintro _ ⟨⟩
  exact Numbers.length_ofInterval?_le.trans (by decide)

end Sample

/-- Two numbers are subtracted. -/
theorem exists_evaluates_reduced_difference :
    ∃ rev journal' j r r' v v',
      (operators : Pass Continuum).apply true .empty Sample.difference.generation = .ok (rev, journal') ∧
        rev.mapping.get? (.nth 2) = some j ∧
        Sample.difference.generation.Evaluates (.nth 2) r ∧ rev.generation.Evaluates j r' ∧
        r.value = some v ∧ r'.value = some v' ∧ v' == v := by
  have hn : Sample.difference.generation.node? (.nth 2) =
      some (.expression ⟨.subtract, [.nth 0, .nth 1], false⟩) := rfl
  have hops : List.Forall₂ (fun o s => ∃ u, Sample.difference.generation.node? o =
      some (.literal s u)) [.nth 0, .nth 1]
      [.number (Scalar.ofDecimal 5 0), .number (Scalar.ofDecimal 2 0)] :=
    .cons ⟨none, rfl⟩ (.cons ⟨none, rfl⟩ .nil)
  obtain ⟨rev, journal', j, r, r', v, v', w, happly, -, hj, hr, hr', hv, hv', -, -, -, hbeq⟩ :=
    exists_evaluates_reduced Sample.difference_sound hn rfl hops
      (by simp [Sample.number_suits]) (by simp [ValueSet.number, ValueSet.kind]) true .empty
  exact ⟨rev, journal', j, r, r', v, v', happly, hj, hr, hr', hv, hv',
    hbeq (by simp [delicate, Sample.number_suits])⟩

namespace Sample

open Scalar Scalar.Ordered Scalar.Reading Numbers Continuum

/-- The numbers from one to forty and those from 101 to 140. -/
noncomputable def ranges : Numbers Continuum :=
  (closed (ofDecimal 1 0) (ofDecimal 40 0)).union (closed (ofDecimal 101 0) (ofDecimal 140 0))

/-- Their ceilings. -/
noncomputable def ceilings : Blueprint Continuum :=
  let b := (Blueprint.empty.addLiteral (.numeric (.plain ranges))).2
  (b.addExpression .ceil [.nth 0]).2

theorem ceilings_sound : ceilings.generation.Sound :=
  have hsane : ceilings.Sane := Blueprint.sane_of_reachable (.expression (.literal .empty _) _ _)
  ⟨hsane.orderly rfl, hsane.ascending.acyclic⟩

theorem canonical_closed (x y : Continuum) : (closed x y).Canonical := canonical_ofBounds? _ _

theorem canonical_ranges : ranges.Canonical := (canonical_closed _ _).union (canonical_closed _ _)

theorem mem_ranges {r : ℝ} : r ∈ ranges.points ↔ (1 ≤ r ∧ r ≤ 40) ∨ (101 ≤ r ∧ r ≤ 140) := by
  rw [ranges, points_union (canonical_closed _ _) (canonical_closed _ _), Set.mem_union]
  refine (or_congr mem_closed_points mem_closed_points).trans ?_
  norm_num

theorem length_ranges : ranges.intervals.length ≤ 2 := by
  refine length_ofIntervals_le.trans ?_
  rw [List.length_append]
  exact Nat.add_le_add length_ofInterval?_le length_ofInterval?_le

/-- The sums that are rounded. -/
noncomputable def halved : Numbers Continuum := ranges.neg.add (singleton (-0.5))

theorem mem_halved {r : ℝ} : r ∈ halved.points ↔ -(r + 1 / 2) ∈ ranges.points := by
  have hhalf : (-0.5 : Continuum) = Continuum.number ((-(1 / 2) : ℝ) : EReal) := by
    rw [Continuum.half_eq, Continuum.neg_number, EReal.coe_neg]
  obtain ⟨j, hj, hproper, hpoints⟩ := exists_singleton (-(1 / 2))
  have hsingle : (⟨[j]⟩ : Numbers Continuum).Canonical := hj ▸ canonical_number _
  have hj' : (⟨[j]⟩ : Numbers Continuum).points = {-(1 / 2)} := by
    rw [← hpoints]
    simp [points]
  have hfew : ranges.neg.intervals.length * (⟨[j]⟩ : Numbers Continuum).intervals.length ≤ maxPairs := by
    rw [length_neg canonical_ranges, List.length_singleton, Nat.mul_one]
    exact length_ranges.trans (by decide)
  rw [halved, hhalf, hj, (points_add canonical_ranges.neg hsingle).2 hfew, hj',
    points_neg canonical_ranges]
  constructor
  · rintro ⟨_, ⟨p, hp, rfl⟩, _, rfl, rfl⟩
    simpa using hp
  · exact fun h => ⟨_, ⟨_, h, rfl⟩, _, rfl, by ring⟩

/-- Both parts round to forty numbers. -/
theorem encard_rounded_halved : ∀ i ∈ halved.intervals, (rounded '' i.points).encard ≤ 64 := by
  intro i hi
  have hmem {p : ℝ} (hp : p ∈ i.points) :
      (-(81 / 2) ≤ p ∧ p ≤ -(3 / 2)) ∨ (-(281 / 2) ≤ p ∧ p ≤ -(203 / 2)) := by
    rcases mem_ranges.1 (mem_halved.1 ⟨i, hi, hp⟩) with h | h
    · exact .inl ⟨by linarith [h.2], by linarith [h.1]⟩
    · exact .inr ⟨by linarith [h.2], by linarith [h.1]⟩
  have hcard (m : ℤ) (h : ∀ p ∈ i.points, (m : ℝ) - 1 / 2 ≤ p ∧ p < m + 79 / 2) :
      (rounded '' i.points).encard ≤ 64 := by
    have hsub : rounded '' i.points ⊆ Set.Icc m (m + 39) := by
      rintro _ ⟨p, hp, rfl⟩
      obtain ⟨hlo, hhi⟩ := h p hp
      rw [rounded_eq_floor]
      refine ⟨Int.le_floor.2 (by linarith), Int.floor_le_iff.2 ?_⟩
      push_cast
      linarith
    calc (rounded '' i.points).encard ≤ (Set.Icc m (m + 39)).encard := Set.encard_le_encard hsub
      _ = 40 := by
        rw [← Finset.coe_Icc, Set.encard_coe_eq_coe_finsetCard, Int.card_Icc,
          show (m + 39 + 1 - m).toNat = 40 by omega]
        rfl
      _ ≤ 64 := by decide
  obtain ⟨p, hp⟩ := (canonical_add.proper i hi).exists_point
  -- the gap between the parts is not in the set, so an interval lies on one side of it
  have hgap : (-70 : ℝ) ∉ i.points := fun h => by
    rcases hmem h with h | h <;> norm_num at h
  have hside {a b : ℝ} (ha : a ∈ i.points) (hb : b ∈ i.points) (h : a ≤ -70) : b < -70 :=
    not_le.1 fun hle => hgap (i.ordConnected_points.out ha hb ⟨h, hle⟩)
  by_cases hlow : p ≤ -70
  · refine hcard (-140) fun q hq => ?_
    have hq70 := hside hp hq hlow
    push_cast
    rcases hmem hq with h | h
    · linarith
    · exact ⟨by linarith, by linarith⟩
  · refine hcard (-40) fun q hq => ?_
    have hq70 : -70 < q := not_le.1 fun hle => hlow (hside hq hp hle).le
    push_cast
    rcases hmem hq with h | h
    · exact ⟨by linarith, by linarith⟩
    · linarith

/-- The ceiling that is evaluated directly. -/
noncomputable def rounds : Numbers Continuum := halved.round.neg

theorem mem_rounds {r : ℝ} : r ∈ rounds.points ↔ ∃ p ∈ halved.points, -(rounded p : ℝ) = r := by
  have hhalved : halved.Canonical := canonical_add
  rw [rounds, points_neg hhalved.round, points_round hhalved encard_rounded_halved]
  simp

theorem maxPairs_lt_length_rounds : maxPairs < rounds.intervals.length := by
  let S : Finset ℤ := Finset.Icc 1 40 ∪ Finset.Icc 101 140
  have hS : ∀ n ∈ S, (n : ℝ) ∈ rounds.points := by
    intro n hn
    refine mem_rounds.2 ⟨-n - 1 / 2, mem_halved.2 (mem_ranges.2 ?_), ?_⟩
    · rw [show -(-(n : ℝ) - 1 / 2 + 1 / 2) = n by ring]
      simp only [S, Finset.mem_union, Finset.mem_Icc] at hn
      exact_mod_cast hn
    · have hint : (-n : ℝ) = ((-n : ℤ) : ℝ) := by push_cast; rfl
      rw [rounded_eq_floor, sub_add_cancel, hint, Int.floor_intCast]
      simp
  have hcard : (S.map ⟨Int.cast, Int.cast_injective⟩ : Finset ℝ).card = 80 := by
    have hdisjoint : Disjoint (Finset.Icc (1 : ℤ) 40) (Finset.Icc 101 140) :=
      Finset.disjoint_left.2 fun n hn hn' => by
        have := Finset.mem_Icc.1 hn
        have := Finset.mem_Icc.1 hn'
        omega
    rw [Finset.card_map, Finset.card_union_of_disjoint hdisjoint, Int.card_Icc, Int.card_Icc]
    rfl
  calc maxPairs < 80 := by decide
    _ = _ := hcard.symm
    _ ≤ rounds.intervals.length := card_le_length (by simpa using hS) ?_
  -- a number of the set is an integer, so there are others after each
  intro a ha b hb hab
  obtain ⟨m, -, rfl⟩ := Finset.mem_map.1 ha
  obtain ⟨n, -, rfl⟩ := Finset.mem_map.1 hb
  have hmn : m + 1 ≤ n := Int.cast_lt.1 hab
  refine ⟨m + 1 / 2, fun h => ?_, by simp, ?_⟩
  · obtain ⟨p, -, hp⟩ := mem_rounds.1 h
    have hodd : ((2 * (-rounded p - m) : ℤ) : ℝ) = (1 : ℤ) := by
      push_cast
      linarith
    have := Int.cast_injective hodd
    omega
  · have hle : ((m + 1 : ℤ) : ℝ) ≤ n := Int.cast_le.2 hmn
    push_cast at hle
    change (m : ℝ) + 1 / 2 ≤ n
    linarith

end Sample

/-- The ceilings of two ranges of forty numbers are eighty numbers, and their tree gives the hull. -/
theorem exists_evaluates_ceilings :
    (∀ s ∈ [ValueSet.numeric (.plain Sample.ranges)],
      s.Canonical ∧ s.Measures 0 ∧ s.isEmpty = false) ∧
    Sample.ceilings.generation.node? (.nth 0) = some (.literal (.numeric (.plain Sample.ranges)) none) ∧
    Sample.ceilings.generation.node? (.nth 1) = some (.expression ⟨.ceil, [.nth 0], false⟩) ∧
    ∃ rev journal' j r r' v v',
      (operators : Pass Continuum).apply true .empty Sample.ceilings.generation = .ok (rev, journal') ∧
        rev.mapping.get? (.nth 1) = some j ∧
        Sample.ceilings.generation.Evaluates (.nth 1) r ∧ rev.generation.Evaluates j r' ∧
        r.value = some v ∧ r'.value = some v' ∧ (v' == v) = false := by
  have hfed : (Quantities.plain Sample.ranges).isEmpty = false :=
    (Numbers.nonempty_points_iff Sample.canonical_ranges).1 ⟨1, Sample.mem_ranges.2 (by norm_num)⟩
  have hss : ∀ s ∈ [ValueSet.numeric (.plain Sample.ranges)],
      s.Canonical ∧ s.Measures 0 ∧ s.isEmpty = false := by
    rintro _ (_ | ⟨_, ⟨⟩⟩)
    exact ⟨Sample.canonical_ranges, ValueSet.measures_numeric.2 MeasureUnit.dims_one, hfed⟩
  have hn : Sample.ceilings.generation.node? (.nth 1) =
      some (.expression ⟨.ceil, [.nth 0], false⟩) := rfl
  refine ⟨hss, rfl, hn, ?_⟩
  obtain ⟨rev, journal', j, r, r', v, v', w, happly, -, hj, hr, hr', hv, hv', hdirect, hw, hbeq⟩ :=
    exists_evaluates_coarsely Sample.ceilings_sound hn rfl (.cons ⟨none, rfl⟩ .nil) hss
      (by simp [ValueSet.kind]) true .empty
  refine ⟨rev, journal', j, r, r', v, v', happly, hj, hr, hr', hv, hv', ?_⟩
  have hvalue := onLiterals?_ceil hfed
  obtain rfl := Option.some.inj (hdirect.symm.trans hvalue)
  have hcoarse : (onLiterals? .ceil [.numeric (.plain Sample.ranges)]).map .coarse = some w := hw
  rw [hvalue] at hcoarse
  obtain rfl := Option.some.inj hcoarse
  exact ValueSet.not_beq_of_coarse hbeq Sample.maxPairs_lt_length_rounds

end Pass

end ParameterSolver
