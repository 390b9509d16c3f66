import Mathlib.Topology.MetricSpace.HausdorffDistance
import ParameterSolver.Proofs.Continuum.Nearest
import ParameterSolver.Proofs.Propagation.Emptiness

/-! The value that is proposed for a parameter. Of what is hinted at, a set, one number is kept, the one
nearest to zero, and the admissible number nearest to that one is proposed. Where the hint has no gaps,
a number on the same side of the kept one is never nearer to the hint than the proposed one; a number
on the other side may be, and then the proposed number is not the admissible one nearest to the
hint. -/

namespace ParameterSolver

open Scalar Scalar.Reading Continuum

variable {t : ℝ}

namespace Numbers

variable {s : Numbers Continuum}

/-- All ends are finite and belong to the set. -/
def Closed (s : Numbers Continuum) : Prop :=
  ∀ i ∈ s.intervals, ∃ a b : ℝ, a ≤ b ∧ i = ⟨⟨number a, true⟩, ⟨number b, true⟩⟩

theorem Closed.proper (hs : s.Closed) : ∀ i ∈ s.intervals, i.Proper := by
  intro i hi
  obtain ⟨a, b, hab, rfl⟩ := hs i hi
  have hplaced (r : ℝ) : (number r : Continuum) == number r :=
    Continuum.beq_iff.2 ⟨rfl, number_ne_nan⟩
  have hfinite (r : ℝ) : isInfinite (number r) = false :=
    isInfinite_of_isFinite (Continuum.isFinite_iff.2 ⟨r, rfl⟩)
  refine ⟨hplaced a, hplaced b, ?_, fun h => ?_, fun h => ?_⟩
  · rcases hab.lt_or_eq with hlt | rfl
    · exact Or.inl (number_lt_number.2 (EReal.coe_lt_coe_iff.2 hlt))
    · exact Or.inr ⟨hplaced a, rfl, rfl⟩
  · rw [hfinite a] at h
    exact absurd h Bool.false_ne_true
  · rw [hfinite b] at h
    exact absurd h Bool.false_ne_true

/-- From a set that has all its ends a nearest number is taken. -/
theorem Closed.exists_nearest? (hs : s.Closed) (hne : s.isEmpty = false) (t : ℝ) :
    ∃ c : ℝ, s.nearest? (number t) = some (number c) ∧ c ∈ s.points ∧
      ∀ r ∈ s.points, |c - t| ≤ |r - t| := by
  have hoffer {i} (hi : i ∈ s.intervals) : ∃ c : ℝ, nearestIn (number t) i = number c ∧
      c ∈ i.points ∧ ∀ r ∈ i.points, |c - t| ≤ |r - t| := by
    obtain ⟨a, b, -, rfl⟩ := hs i hi
    obtain ⟨c, hc, hinside, hleast⟩ :=
      Interval.exists_nearestIn_eq (t := t) (hs.proper _ hi) fun h => Bool.noConfusion h.2
    exact ⟨c, hc, hinside.resolve_right fun h => h.elim (fun h => Bool.noConfusion h.2)
      fun h => Bool.noConfusion h.2, hleast⟩
  obtain ⟨e, hnearest, ⟨k, hk, hke⟩, hmin⟩ := exists_nearest?_eq hs.proper hne t
  obtain ⟨c, hc, hmem, -⟩ := hoffer hk
  obtain rfl : e = c := number.inj (hke.symm.trans hc)
  refine ⟨c, hnearest, ⟨k, hk, hmem⟩, ?_⟩
  rintro r ⟨i, hi, hr⟩
  obtain ⟨d, hd, -, hdr⟩ := hoffer hi
  have hle := hmin i hi d hd
  rw [span_coe, span_coe, EReal.coe_le_coe_iff] at hle
  exact hle.trans (hdr r hr)

end Numbers

section Gapless

variable {G S : Set ℝ} {c h r : ℝ}

/-- Past a number of a set without gaps one only gets farther from the set. -/
theorem infDist_le_of_between (hG : G.OrdConnected) (hh : h ∈ G)
    (hc : (h ≤ c ∧ c ≤ r) ∨ (r ≤ c ∧ c ≤ h)) : Metric.infDist c G ≤ Metric.infDist r G := by
  refine (Metric.le_infDist ⟨h, hh⟩).2 fun g hg => ?_
  rw [Real.dist_eq]
  rcases hc with ⟨hhc, hcr⟩ | ⟨hrc, hch⟩
  · by_cases hgc : g ≤ c
    · refine (Metric.infDist_le_dist_of_mem hg).trans ?_
      rw [Real.dist_eq, abs_of_nonneg (by linarith), abs_of_nonneg (by linarith)]
      linarith
    · rw [Metric.infDist_zero_of_mem (hG.out hh hg ⟨hhc, (not_le.1 hgc).le⟩)]
      exact abs_nonneg _
  · by_cases hgc : c ≤ g
    · refine (Metric.infDist_le_dist_of_mem hg).trans ?_
      rw [Real.dist_eq, abs_of_nonpos (by linarith), abs_of_nonpos (by linarith)]
      linarith
    · rw [Metric.infDist_zero_of_mem (hG.out hg hh ⟨(not_le.1 hgc).le, hch⟩)]
      exact abs_nonneg _

/-- The number of a set nearest to one of a set without gaps is a nearest one to the latter set,
unless a number on the other side is nearer. -/
theorem infDist_le_iff (hG : G.OrdConnected) (hh : h ∈ G) (hc : ∀ r ∈ S, |c - h| ≤ |r - h|) :
    (∀ r ∈ S, Metric.infDist c G ≤ Metric.infDist r G) ↔
      ∀ r ∈ S, (r < h ∧ h < c) ∨ (c < h ∧ h < r) → Metric.infDist c G ≤ Metric.infDist r G := by
  refine ⟨fun hmin r hr _ => hmin r hr, fun hmin r hr => ?_⟩
  by_cases hother : (r < h ∧ h < c) ∨ (c < h ∧ h < r)
  · exact hmin r hr hother
  · by_cases hch : c = h
    · rw [hch, Metric.infDist_zero_of_mem hh]
      exact Metric.infDist_nonneg
    · have hle := hc r hr
      have hrh : r ≠ h := by
        rintro rfl
        rw [sub_self, abs_zero] at hle
        exact hch (sub_eq_zero.1 (abs_eq_zero.1 (hle.antisymm (abs_nonneg _))))
      rw [not_or, not_and, not_and, not_lt, not_lt] at hother
      refine infDist_le_of_between hG hh ?_
      rcases lt_or_gt_of_ne hch with hlt | hlt
      · have hrh' : r < h := lt_of_le_of_ne (hother.2 hlt) hrh
        rw [abs_of_neg (by linarith), abs_of_neg (by linarith)] at hle
        exact Or.inr ⟨by linarith, hlt.le⟩
      · have hrh' : h < r := by
          refine lt_of_le_of_ne (not_lt.1 fun h' => ?_) hrh.symm
          exact (hother.1 h').not_gt hlt
        rw [abs_of_pos (by linarith), abs_of_pos (by linarith)] at hle
        exact Or.inl ⟨hlt.le, by linarith⟩

end Gapless

namespace Analysis

variable {a : Analysis Continuum} {id : NodeId} {p : Parameter Continuum} {q g : Quantities Continuum}

/-- The hint that a proposal is drawn to. -/
theorem target_eq {x : Continuum} (hg : p.guess = some (.numeric g) ∨
    (p.guess = none ∧ p.soft = some (.numeric g))) (hx : g.base.nearest? 0 = some x) :
    target p = x := by
  rcases hg with hg | ⟨hguess, hsoft⟩
  · simp [target, hg, ValueSet.quantities?, hx]
  · simp [target, hguess, hsoft, ValueSet.quantities?, hx]

theorem single?_eq_none (hp : a.generation.node? id = some (.parameter p))
    (hq : a.value? id = some (.numeric q)) (hsingle : q.base.isSingleton = false) :
    a.single? id = .ok none := by
  have hnone : q.base.single? = none := by
    rwa [Numbers.isSingleton, Option.isSome_eq_false_iff, Option.isNone_iff_eq_none] at hsingle
  simp only [single?, superset, hp, hq, Option.getD_some]
  simp [ValueSet.single?, Quantities.single?, hnone]

theorem fromBase_of_scale_eq_one {u : MeasureUnit Continuum} (hu : u.scale = 1) (r : ℝ) :
    u.fromBase (number r) = number r := by
  have hinf : ¬ ((1 : EReal) = ⊤ ∨ (1 : EReal) = ⊥) := by
    rw [← EReal.coe_one]
    exact not_or.2 ⟨EReal.coe_ne_top 1, EReal.coe_ne_bot 1⟩
  rw [MeasureUnit.fromBase, hu, one_eq, number_div_number, div, if_neg one_ne_zero, if_neg hinf]
  simp

/-- The number proposed for a parameter with a hint, where the admissible set and the hint have all
their ends and numbers are shown in a unit of scale one. It is admissible, and of the admissible
numbers it is nearest to a number of the hint that is nearest to zero. If that number is admissible,
the proposed one belongs to the hint. And if the hint has no gaps, the proposed number is an
admissible one nearest to the hint exactly if none on the other side of the kept number is
nearer. -/
theorem pick?_nearest (hp : a.generation.node? id = some (.parameter p))
    (hq : a.value? id = some (.numeric q)) (hs : q.base.Closed) (hne : q.base.isEmpty = false)
    (hsingle : q.base.isSingleton = false) (hscale : p.displayUnit.scale = 1)
    (hg : p.guess = some (.numeric g) ∨ (p.guess = none ∧ p.soft = some (.numeric g)))
    (hgs : g.base.Closed) (hgne : g.base.isEmpty = false) :
    ∃ c h : ℝ, a.pick? id = .ok (some (.number (number c))) ∧ c ∈ q.base.points ∧
      h ∈ g.base.points ∧ (∀ r ∈ g.base.points, |h| ≤ |r|) ∧
      (∀ r ∈ q.base.points, |c - h| ≤ |r - h|) ∧
      (h ∈ q.base.points → c ∈ g.base.points) ∧
      (g.base.points.OrdConnected →
        ((∀ r ∈ q.base.points, Metric.infDist c g.base.points ≤ Metric.infDist r g.base.points) ↔
          ∀ r ∈ q.base.points, (r < h ∧ h < c) ∨ (c < h ∧ h < r) →
            Metric.infDist c g.base.points ≤ Metric.infDist r g.base.points)) := by
  obtain ⟨h, hh, hmem, hleast⟩ := hgs.exists_nearest? hgne 0
  obtain ⟨c, hc, hcmem, hcleast⟩ := hs.exists_nearest? hne h
  rw [EReal.coe_zero, ← zero_eq] at hh
  refine ⟨c, h, ?_, hcmem, hmem, fun r hr => by simpa using hleast r hr, hcleast, fun hadm => ?_,
    fun hG => infDist_le_iff hG hmem hcleast⟩
  · have hparam : a.generation.parameter? id = some p := by
      rw [Generation.parameter?, hp]
      rfl
    simp only [pick?, single?_eq_none hp hq hsingle, hparam, hq, target_eq hg hh, hc]
    rw [Option.map_some, fromBase_of_scale_eq_one hscale]
    rfl
  · have hle := hcleast h hadm
    rw [sub_self, abs_zero] at hle
    rwa [sub_eq_zero.1 (abs_eq_zero.1 (hle.antisymm (abs_nonneg _)))]

namespace Sample

noncomputable def between (a b : ℝ) : Quantities Continuum :=
  .plain ⟨[⟨⟨number a, true⟩, ⟨number b, true⟩⟩]⟩

theorem closed_between {a b : ℝ} (h : a ≤ b) : (between a b).base.Closed := by
  intro i hi
  exact ⟨a, b, h, List.mem_singleton.1 hi⟩

theorem canonical_between {a b : ℝ} (h : a ≤ b) : (between a b).base.Canonical :=
  Numbers.canonical_of_spaced (closed_between h).proper (List.pairwise_singleton _ _)

theorem mem_between {a b r : ℝ} : r ∈ (between a b).base.points ↔ a ≤ r ∧ r ≤ b := by
  simp [between, Quantities.plain, Numbers.points, Interval.points, le_iff_lt_or_eq, @eq_comm _ a]

theorem unbounded_inter_between {a b : ℝ} (h : a ≤ b) :
    Numbers.unbounded.inter (between a b).base = (between a b).base := by
  have hall : (Numbers.unbounded : Numbers Continuum).Canonical :=
    Numbers.Made.unbounded.canonical sineBounded
  have hpoints : (Numbers.unbounded : Numbers Continuum).points = Set.univ := by
    simp [Numbers.unbounded, Numbers.points, Interval.points, Interval.unbounded]
  refine Numbers.ext_of_beq ((Numbers.beq_iff_points (Numbers.canonical_inter _ _)
    (canonical_between h)).2 ?_)
  rw [Numbers.points_inter hall (canonical_between h), hpoints, Set.univ_inter]

/-- A number between zero and one that is expected between minus one and zero. -/
noncomputable def expected : Parameter Continuum :=
  (Parameter.real.withBound (.numeric (between 0 1))).withGuess (.numeric (between (-1) 0))

def oneOrTen : Numbers Exact :=
  ⟨(Numbers.singleton 1).intervals ++ (Numbers.singleton 10).intervals⟩

/-- A number between eight and twelve that is expected to be one or ten. -/
def torn : Blueprint Exact :=
  (Blueprint.empty.addParameter ((Parameter.real.withBound
    (.numeric (.plain (.closed 8 12)))).withGuess
      (.numeric (.plain oneOrTen)))).2

end Sample

/-- The least admissible number is proposed, which is expected. -/
theorem pick?_nearest_expected : ∃ (a : Analysis Continuum) (q : Quantities Continuum),
    a = ofGeneration (Blueprint.empty.addParameter Sample.expected).2.generation 0 ∧
      a.generation.node? (.nth 0) = some (.parameter Sample.expected) ∧
      a.value? (.nth 0) = some (.numeric q) ∧ q.base.Closed ∧ q.base.isEmpty = false ∧
      q.base.isSingleton = false ∧ Sample.expected.displayUnit.scale = 1 ∧
      Sample.expected.guess = some (.numeric (Sample.between (-1) 0)) ∧
      (Sample.between (-1) 0).base.Closed ∧ (Sample.between (-1) 0).base.isEmpty = false ∧
      ∃ c : ℝ, a.pick? (.nth 0) = .ok (some (.number (number c))) ∧
        ∀ r ∈ q.base.points, Metric.infDist c (Sample.between (-1) 0).base.points
          ≤ Metric.infDist r (Sample.between (-1) 0).base.points := by
  have hnode : (Blueprint.empty.addParameter Sample.expected).2.generation.node? (.nth 0)
      = some (.parameter Sample.expected) := rfl
  have hvalue := Knowledge.seed_of_initial? hnode
    (s := .numeric ⟨Numbers.unbounded.inter (Sample.between 0 1).base, .one⟩) rfl
  rw [Sample.unbounded_inter_between zero_le_one] at hvalue
  have hsingle : (Sample.between 0 1).base.isSingleton = false := by
    rw [Bool.eq_false_iff, Ne, Numbers.isSingleton_iff_points (Sample.canonical_between zero_le_one)]
    rintro ⟨r, -, hunique⟩
    have h0 := hunique 0 (Sample.mem_between.2 ⟨le_rfl, zero_le_one⟩)
    have h1 := hunique 1 (Sample.mem_between.2 ⟨zero_le_one, le_rfl⟩)
    linarith
  have hs := Sample.closed_between zero_le_one
  have hg := Sample.closed_between (show (-1 : ℝ) ≤ 0 by norm_num)
  obtain ⟨c, h, hpick, hc, -, hleast, -, -, hiff⟩ := pick?_nearest
    (a := ofGeneration (Blueprint.empty.addParameter Sample.expected).2.generation 0)
    hnode hvalue hs rfl hsingle rfl (Or.inl rfl) hg rfl
  have hh : h = 0 := by
    have := hleast 0 (Sample.mem_between.2 ⟨by norm_num, le_rfl⟩)
    rw [abs_zero] at this
    exact abs_eq_zero.1 (this.antisymm (abs_nonneg h))
  have hconn : (Sample.between (-1) 0).base.points.OrdConnected :=
    ⟨fun _ h _ h' _ hr => Sample.mem_between.2
      ⟨(Sample.mem_between.1 h).1.trans hr.1, hr.2.trans (Sample.mem_between.1 h').2⟩⟩
  refine ⟨_, _, rfl, hnode, hvalue, hs, rfl, hsingle, rfl, rfl, hg, rfl, c, hpick, ?_⟩
  refine (hiff hconn).2 fun r hr hother => ?_
  -- no admissible number lies on the other side of zero
  have hc0 := (Sample.mem_between.1 hc).1
  have hr0 := (Sample.mem_between.1 hr).1
  rw [hh] at hother
  rcases hother with h | h <;> linarith

theorem eq_of_isNumber {y : Except (SolveError Exact) (Option (Value Exact))} {x : Exact}
    (h : (match y with | .ok (some (.number z)) => decide (z = x) | _ => false) = true) :
    y = .ok (some (.number x)) := by
  split at h
  · rw [of_decide_eq_true h]
  · exact absurd h Bool.false_ne_true

/-- The number ten is admissible and expected, but eight is proposed. -/
theorem pick?_torn : Sample.torn.build.isOk ∧
    (((ofGeneration Sample.torn.generation 64).value? (.nth 0)).bind ValueSet.quantities?).any
      (·.base.contains 10) ∧ Sample.oneOrTen.contains 10 ∧
    (ofGeneration Sample.torn.generation 64).pick? (.nth 0) = .ok (some (.number 8)) :=
  ⟨by decide +kernel, by decide +kernel, by decide +kernel, eq_of_isNumber (by decide +kernel)⟩

end Analysis

end ParameterSolver
