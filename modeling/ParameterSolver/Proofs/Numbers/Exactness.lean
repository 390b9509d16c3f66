import ParameterSolver.Proofs.Exact.Number
import ParameterSolver.Proofs.Numbers.Maps
import ParameterSolver.Proofs.Numbers.Powers
import ParameterSolver.Proofs.Scalar.Reading

/-! Arithmetic of sets of numbers that do not round, point by point: the images of the intervals make
up the image of the sets. Exact numbers are such numbers; they are read as points of the extended real
line and ordered as these are. -/

namespace ParameterSolver

namespace Exact

open Scalar

protected theorem lt_trans {x y z : Exact} (h : x < y) (h' : y < z) : x < z := by
  cases x <;> cases y <;> cases z <;> simp_all
  exact h.trans h'

instance : Ordered Exact where
  beq_symm h := by
    rw [beq_iff] at h ⊢
    exact ⟨h.1.symm, h.1 ▸ h.2⟩
  beq_trans h h' := by
    rw [beq_iff] at h h' ⊢
    exact ⟨h.1.trans h'.1, h.2⟩
  lt_trans := Exact.lt_trans
  lt_asymm := Exact.lt_asymm
  lt_congr h h' hlt := by
    rw [beq_iff] at h h'
    rwa [← h.1, ← h'.1]
  numbers_of_lt {x y} h := by
    cases x <;> cases y <;> simp_all
  total {x y} hx hy := by
    cases x <;> cases y <;> simp_all
    exact lt_trichotomy _ _
  le_iff := by simp [Exact.le_iff]
  neg_lt_neg {x y} h := by
    cases x <;> cases y <;> simp_all
  neg_congr {x y} h := by
    cases x <;> cases y <;> simp_all
  le_infinity {x} h := by
    cases x <;> simp_all [Exact.le_iff]
  neg_infinity_le {x} h := by
    cases x <;> simp_all [Exact.le_iff]
  isFinite_zero := isFinite_iff.2 ⟨0, zero_eq⟩
  isFinite_one := isFinite_iff.2 ⟨1, one_eq⟩
  neg_one_le_one := by
    rw [one_eq, neg_finite, finite_le_finite]
    norm_num

/-- The point that an exact number stands for. -/
noncomputable def point : Exact → EReal
  | nan => 0
  | negInf => ⊥
  | finite q => ((q : ℝ) : EReal)
  | posInf => ⊤

noncomputable instance : Reading Exact where
  real := point
  real_lt_iff {x y} hx hy := by
    cases x <;> cases y <;> simp_all [point]
  real_infinity := rfl
  real_neg_infinity := rfl

theorem real_finite (q : ℚ) : Reading.real (finite q) = ((q : ℝ) : EReal) := rfl

theorem real_posInf : Reading.real posInf = ⊤ := rfl

theorem real_negInf : Reading.real negInf = ⊥ := rfl

/-- An infinity times a number that is not zero. -/
theorem posInf_mul_spec {x : Exact} (hx : x ≠ nan) (h : Reading.real x ≠ 0) :
    posInf * x ≠ nan ∧ Reading.real (posInf * x) = ⊤ * Reading.real x := by
  cases x with
  | nan => exact absurd rfl hx
  | negInf => simp [real_negInf]
  | posInf => simp [real_posInf]
  | finite q =>
    have hq : q ≠ 0 := by
      rintro rfl
      simp [real_finite] at h
    rw [posInf_mul, real_finite]
    rcases lt_or_gt_of_ne hq with hneg | hpos
    · rw [sign_of_neg hneg, EReal.top_mul_coe_of_neg (by exact_mod_cast hneg)]
      exact ⟨nofun, rfl⟩
    · rw [sign_of_pos hpos, EReal.top_mul_coe_of_pos (by exact_mod_cast hpos)]
      exact ⟨nofun, rfl⟩

theorem real_neg {x : Exact} (hx : x ≠ nan) :
    -x ≠ nan ∧ Reading.real (-x) = -Reading.real x := by
  cases x <;> simp_all [real_finite, real_posInf, real_negInf]

theorem infinite_mul_spec {x y : Exact} (hx : x = posInf ∨ x = negInf) (hy : y ≠ nan)
    (h : Reading.real y ≠ 0) :
    x * y ≠ nan ∧ Reading.real (x * y) = Reading.real x * Reading.real y := by
  have hpos := posInf_mul_spec hy h
  rcases hx with rfl | rfl
  · exact hpos
  · have hneg := real_neg hpos.1
    rw [← neg_posInf, Exact.neg_mul, hneg.2, hpos.2, neg_posInf, real_negInf, ← EReal.neg_top,
      EReal.neg_mul]
    exact ⟨hneg.1, rfl⟩

instance : Unrounded Exact where
  real_zero := by
    rw [zero_eq, real_finite]
    norm_num
  real_one := by
    rw [one_eq, real_finite]
    norm_num
  real_neg {x} hx := (real_neg (beq_iff.1 hx).2).2
  add {x y} hx hy h h' := by
    cases x <;> cases y <;> simp_all [real_finite, real_posInf, real_negInf]
  mul {x y} hx hy h := by
    have hmul : (x * y ≠ nan ∧ Reading.real (x * y) = Reading.real x * Reading.real y) →
        x * y == x * y ∧ Reading.real (x * y) = Reading.real x * Reading.real y := by simp
    have hinf {z : Exact} (hz : z == z) (hfin : ¬ ∃ q, z = finite q) : z = posInf ∨ z = negInf := by
      cases z <;> simp_all
    refine hmul ?_
    by_cases hfx : ∃ p, x = finite p
    · by_cases hfy : ∃ q, y = finite q
      · obtain ⟨p, rfl⟩ := hfx
        obtain ⟨q, rfl⟩ := hfy
        simp [real_finite, EReal.coe_mul]
      · rw [Exact.mul_comm, mul_comm (Reading.real x)]
        exact infinite_mul_spec (hinf hy hfy) (beq_iff.1 hx).2
          (h.resolve_left fun h => hfy (isFinite_iff.1 h.2)).1
    · exact infinite_mul_spec (hinf hx hfx) (beq_iff.1 hy).2
        (h.resolve_left fun h => hfx (isFinite_iff.1 h.1)).2
  inverse {x} hx h := by
    obtain ⟨q, rfl⟩ := isFinite_iff.1 hx
    have hq : q ≠ 0 := by
      rintro rfl
      simp [real_finite] at h
    rw [one_eq, finite_div_finite hq]
    simp [real_finite, EReal.coe_inv]

end Exact

open Scalar Scalar.Ordered Scalar.Reading

variable {α : Type} [Scalar α] [Ordered α] [Reading α]

namespace Numbers

variable {s t : Numbers α}

section Images

variable [Unrounded α] (hs : s.Canonical) (ht : t.Canonical)

include hs

theorem points_neg : s.neg.points = {r | ∃ p ∈ s.points, -p = r} :=
  points_map hs (fun _ hi _ hk => List.mem_singleton.1 hk ▸ hi.neg) fun i hi r => by
    simp only [List.mem_singleton, exists_eq_left, Interval.mem_neg_points hi]
    exact ⟨fun h => ⟨-r, h, neg_neg r⟩, fun ⟨p, hp, hpr⟩ => by rwa [← hpr, neg_neg]⟩

theorem points_abs : s.abs.points = {r | ∃ p ∈ s.points, |p| = r} :=
  points_map hs (fun _ hi _ hk => List.mem_singleton.1 hk ▸ hi.abs) fun i hi r => by
    simp only [List.mem_singleton, exists_eq_left, Interval.mem_abs_points hi]

theorem points_invert : s.invert.points = {r | ∃ p ∈ s.points, p ≠ 0 ∧ p⁻¹ = r} :=
  points_map hs (fun _ _ _ => Interval.proper_of_invert) fun i hi r => by
    rw [Interval.mem_invert_points hi]
    constructor
    · exact fun ⟨hr, h⟩ => ⟨r⁻¹, h, inv_ne_zero hr, inv_inv r⟩
    · rintro ⟨p, hp, hp0, rfl⟩
      exact ⟨inv_ne_zero hp0, by rwa [inv_inv]⟩

include ht

theorem points_add : Set.image2 (· + ·) s.points t.points ⊆ (s.add t).points ∧
    (s.intervals.length * t.intervals.length ≤ maxPairs →
      (s.add t).points = Set.image2 (· + ·) s.points t.points) :=
  points_pairwise hs ht (fun _ _ _ hk => Interval.proper_of_ofBounds? (Option.mem_toList.1 hk))
    fun i j hi hj r => by
      simp only [Option.mem_toList]
      exact Interval.mem_add?_points hi hj

theorem points_mul : Set.image2 (· * ·) s.points t.points ⊆ (s.mul t).points ∧
    (s.intervals.length * t.intervals.length ≤ maxPairs →
      (s.mul t).points = Set.image2 (· * ·) s.points t.points) :=
  points_pairwise hs ht (fun _ _ _ hk => Interval.proper_of_ofBounds? (Option.mem_toList.1 hk))
    fun i j hi hj r => by
      simp only [Option.mem_toList]
      exact Interval.mem_mul?_points hi hj

end Images

/-- Exact arithmetic gives exact images. For sets in normal form between rational or infinite ends,
negation, magnitude and inverse give the image, a power of an interval gives the powers, and sums and
products give all sums and products, and nothing else as long as the pairs of intervals are taken one
by one. The elements are the real numbers in between, for the squares of an interval have no gaps. -/
theorem points_of_arithmetic :
    (∀ s : Numbers Exact, s.Canonical →
      (∀ q : ℚ, .finite q ∈ s ↔ (q : ℝ) ∈ s.points) ∧
        (s.neg.Canonical ∧ s.neg.points = {r | ∃ p ∈ s.points, -p = r}) ∧
          (s.abs.Canonical ∧ s.abs.points = {r | ∃ p ∈ s.points, |p| = r}) ∧
            (s.invert.Canonical ∧ s.invert.points = {r | ∃ p ∈ s.points, p ≠ 0 ∧ p⁻¹ = r}) ∧
              (s.isEmpty → s.neg.isEmpty ∧ s.abs.isEmpty ∧ s.invert.isEmpty)) ∧
      (∀ (i : Interval Exact) (n : ℤ), i.Proper → (⟨i.powInt n⟩ : Numbers Exact).Canonical ∧
        (⟨i.powInt n⟩ : Numbers Exact).points =
          {r | ∃ p ∈ i.points, (n < 0 → p ≠ 0) ∧ p ^ n = r}) ∧
        ∀ s t : Numbers Exact, s.Canonical → t.Canonical →
          ((s.add t).Canonical ∧ (s.mul t).Canonical) ∧
            (Set.image2 (· + ·) s.points t.points ⊆ (s.add t).points ∧
              Set.image2 (· * ·) s.points t.points ⊆ (s.mul t).points) ∧
              (s.intervals.length * t.intervals.length ≤ 64 →
                (s.add t).points = Set.image2 (· + ·) s.points t.points ∧
                  (s.mul t).points = Set.image2 (· * ·) s.points t.points) ∧
                (s.isEmpty ∨ t.isEmpty → (s.add t).isEmpty ∧ (s.mul t).isEmpty) := by
  refine ⟨fun s hs => ⟨fun q => ?_, ⟨hs.neg, points_neg hs⟩, ⟨hs.abs, points_abs hs⟩,
    ⟨hs.invert, points_invert hs⟩, fun h => ⟨isEmpty_map h, isEmpty_map h, isEmpty_map h⟩⟩,
    fun i n hi => ⟨Interval.canonical_powInt, ?_⟩, fun s t hs ht => ⟨⟨canonical_add, canonical_mul⟩,
      ⟨(points_add hs ht).1, (points_mul hs ht).1⟩,
      fun h => ⟨(points_add hs ht).2 h, (points_mul hs ht).2 h⟩,
      fun h => ⟨isEmpty_pairwise h, isEmpty_pairwise h⟩⟩⟩
  · exact mem_iff_mem_points hs.proper (Exact.isFinite_iff.2 ⟨q, rfl⟩) rfl
  · ext r
    exact Interval.mem_powInt_points hi

/-- Around zero a product has corners on both sides, and zero itself has no inverse. -/
theorem points_of_arithmetic_around_zero :
    (closed (-1) 2 : Numbers Exact).Canonical ∧ (closed (-1) 2 : Numbers Exact).isEmpty = false ∧
      ((closed (-1) 2 : Numbers Exact).mul (closed (-1) 2)).points =
        Set.image2 (· * ·) (closed (-1) 2 : Numbers Exact).points
          (closed (-1) 2 : Numbers Exact).points ∧
      (closed (-1) 2 : Numbers Exact).invert.points =
        {r | ∃ p ∈ (closed (-1) 2 : Numbers Exact).points, p ≠ 0 ∧ p⁻¹ = r} := by
  have hs : (closed (-1) 2 : Numbers Exact).Canonical :=
    canonical_ofInterval? fun _ => Interval.proper_of_ofBounds?
  refine ⟨hs, by decide +kernel, ?_, ?_⟩
  · exact ((points_of_arithmetic.2.2 _ _ hs hs).2.2.1 (by decide +kernel)).2
  · exact (points_of_arithmetic.1 _ hs).2.2.2.1.2

end Numbers

end ParameterSolver
