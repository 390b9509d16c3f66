import Mathlib.Algebra.Order.Field.Basic
import Mathlib.Algebra.Order.Ring.Abs
import Mathlib.Tactic.Positivity
import ParameterSolver.Interval.Arithmetic
import ParameterSolver.Proofs.Exact.Interval

/-! Images of intervals of exact numbers. Each function of intervals holds the values that the
function takes on the elements, so none of them loses a value. -/

namespace ParameterSolver

open Exact

namespace Bound

variable {a b : Bound Exact} {q r : ℚ}

theorem Below.add (ha : a.Below q) (hb : b.Below r) :
    (⟨a.value + b.value, a.closed && b.closed⟩ : Bound Exact).Below (q + r) := by
  obtain ⟨a, c⟩ := a
  obtain ⟨b, d⟩ := b
  cases a <;> cases b <;> simp_all
  rcases ha with ha | ⟨rfl, hc⟩ <;> rcases hb with hb | ⟨rfl, hd⟩
  · exact Or.inl (by linarith)
  · exact Or.inl (by linarith)
  · exact Or.inl (by linarith)
  · exact Or.inr ⟨rfl, hc, hd⟩

theorem Above.add (ha : a.Above q) (hb : b.Above r) :
    (⟨a.value + b.value, a.closed && b.closed⟩ : Bound Exact).Above (q + r) := by
  obtain ⟨a, c⟩ := a
  obtain ⟨b, d⟩ := b
  cases a <;> cases b <;> simp_all
  rcases ha with ha | ⟨rfl, hc⟩ <;> rcases hb with hb | ⟨rfl, hd⟩
  · exact Or.inl (by linarith)
  · exact Or.inl (by linarith)
  · exact Or.inl (by linarith)
  · exact Or.inr ⟨rfl, hc, hd⟩

end Bound

namespace Interval

variable {i j : Interval Exact} {q r : ℚ}

theorem mem_add? (hi : finite q ∈ i) (hj : finite r ∈ j) :
    ∃ k ∈ i.add? j, finite (q + r) ∈ k := by
  rw [mem_iff] at hi hj
  exact mem_ofBounds?.2 ⟨hi.1.add hj.1, hi.2.add hj.2⟩

theorem Valid.neg (h : i.Valid) : i.neg.Valid := by
  obtain ⟨hf, hl, hh⟩ := valid_iff.1 h
  obtain ⟨⟨a, c⟩, ⟨b, d⟩⟩ := i
  refine valid_iff.2 ?_
  cases a <;> cases b <;> simp_all [Fits, Bound.normalized, Interval.neg, Bound.neg]
  rcases hf with hf | ⟨rfl, hc, hd⟩
  · exact Or.inl hf
  · exact Or.inr ⟨rfl, hd, hc⟩

theorem mem_neg : finite q ∈ i.neg ↔ finite (-q) ∈ i := by
  simp [mem_iff, Interval.neg, and_comm]

/-! Products. The factors' ends are combined in four corners; which corner bounds a product from
below is decided by the signs of the factors, and an upper bound of `q * r` is a lower bound of
`-q * r`. -/

theorem mulCorner_finite (a b : ℚ) (c d : Bool) :
    mulCorner ⟨finite a, c⟩ ⟨finite b, d⟩ =
      ⟨finite (a * b), (decide (a = 0) && c) || (decide (b = 0) && d) || (c && d)⟩ := by
  by_cases ha : a = 0 <;> by_cases hb : b = 0 <;>
    simp [mulCorner, Bound.normalized, zero_eq, ha, hb, BEq.beq]

theorem mulCorner_comm (a b : Bound Exact) : mulCorner a b = mulCorner b a := by
  simp only [mulCorner, Exact.mul_comm b.value, Bool.or_comm (b.value == 0), Bool.and_comm b.closed,
    Bool.or_comm ((b.value == 0) && b.closed)]

theorem mulCorner_neg (a b : Bound Exact) : mulCorner a.neg b = (mulCorner a b).neg := by
  have hz : (-a.value == 0) = (a.value == 0) := by
    rw [Bool.eq_iff_iff, zero_eq]
    cases a.value <;> simp
  have hn : ∀ c : Bound Exact, c.neg.normalized = c.normalized.neg := by
    rintro ⟨c, d⟩
    cases c <;> simp [Bound.normalized, Bound.neg]
  rw [mulCorner, mulCorner, ← hn]
  simp only [Bound.neg, hz, Exact.neg_mul]
  split <;> simp [zero_eq]

variable {a b : Bound Exact}

theorem mulCorner_below_iff {p : ℚ} (ha : a.value ≠ finite 0) (hb : b.value ≠ finite 0) :
    (mulCorner a b).Below p ↔
      (⟨a.value * b.value, a.closed && b.closed⟩ : Bound Exact).Below p := by
  have ha' : (a.value == 0) = false := by rw [Bool.eq_false_iff, zero_eq]; simp [ha]
  have hb' : (b.value == 0) = false := by rw [Bool.eq_false_iff, zero_eq]; simp [hb]
  simp [mulCorner, ha', hb']

theorem mulCorner_ne_nan (ha : a.value ≠ nan) (hb : b.value ≠ nan) :
    (mulCorner a b).value ≠ nan := by
  simp only [mulCorner, Bound.normalized_value]
  split
  · simp [zero_eq]
  · rename_i h
    cases ha' : a.value <;> cases hb' : b.value <;> simp_all [zero_eq, sign, infinite] <;> grind

/-- A negative end and a positive one have a negative product. -/
theorem mulCorner_below_of_signs {p : ℚ} (ha : a.value < finite 0) (hb : finite 0 < b.value)
    (hp : 0 ≤ p) : (mulCorner a b).Below p := by
  obtain ⟨a, c⟩ := a
  obtain ⟨b, d⟩ := b
  rw [mulCorner_below_iff (by rintro rfl; simp at ha) (by rintro rfl; simp at hb)]
  cases a <;> cases b <;> simp_all [sign_of_neg, sign_of_pos]
  exact Or.inl (lt_of_lt_of_le (mul_neg_of_neg_of_pos ha hb) hp)

theorem mulCorner_below_of_neg_pos (ha : a.Below q) (hb : b.Above r) (hq : q < 0) (hr : 0 < r) :
    (mulCorner a b).Below (q * r) := by
  have hp : q * r < 0 := mul_neg_of_neg_of_pos hq hr
  obtain ⟨a, c⟩ := a
  obtain ⟨b, d⟩ := b
  cases a with
  | nan => simp at ha
  | posInf => simp at ha
  | negInf =>
    cases b with
    | nan => simp at hb
    | negInf => simp at hb
    | posInf => rw [mulCorner_below_iff (by simp) (by simp)]; simp
    | finite b =>
      have h0 : 0 < b := lt_of_lt_of_le hr (hb.le rfl)
      rw [mulCorner_below_iff (by simp) (by simpa using h0.ne')]
      simp [sign_of_pos h0]
  | finite a =>
    have ha0 : a < 0 := lt_of_le_of_lt (ha.le rfl) hq
    cases b with
    | nan => simp at hb
    | negInf => simp at hb
    | posInf =>
      rw [mulCorner_below_iff (by simpa using ha0.ne) (by simp)]
      simp [sign_of_neg ha0]
    | finite b =>
      have hb0 : 0 < b := lt_of_lt_of_le hr (hb.le rfl)
      rw [mulCorner_below_iff (by simpa using ha0.ne) (by simpa using hb0.ne')]
      rw [Bound.below_finite] at ha
      rw [Bound.above_finite] at hb
      simp only [finite_mul_finite, Bound.below_finite, Bool.and_eq_true]
      rcases ha with ha | ⟨rfl, hc⟩ <;> rcases hb with hb | ⟨rfl, hd⟩
      · exact Or.inl (by nlinarith)
      · exact Or.inl (by nlinarith)
      · exact Or.inl (by nlinarith)
      · exact Or.inr ⟨rfl, hc, hd⟩

theorem mulCorner_below_of_nonneg {x y : ℚ} (ha : a.Below q) (hb : b.Below r)
    (hx : a.value = finite x) (hy : b.value = finite y) (h : 0 ≤ y) (hq : 0 < q) (hr : 0 < r) :
    (mulCorner a b).Below (q * r) := by
  obtain ⟨a, c⟩ := a
  obtain ⟨b, d⟩ := b
  subst hx hy
  rw [mulCorner_finite]
  rw [Bound.below_finite] at *
  rcases ha with ha | ⟨rfl, hc⟩ <;> rcases hb with hb | ⟨rfl, hd⟩
  · exact Or.inl (by nlinarith)
  · exact Or.inl (by nlinarith)
  · exact Or.inl (by nlinarith)
  · exact Or.inr ⟨rfl, by simp [hc, hd]⟩

/-- An interval has a negative lower end, a positive upper end, or zero only. -/
theorem Valid.sign_cases (hi : i.Valid) : i.lo.value < finite 0 ∨ finite 0 < i.hi.value ∨
    (i.lo = ⟨finite 0, true⟩ ∧ i.hi = ⟨finite 0, true⟩) := by
  obtain ⟨hf, -, -⟩ := valid_iff.1 hi
  obtain ⟨⟨a, c⟩, ⟨b, d⟩⟩ := i
  cases a <;> cases b <;> simp_all [Fits]
  rename_i a b
  rcases lt_trichotomy a 0 with h | rfl | h
  · exact Or.inl h
  · rcases hf with hf | ⟨rfl, hc, hd⟩
    · exact Or.inr (Or.inl hf)
    · exact Or.inr (Or.inr ⟨⟨rfl, hc⟩, rfl, hd⟩)
  · rcases hf with hf | ⟨rfl, -⟩
    · exact Or.inr (Or.inl (h.trans hf))
    · exact Or.inr (Or.inl h)

theorem mulCorner_zero (a : Bound Exact) : (mulCorner a ⟨finite 0, true⟩).Below 0 := by
  simp [mulCorner, zero_eq]

/-- With a factor zero some corner is negative, or zero and closed. -/
theorem exists_corner_below_zero (hi : i.Valid) (hr : finite 0 ∈ j) :
    ∃ a ∈ [i.lo, i.hi], ∃ b ∈ [j.lo, j.hi], (mulCorner a b).Below 0 := by
  obtain ⟨hl, hh⟩ := mem_iff.1 hr
  rcases hl with hl | ⟨hl, hc⟩
  · rcases hh with hh | ⟨hh, hd⟩
    · rcases hi.sign_cases with h | h | ⟨h, -⟩
      · exact ⟨i.lo, by simp, j.hi, by simp, mulCorner_below_of_signs h hh le_rfl⟩
      · refine ⟨i.hi, by simp, j.lo, by simp, ?_⟩
        rw [mulCorner_comm]
        exact mulCorner_below_of_signs hl h le_rfl
      · refine ⟨i.lo, by simp, j.lo, by simp, ?_⟩
        rw [h, mulCorner_comm]
        exact mulCorner_zero _
    · refine ⟨i.lo, by simp, j.hi, by simp, ?_⟩
      rw [show j.hi = ⟨finite 0, true⟩ from by rw [← hh, ← hd]]
      exact mulCorner_zero _
  · refine ⟨i.lo, by simp, j.lo, by simp, ?_⟩
    rw [show j.lo = ⟨finite 0, true⟩ from by rw [← hl, ← hc]]
    exact mulCorner_zero _

theorem exists_corner_below_of_pos (hi : i.Valid) (hj : j.Valid) (hq : finite q ∈ i)
    (hr : finite r ∈ j) (h0 : 0 < q) (h1 : 0 < r) :
    ∃ a ∈ [i.lo, i.hi], ∃ b ∈ [j.lo, j.hi], (mulCorner a b).Below (q * r) := by
  obtain ⟨hql, hqh⟩ := mem_iff.1 hq
  obtain ⟨hrl, hrh⟩ := mem_iff.1 hr
  have hp : 0 ≤ q * r := (mul_pos h0 h1).le
  by_cases hl : i.lo.value < finite 0
  · exact ⟨i.lo, by simp, j.hi, by simp, mulCorner_below_of_signs hl (hrh.lt_value h1) hp⟩
  by_cases hl' : j.lo.value < finite 0
  · refine ⟨i.hi, by simp, j.lo, by simp, ?_⟩
    rw [mulCorner_comm]
    exact mulCorner_below_of_signs hl' (hqh.lt_value h0) hp
  obtain h | ⟨x, hx⟩ := hi.lo_cases
  · simp [h] at hl
  obtain h | ⟨y, hy⟩ := hj.lo_cases
  · simp [h] at hl'
  rw [hy, finite_lt_finite, not_lt] at hl'
  exact ⟨i.lo, by simp, j.lo, by simp, mulCorner_below_of_nonneg hql hrl hx hy hl' h0 h1⟩

theorem mulCorner_neg_neg (a b : Bound Exact) : mulCorner a.neg b.neg = mulCorner a b := by
  have hn : ∀ c : Bound Exact, c.neg.neg = c := by
    rintro ⟨c, d⟩
    cases c <;> simp [Bound.neg]
  rw [mulCorner_neg, mulCorner_comm, mulCorner_neg, hn, mulCorner_comm]

/-- Some corner lies below the product. -/
theorem exists_corner_below (hi : i.Valid) (hj : j.Valid) (hq : finite q ∈ i)
    (hr : finite r ∈ j) :
    ∃ a ∈ [i.lo, i.hi], ∃ b ∈ [j.lo, j.hi], (mulCorner a b).Below (q * r) := by
  obtain ⟨hql, hqh⟩ := mem_iff.1 hq
  obtain ⟨hrl, hrh⟩ := mem_iff.1 hr
  rcases lt_trichotomy q 0 with h0 | rfl | h0
  · rcases lt_trichotomy r 0 with h1 | rfl | h1
    · obtain ⟨a, ha, b, hb, h⟩ := exists_corner_below_of_pos (i := i.neg) (j := j.neg)
        (q := -q) (r := -r) hi.neg hj.neg (by rwa [mem_neg, neg_neg]) (by rwa [mem_neg, neg_neg])
        (by linarith) (by linarith)
      rw [neg_mul_neg] at h
      simp only [Interval.neg, List.mem_cons, List.not_mem_nil, or_false] at ha hb
      rcases ha with rfl | rfl <;> rcases hb with rfl | rfl <;> rw [mulCorner_neg_neg] at h
      · exact ⟨i.hi, by simp, j.hi, by simp, h⟩
      · exact ⟨i.hi, by simp, j.lo, by simp, h⟩
      · exact ⟨i.lo, by simp, j.hi, by simp, h⟩
      · exact ⟨i.lo, by simp, j.lo, by simp, h⟩
    · rw [mul_zero]
      exact exists_corner_below_zero hi hr
    · exact ⟨i.lo, by simp, j.hi, by simp, mulCorner_below_of_neg_pos hql hrh h0 h1⟩
  · rw [zero_mul]
    obtain ⟨b, hb, a, ha, h⟩ := exists_corner_below_zero hj hq
    exact ⟨a, ha, b, hb, by rwa [mulCorner_comm]⟩
  · rcases lt_trichotomy r 0 with h1 | rfl | h1
    · refine ⟨i.hi, by simp, j.lo, by simp, ?_⟩
      rw [mulCorner_comm, mul_comm]
      exact mulCorner_below_of_neg_pos hrl hqh h1 h0
    · rw [mul_zero]
      exact exists_corner_below_zero hi hr
    · exact exists_corner_below_of_pos hi hj hq hr h0 h1

theorem exists_corner_above (hi : i.Valid) (hj : j.Valid) (hq : finite q ∈ i)
    (hr : finite r ∈ j) :
    ∃ a ∈ [i.lo, i.hi], ∃ b ∈ [j.lo, j.hi], (mulCorner a b).Above (q * r) := by
  obtain ⟨a, ha, b, hb, h⟩ := exists_corner_below (i := i.neg) (q := -q) hi.neg hj
    (by rwa [mem_neg, neg_neg]) hr
  simp only [Interval.neg, List.mem_cons, List.not_mem_nil, or_false] at ha
  rcases ha with rfl | rfl <;> rw [mulCorner_neg, Bound.below_neg, neg_mul, neg_neg] at h
  · exact ⟨i.hi, by simp, b, hb, h⟩
  · exact ⟨i.lo, by simp, b, hb, h⟩

theorem ofCorners?_mem {a b c d : Bound Exact} {p : ℚ} (ha : a.value ≠ nan) (hb : b.value ≠ nan)
    (hc : c.value ≠ nan) (hd : d.value ≠ nan) (hl : ∃ e ∈ [a, b, c, d], e.Below p)
    (hh : ∃ e ∈ [a, b, c, d], e.Above p) : ∃ k ∈ ofCorners? a b c d, finite p ∈ k := by
  have lo_ne : ∀ {x y : Bound Exact}, x.value ≠ nan → y.value ≠ nan →
      (x.lowest y).value ≠ nan := by
    intro x y hx hy
    rcases Bound.lowest_eq x y with h | h <;> rwa [h]
  have hi_ne : ∀ {x y : Bound Exact}, x.value ≠ nan → y.value ≠ nan →
      (x.highest y).value ≠ nan := by
    intro x y hx hy
    rcases Bound.highest_eq x y with h | h <;> rwa [h]
  rw [ofCorners?, mem_ofBounds?, Bound.below_lowest (lo_ne (lo_ne ha hb) hc) hd,
    Bound.below_lowest (lo_ne ha hb) hc, Bound.below_lowest ha hb,
    Bound.above_highest (hi_ne (hi_ne ha hb) hc) hd, Bound.above_highest (hi_ne ha hb) hc,
    Bound.above_highest ha hb]
  simpa [or_assoc] using And.intro hl hh

theorem mem_mul? (hi : i.Valid) (hj : j.Valid) (hq : finite q ∈ i) (hr : finite r ∈ j) :
    ∃ k ∈ i.mul? j, finite (q * r) ∈ k := by
  refine ofCorners?_mem (mulCorner_ne_nan hi.lo_ne_nan hj.lo_ne_nan)
    (mulCorner_ne_nan hi.lo_ne_nan hj.hi_ne_nan) (mulCorner_ne_nan hi.hi_ne_nan hj.lo_ne_nan)
    (mulCorner_ne_nan hi.hi_ne_nan hj.hi_ne_nan) ?_ ?_
  · obtain ⟨a, ha, b, hb, h⟩ := exists_corner_below hi hj hq hr
    simp only [List.mem_cons, List.not_mem_nil, or_false] at ha hb
    rcases ha with rfl | rfl <;> rcases hb with rfl | rfl <;> simp [h]
  · obtain ⟨a, ha, b, hb, h⟩ := exists_corner_above hi hj hq hr
    simp only [List.mem_cons, List.not_mem_nil, or_false] at ha hb
    rcases ha with rfl | rfl <;> rcases hb with rfl | rfl <;> simp [h]

/-! Inverses. On either side of zero inversion turns the order around. -/

theorem invertBound_finite {a : ℚ} {c : Bool} (h : a ≠ 0) :
    invertBound (⟨finite a, c⟩ : Bound Exact) = ⟨finite a⁻¹, c⟩ := by
  simp [invertBound, one_eq, h]

theorem invertBound_posInf (c : Bool) :
    invertBound (⟨posInf, c⟩ : Bound Exact) = ⟨finite 0, false⟩ := by
  simp [invertBound, zero_eq]

theorem invertBound_negInf (c : Bool) :
    invertBound (⟨negInf, c⟩ : Bound Exact) = ⟨finite 0, false⟩ := by
  simp [invertBound, zero_eq]

theorem invertBound_below (ha : a.Above q) (hq : 0 < q) : (invertBound a).Below q⁻¹ := by
  obtain ⟨a, c⟩ := a
  cases a with
  | nan => simp at ha
  | negInf => simp at ha
  | posInf => simp [invertBound_posInf, hq]
  | finite a =>
    have h0 : 0 < a := lt_of_lt_of_le hq (ha.le rfl)
    rw [invertBound_finite h0.ne', Bound.below_finite]
    rcases Bound.above_finite.1 ha with h | ⟨rfl, hc⟩
    · exact Or.inl (inv_strictAnti₀ hq h)
    · exact Or.inr ⟨rfl, hc⟩

theorem invertBound_above {x : ℚ} (ha : a.Below q) (hx : a.value = finite x) (h0 : 0 < x) :
    (invertBound a).Above q⁻¹ := by
  obtain ⟨a, c⟩ := a
  subst hx
  rw [invertBound_finite h0.ne', Bound.above_finite]
  rcases Bound.below_finite.1 ha with h | ⟨rfl, hc⟩
  · exact Or.inl (inv_strictAnti₀ h0 h)
  · exact Or.inr ⟨rfl, hc⟩

theorem invertBound_above_of_neg (ha : a.Below q) (hq : q < 0) : (invertBound a).Above q⁻¹ := by
  obtain ⟨a, c⟩ := a
  cases a with
  | nan => simp at ha
  | posInf => simp at ha
  | negInf => simp [invertBound_negInf, hq]
  | finite a =>
    have h0 : a < 0 := lt_of_le_of_lt (ha.le rfl) hq
    rw [invertBound_finite h0.ne, Bound.above_finite]
    rcases Bound.below_finite.1 ha with h | ⟨rfl, hc⟩
    · exact Or.inl ((inv_lt_inv_of_neg hq h0).2 h)
    · exact Or.inr ⟨rfl, hc⟩

theorem invertBound_below_of_neg {x : ℚ} (ha : a.Above q) (hx : a.value = finite x) (h0 : x < 0) :
    (invertBound a).Below q⁻¹ := by
  obtain ⟨a, c⟩ := a
  subst hx
  rw [invertBound_finite h0.ne, Bound.below_finite]
  rcases Bound.above_finite.1 ha with h | ⟨rfl, hc⟩
  · exact Or.inl ((inv_lt_inv_of_neg h0 (h.trans h0)).2 h)
  · exact Or.inr ⟨rfl, hc⟩

theorem mem_invert_of_pos (hi : i.Valid) (hq : finite q ∈ i) (h0 : 0 < q) :
    ∃ k ∈ i.invert, finite q⁻¹ ∈ k := by
  obtain ⟨hl, hh⟩ := mem_iff.1 hq
  have hpos : finite 0 < i.hi.value := hh.lt_value h0
  have hne : i.hi.value ≠ finite 0 := by intro h; simp [h] at hpos
  have hp : ∃ k ∈ ofBounds? (invertBound i.hi) ⟨Scalar.infinity, false⟩, finite q⁻¹ ∈ k :=
    mem_ofBounds?.2 ⟨invertBound_below hh h0, by simp⟩
  obtain ⟨k, hk, hqk⟩ := hp
  simp only [invert, zero_eq, Bool.and_eq_true, beq_iff, decide_eq_true_eq, hne, hpos, and_true,
    false_and, and_false, if_false]
  split_ifs with h1 h2
  · exact ⟨k, by simpa using Or.inr hk, hqk⟩
  · exact ⟨k, by simpa using hk, hqk⟩
  · rcases hi.lo_cases with h | ⟨x, hx⟩
    · simp [h] at h1
    · have hx0 : 0 < x := by
        rw [hx] at h1 h2
        simp only [finite_lt_finite, not_lt, finite.injEq, ne_eq, reduceCtorEq, not_false_eq_true,
          and_true] at h1 h2
        exact lt_of_le_of_ne h1 (Ne.symm h2)
      obtain ⟨k, hk, hqk⟩ := mem_ofBounds?.2 ⟨invertBound_below hh h0, invertBound_above hl hx hx0⟩
      exact ⟨k, by simpa using hk, hqk⟩

theorem mem_invert_of_neg (hi : i.Valid) (hq : finite q ∈ i) (h0 : q < 0) :
    ∃ k ∈ i.invert, finite q⁻¹ ∈ k := by
  obtain ⟨hl, hh⟩ := mem_iff.1 hq
  have hneg : i.lo.value < finite 0 := hl.value_lt h0
  have hne : i.lo.value ≠ finite 0 := by intro h; simp [h] at hneg
  have hp : ∃ k ∈ ofBounds? ⟨-Scalar.infinity, false⟩ (invertBound i.lo), finite q⁻¹ ∈ k :=
    mem_ofBounds?.2 ⟨by simp, invertBound_above_of_neg hl h0⟩
  obtain ⟨k, hk, hqk⟩ := hp
  simp only [invert, zero_eq, Bool.and_eq_true, beq_iff, decide_eq_true_eq, hne, hneg, true_and,
    false_and, if_false]
  split_ifs with h1 h2
  · exact ⟨k, by simpa using Or.inl hk, hqk⟩
  · exact ⟨k, by simpa using hk, hqk⟩
  · rcases hi.hi_cases with h | ⟨x, hx⟩
    · simp [h] at h1
    · have hx0 : x < 0 := by
        rw [hx] at h1 h2
        simp only [finite_lt_finite, not_lt, finite.injEq, ne_eq, reduceCtorEq, not_false_eq_true,
          and_true] at h1 h2
        exact lt_of_le_of_ne h1 h2
      obtain ⟨k, hk, hqk⟩ :=
        mem_ofBounds?.2 ⟨invertBound_below_of_neg hh hx hx0, invertBound_above_of_neg hl h0⟩
      exact ⟨k, by simpa using hk, hqk⟩

theorem mem_invert (hi : i.Valid) (hq : finite q ∈ i) (h0 : q ≠ 0) :
    ∃ k ∈ i.invert, finite q⁻¹ ∈ k := by
  rcases lt_or_gt_of_ne h0 with h | h
  · exact mem_invert_of_neg hi hq h
  · exact mem_invert_of_pos hi hq h

/-! Powers. An odd power keeps the order; an even one does where there is no sign, and turns it
around where there is one. -/

/-- An end with its value raised to a power. -/
def raised (a : Bound Exact) (n : ℤ) : Bound Exact := ⟨a.value.power n, a.closed⟩

theorem raise_eq (ha : a.value ≠ nan) (n : ℕ) : raise a n = raised a n := by
  rw [raise, raised, powInt_natCast ha]

theorem raised_finite {x : ℚ} {c : Bool} {n : ℕ} :
    raised ⟨finite x, c⟩ n = ⟨finite (x ^ n), c⟩ := by
  simp only [raised, power]
  split_ifs with h h'
  · simp_all
  · omega
  · simp

theorem raised_below_of_odd {n : ℕ} (hn : Odd n) (ha : a.Below q) : (raised a n).Below (q ^ n) := by
  obtain ⟨a, c⟩ := a
  cases a with
  | nan => simp at ha
  | posInf => simp at ha
  | negInf =>
    obtain ⟨m, rfl⟩ := hn
    simp only [raised, power]
    split_ifs with h1 h2 h3 <;> first | omega | simp
  | finite x =>
    rw [raised_finite, Bound.below_finite]
    rcases Bound.below_finite.1 ha with h | ⟨rfl, hc⟩
    · exact Or.inl (hn.strictMono_pow h)
    · exact Or.inr ⟨rfl, hc⟩

theorem raised_above_of_odd {n : ℕ} (hn : Odd n) (ha : a.Above q) : (raised a n).Above (q ^ n) := by
  obtain ⟨a, c⟩ := a
  cases a with
  | nan => simp at ha
  | negInf => simp at ha
  | posInf =>
    obtain ⟨m, rfl⟩ := hn
    simp only [raised, power]
    split_ifs with h1 h2 <;> first | omega | simp
  | finite x =>
    rw [raised_finite, Bound.above_finite]
    rcases Bound.above_finite.1 ha with h | ⟨rfl, hc⟩
    · exact Or.inl (hn.strictMono_pow h)
    · exact Or.inr ⟨rfl, hc⟩

theorem raised_below_of_nonneg {n : ℕ} {x : ℚ} (hn : n ≠ 0) (ha : a.Below q)
    (hx : a.value = finite x) (h0 : 0 ≤ x) : (raised a n).Below (q ^ n) := by
  obtain ⟨a, c⟩ := a
  subst hx
  rw [raised_finite, Bound.below_finite]
  rcases Bound.below_finite.1 ha with h | ⟨rfl, hc⟩
  · exact Or.inl (pow_lt_pow_left₀ h h0 hn)
  · exact Or.inr ⟨rfl, hc⟩

theorem raised_above_of_nonneg {n : ℕ} (hn : n ≠ 0) (ha : a.Above q) (h0 : 0 ≤ q) :
    (raised a n).Above (q ^ n) := by
  obtain ⟨a, c⟩ := a
  cases a with
  | nan => simp at ha
  | negInf => simp at ha
  | posInf =>
    simp only [raised, power]
    split_ifs with h1 h2 <;> first | omega | simp
  | finite x =>
    rw [raised_finite, Bound.above_finite]
    rcases Bound.above_finite.1 ha with h | ⟨rfl, hc⟩
    · exact Or.inl (pow_lt_pow_left₀ h h0 hn)
    · exact Or.inr ⟨rfl, hc⟩

theorem raised_neg {n : ℕ} (hn : Even n) (h0 : n ≠ 0) (ha : a.value ≠ nan) :
    raised a.neg n = raised a n := by
  obtain ⟨a, c⟩ := a
  have hn' : (n : ℤ) % 2 = 0 := by obtain ⟨m, rfl⟩ := hn; omega
  have hlt : ¬ (n : ℤ) < 0 := by omega
  cases a with
  | nan => exact absurd rfl ha
  | finite x => rw [Bound.neg, neg_finite, raised_finite, raised_finite, hn.neg_pow]
  | negInf => simp [raised, Bound.neg, power, hn', hlt]
  | posInf => simp [raised, Bound.neg, power, hn', hlt]

theorem raised_ne_nan {n : ℤ} (ha : a.value ≠ nan) : (raised a n).value ≠ nan := by
  obtain ⟨a, c⟩ := a
  simp only [raised, power]
  cases a <;> simp_all
  all_goals split_ifs <;> simp

theorem even_of_not {n : ℕ} {p : Prop} [Decidable p] (h : ¬ (n % 2 == 1 || decide p) = true) :
    Even n := by
  simp only [Bool.or_eq_true, beq_iff_eq, not_or] at h
  exact Nat.even_iff.2 (by omega)

theorem mem_powPositive? {n : ℕ} (hn : n ≠ 0) (hi : i.Valid) (hq : finite q ∈ i) :
    ∃ k ∈ i.powPositive? n, finite (q ^ n) ∈ k := by
  obtain ⟨hl, hh⟩ := mem_iff.1 hq
  have hl' := hi.lo_ne_nan
  have hh' := hi.hi_ne_nan
  unfold powPositive?
  rw [raise_eq hl', raise_eq hh', zero_eq]
  split_ifs with h1 h2
  · rw [mem_ofBounds?]
    rcases Nat.even_or_odd n with he | ho
    · have h0 : finite 0 ≤ i.lo.value := by
        simpa [Nat.even_iff.1 he] using h1
      rcases hi.lo_cases with h | ⟨x, hx⟩
      · simp [h, Exact.le_iff] at h0
      · rw [hx, finite_le_finite] at h0
        exact ⟨raised_below_of_nonneg hn hl hx h0,
          raised_above_of_nonneg hn hh (h0.trans (hl.le hx))⟩
    · exact ⟨raised_below_of_odd ho hl, raised_above_of_odd ho hh⟩
  · have he := even_of_not h1
    rcases hi.hi_cases with h | ⟨x, hx⟩
    · simp [h, Exact.le_iff] at h2
    · rw [hx, finite_le_finite] at h2
      have hq0 : q ≤ 0 := (hh.le hx).trans h2
      rw [mem_ofBounds?, ← raised_neg he hn hh', ← raised_neg he hn hl', ← he.neg_pow]
      refine ⟨raised_below_of_nonneg (x := -x) hn (by simpa using hh) (by simp [Bound.neg, hx])
        (by linarith), raised_above_of_nonneg hn (by simpa using hl) (by linarith)⟩
  · have he := even_of_not h1
    rw [mem_ofBounds?, Bound.above_highest (raised_ne_nan hl') (raised_ne_nan hh')]
    refine ⟨?_, ?_⟩
    · rw [Bound.below_finite]
      rcases eq_or_lt_of_le (he.pow_nonneg q) with h | h
      · exact Or.inr ⟨h, rfl⟩
      · exact Or.inl h
    · rcases le_total 0 q with h | h
      · exact Or.inr (raised_above_of_nonneg hn hh h)
      · left
        rw [← raised_neg he hn hl', ← he.neg_pow]
        exact raised_above_of_nonneg hn (by simpa using hl) (by linarith)

theorem valid_powPositive? {n : ℕ} {k : Interval Exact} (h : i.powPositive? n = some k) :
    k.Valid := by
  unfold powPositive? at h
  split_ifs at h <;> exact valid_of_ofBounds? h

theorem valid_invert {k : Interval Exact} (h : k ∈ i.invert) : k.Valid := by
  unfold invert at h
  dsimp only at h
  split_ifs at h <;> simp only [List.mem_append, Option.mem_toList, List.not_mem_nil] at h
  · rcases h with h | h <;> exact valid_of_ofBounds? h
  all_goals exact valid_of_ofBounds? h

theorem mem_powInt {n : ℤ} (hi : i.Valid) (hq : finite q ∈ i) (h0 : q ≠ 0 ∨ 0 ≤ n) :
    ∃ k ∈ i.powInt n, finite (q ^ n) ∈ k := by
  unfold powInt
  split_ifs with h1 h2
  · subst h1
    obtain ⟨k, hk, hqk⟩ : ∃ k ∈ singleton? (1 : Exact), finite 1 ∈ k := by
      rw [singleton?, closed?, mem_ofBounds?, one_eq]
      simp
    exact ⟨k, by simpa using hk, by simpa using hqk⟩
  · have hq0 : q ≠ 0 := h0.resolve_right (by omega)
    obtain ⟨k, hk, hqk⟩ := mem_powPositive? (n := n.natAbs) (by omega) hi hq
    obtain ⟨k', hk', hqk'⟩ := mem_invert (valid_powPositive? hk) hqk (pow_ne_zero _ hq0)
    refine ⟨k', List.mem_flatMap.2 ⟨k, by simpa using hk, hk'⟩, ?_⟩
    rwa [← zpow_natCast, ← zpow_neg, show -(n.natAbs : ℤ) = n by omega] at hqk'
  · obtain ⟨k, hk, hqk⟩ := mem_powPositive? (n := n.natAbs) (by omega) hi hq
    refine ⟨k, by simpa using hk, ?_⟩
    rwa [← zpow_natCast, show (n.natAbs : ℤ) = n by omega] at hqk

/-! An exponent too large for repeated squaring: only the part of the base without a sign counts,
and on it a power keeps or turns around the order as the exponent has no sign or has one. -/

theorem toInt?_intCast (n : ℤ) : Scalar.toInt? (finite n) = some n := by simp

theorem powCorner_eq (a : Bound Exact) (n : ℤ) :
    powCorner a ⟨finite n, true⟩ = (raised a n).normalized := by
  have h : Scalar.pow a.value (finite n) = a.value.power n := by
    change Exact.pow _ _ = _
    rw [Exact.pow, show Exact.toInt? (finite n) = some n from toInt?_intCast n]
  simp [powCorner, raised, h]

theorem raised_of_neg {x : ℚ} {c : Bool} {n : ℤ} (hn : n < 0) (hx : 0 < x) :
    raised ⟨finite x, c⟩ n = invertBound (raised ⟨finite x, c⟩ n.natAbs) := by
  have hp : x ^ n.natAbs ≠ 0 := pow_ne_zero _ hx.ne'
  rw [raised_finite, invertBound_finite hp, ← zpow_natCast, ← zpow_neg,
    show -(n.natAbs : ℤ) = n by omega]
  simp [raised, power, hn.ne, hx.ne']

theorem raised_below_of_neg {n : ℤ} (hn : n < 0) (ha : a.Above q) (hq : 0 < q) :
    (raised a n).Below (q ^ n) := by
  have hpow : q ^ n = (q ^ n.natAbs)⁻¹ := by
    rw [← zpow_natCast, ← zpow_neg, show -(n.natAbs : ℤ) = n by omega]
  obtain ⟨a, c⟩ := a
  cases a with
  | nan => simp at ha
  | negInf => simp at ha
  | posInf =>
    simp only [raised, power, hn.ne, hn, if_true, if_false, Bound.below_finite]
    exact Or.inl (zpow_pos hq n)
  | finite x =>
    have hx : 0 < x := lt_of_lt_of_le hq (ha.le rfl)
    rw [raised_of_neg hn hx, hpow]
    exact invertBound_below (raised_above_of_nonneg (by omega) ha hq.le) (pow_pos hq _)

theorem raised_above_of_neg {n : ℤ} {x : ℚ} (hn : n < 0) (ha : a.Below q)
    (hx : a.value = finite x) (h0 : 0 ≤ x) : (raised a n).Above (q ^ n) := by
  have hpow : q ^ n = (q ^ n.natAbs)⁻¹ := by
    rw [← zpow_natCast, ← zpow_neg, show -(n.natAbs : ℤ) = n by omega]
  obtain ⟨a, c⟩ := a
  subst hx
  rcases eq_or_lt_of_le h0 with rfl | h0
  · simp [raised, power, hn.ne, hn]
  · rw [raised_of_neg hn h0, hpow]
    have hb := raised_below_of_nonneg (n := n.natAbs) (by omega) ha rfl h0.le
    refine invertBound_above hb (x := x ^ n.natAbs) ?_ (pow_pos h0 _)
    rw [raised_finite]

/-- An interval without negative numbers starts at a number that is not negative. -/
theorem lo_of_nonneg (hi : i.Valid) (hq : finite q ∈ i) (h : ∀ p : ℚ, finite p ∈ i → 0 ≤ p) :
    ∃ x, i.lo.value = finite x ∧ 0 ≤ x := by
  obtain ⟨hl, hh⟩ := mem_iff.1 hq
  rcases hi.lo_cases with hlo | ⟨x, hx⟩
  · have hp : finite (min q 0 - 1) ∈ i := by
      refine mem_iff.2 ⟨by simp [hlo], hh.mono ?_⟩
      linarith [min_le_left q 0]
    linarith [h _ hp, min_le_right q 0]
  · refine ⟨x, hx, ?_⟩
    by_contra hneg
    rw [not_le] at hneg
    have hp : finite (x / 2) ∈ i := by
      refine mem_iff.2 ⟨Or.inl ?_, hh.mono (by linarith [h q hq])⟩
      rw [hx, finite_lt_finite]
      linarith
    linarith [h _ hp]

theorem mem_atLeast? {x : ℚ} : (∃ k ∈ atLeast? (finite x), finite q ∈ k) ↔ x ≤ q := by
  rw [atLeast?, mem_ofBounds?, le_iff_lt_or_eq]
  simp

/-- The part without a sign holds the numbers without a sign. -/
theorem mem_nonneg_part (hi : i.Valid) :
    (∃ k ∈ (atLeast? (0 : Exact)).bind i.inter?, finite q ∈ k) ↔ finite q ∈ i ∧ 0 ≤ q := by
  obtain ⟨k, hk, -⟩ := (mem_atLeast? (q := 0)).2 le_rfl
  have hv := valid_of_ofBounds? hk
  rw [zero_eq, show atLeast? (finite 0) = some k from hk, Option.bind_some, mem_inter? hi hv,
    ← mem_atLeast?]
  exact and_congr_right fun _ => ⟨fun h => ⟨k, hk, h⟩, fun ⟨k', hk', h⟩ => by
    rwa [show k = k' from Option.some.inj (hk.symm.trans hk')]⟩

theorem mem_pow_large {n : ℤ} (hn : n ≠ 0) {base : Interval Exact} (hi : base.Valid)
    (hq : finite q ∈ base) (h : ∀ p : ℚ, finite p ∈ base → 0 ≤ p) (h0 : q ≠ 0 ∨ 0 ≤ n) :
    ∃ k ∈ ofCorners? (powCorner base.lo ⟨finite n, true⟩) (powCorner base.lo ⟨finite n, true⟩)
      (powCorner base.hi ⟨finite n, true⟩) (powCorner base.hi ⟨finite n, true⟩),
      finite (q ^ n) ∈ k := by
  obtain ⟨hl, hh⟩ := mem_iff.1 hq
  obtain ⟨x, hx, hx0⟩ := lo_of_nonneg hi hq h
  have hq0 := h q hq
  have hl' : (powCorner base.lo ⟨finite n, true⟩).value ≠ nan := by
    rw [powCorner_eq, Bound.normalized_value]; exact raised_ne_nan hi.lo_ne_nan
  have hh' : (powCorner base.hi ⟨finite n, true⟩).value ≠ nan := by
    rw [powCorner_eq, Bound.normalized_value]; exact raised_ne_nan hi.hi_ne_nan
  refine ofCorners?_mem hl' hl' hh' hh' ?_ ?_
  all_goals
    simp only [powCorner_eq, List.mem_cons, List.not_mem_nil, or_false, exists_eq_or_imp,
      exists_eq_left, Bound.below_normalized, Bound.above_normalized]
  · rcases lt_or_gt_of_ne hn with hneg | hpos
    · have hq1 : 0 < q := lt_of_le_of_ne hq0 (h0.resolve_right (by omega)).symm
      exact Or.inr (Or.inr (Or.inl (raised_below_of_neg hneg hh hq1)))
    · lift n to ℕ using hpos.le
      rw [zpow_natCast]
      exact Or.inl (raised_below_of_nonneg (by omega) hl hx hx0)
  · rcases lt_or_gt_of_ne hn with hneg | hpos
    · exact Or.inl (raised_above_of_neg hneg hl hx hx0)
    · lift n to ℕ using hpos.le
      rw [zpow_natCast]
      exact Or.inr (Or.inr (Or.inl (raised_above_of_nonneg (by omega) hh hq0)))

/-- Powers with a single integer as exponent. A base with a sign needs an exponent that is small
enough to be taken for an integer. -/
theorem mem_pow {n : ℤ} (hi : i.Valid) (hq : finite q ∈ i) (h0 : q ≠ 0 ∨ 0 ≤ n)
    (hn : n.natAbs < 2147483647 ∨ 0 ≤ q) :
    ∃ k ∈ i.pow ⟨⟨finite n, true⟩, ⟨finite n, true⟩⟩, finite (q ^ n) ∈ k := by
  have hint : integer? (⟨⟨finite n, true⟩, ⟨finite n, true⟩⟩ : Interval Exact)
      = if n.natAbs < 2147483647 then some n else none := by
    simp only [integer?, isSingleton, toInt?_intCast]
    simp [Option.filter]
  unfold pow
  rw [hint]
  split_ifs with hs
  · exact mem_powInt hi hq h0
  · obtain ⟨base, hb, hqb⟩ := (mem_nonneg_part hi).2 ⟨hq, hn.resolve_left hs⟩
    have hv : base.Valid := by
      obtain ⟨k, -, hk⟩ := Option.bind_eq_some_iff.1 hb
      exact valid_of_ofBounds? hk
    rw [show (atLeast? (0 : Exact)).bind i.inter? = some base from hb]
    obtain ⟨k, hk, hqk⟩ := mem_pow_large (n := n) (by omega) hv hqb
      (fun p hp => ((mem_nonneg_part hi).1 ⟨base, hb, hp⟩).2) h0
    exact ⟨k, by simpa using hk, hqk⟩

theorem valid_pow {e k : Interval Exact} (h : k ∈ i.pow e) : k.Valid := by
  unfold pow at h
  split at h
  · rename_i n _
    unfold powInt at h
    split_ifs at h
    · exact valid_of_ofBounds? (by simpa [singleton?, closed?] using h)
    · obtain ⟨_, -, hk⟩ := List.mem_flatMap.1 h
      exact valid_invert hk
    · exact valid_powPositive? (by simpa using h)
  · split at h
    · simp at h
    · exact valid_of_ofBounds? (by simpa [ofCorners?] using h)

/-! Absolute values and rounding. -/

theorem mem_abs (hi : i.Valid) (hq : finite q ∈ i) : finite |q| ∈ i.abs := by
  obtain ⟨hl, hh⟩ := mem_iff.1 hq
  unfold Interval.abs
  rw [zero_eq]
  split_ifs with h1 h2
  · rcases hi.lo_cases with h | ⟨x, hx⟩
    · simp [h, Exact.le_iff] at h1
    · rw [hx, finite_le_finite] at h1
      rwa [abs_of_nonneg (h1.trans (hl.le hx))]
  · rcases hi.hi_cases with h | ⟨x, hx⟩
    · simp [h, Exact.le_iff] at h2
    · rw [hx, finite_le_finite] at h2
      rwa [abs_of_nonpos ((hh.le hx).trans h2), mem_neg, neg_neg]
  · have hne : i.lo.neg.value ≠ nan := by
      have := hi.lo_ne_nan
      rcases hi.lo_cases with h | ⟨x, hx⟩ <;> simp_all [Bound.neg]
    refine mem_iff.2 ⟨?_, (Bound.above_highest hi.hi_ne_nan hne).2 ?_⟩
    · rw [Bound.below_finite]
      rcases eq_or_lt_of_le (abs_nonneg q) with h | h
      · exact Or.inr ⟨h, rfl⟩
      · exact Or.inl h
    · rcases le_total 0 q with h | h
      · rw [abs_of_nonneg h]; exact Or.inl hh
      · rw [abs_of_nonpos h, Bound.above_neg, neg_neg]; exact Or.inr hl

theorem Valid.abs (hi : i.Valid) : i.abs.Valid := by
  obtain ⟨q, hq⟩ := hi.exists_mem
  have hm := mem_iff.1 (mem_abs hi hq)
  have hf : Fits i.abs.lo i.abs.hi := fits_of_mem hm.1 hm.2
  obtain ⟨-, hlo, hhi⟩ := valid_iff.1 hi
  have hneg := hi.neg
  unfold Interval.abs at hf ⊢
  split_ifs at hf ⊢
  · exact hi
  · exact hneg
  · refine valid_iff.2 ⟨hf, by simp [Bound.normalized, zero_eq], ?_⟩
    rcases Bound.highest_eq i.hi i.lo.neg with h | h
    · rw [h]; exact hhi
    · rw [h]; exact (valid_iff.1 hneg).2.2

/-- The nearest integer, a half goes up. -/
def nearest (q : ℚ) : ℤ := ⌊q + 1 / 2⌋

theorem roundHalfUp_finite (q : ℚ) : Scalar.roundHalfUp (finite q) = finite (nearest q) := by
  rw [Scalar.roundHalfUp, half_eq, finite_add_finite]
  rfl

theorem nearest_mono {p q : ℚ} (h : p ≤ q) : nearest p ≤ nearest q :=
  Int.floor_le_floor (by linarith)

/-- An open upper end that is half an integer is not rounded to by what lies below it. -/
theorem nearest_le_of_lt {y : ℚ} (h : q < y) (hy : (y + 1 / 2).den = 1) :
    nearest q ≤ nearest y - 1 := by
  have hm : ((y + 1 / 2).num : ℚ) = y + 1 / 2 := Rat.coe_int_num_of_den_eq_one hy
  have hn : nearest y = (y + 1 / 2).num := by rw [nearest, ← hm, Int.floor_intCast]; simp
  rw [hn]
  refine Int.le_sub_one_of_lt (Int.floor_lt.2 ?_)
  rw [hm]
  linarith

theorem roundHalfUp_lo (hi : i.Valid) (hq : finite q ∈ i) :
    Scalar.roundHalfUp i.lo.value = negInf ∨
      ∃ m : ℤ, Scalar.roundHalfUp i.lo.value = finite m ∧ m ≤ nearest q := by
  rcases hi.lo_cases with h | ⟨x, hx⟩
  · left
    rw [h, Scalar.roundHalfUp, half_eq]
    rfl
  · right
    rw [hx, roundHalfUp_finite]
    exact ⟨_, rfl, nearest_mono ((mem_iff.1 hq).1.le hx)⟩

/-- Where the rounded elements stop. -/
def roundedTop (i : Interval Exact) : Exact :=
  if !i.hi.closed && Scalar.isFinite i.hi.value && (Scalar.toInt? (i.hi.value + 0.5)).isSome then
    Scalar.roundHalfUp i.hi.value - 1
  else Scalar.roundHalfUp i.hi.value

theorem roundedTop_cases (hi : i.Valid) (hq : finite q ∈ i) :
    i.roundedTop = posInf ∨ ∃ m : ℤ, i.roundedTop = finite m ∧ nearest q ≤ m := by
  rcases hi.hi_cases with h | ⟨y, hy⟩
  · left
    rw [roundedTop, h, Scalar.roundHalfUp, half_eq, if_neg (by simp)]
    rfl
  · right
    rw [roundedTop, hy, half_eq, roundHalfUp_finite, finite_add_finite]
    split_ifs with h
    · simp only [Bool.and_eq_true, Bool.not_eq_true', toInt?_finite, Option.isSome_ite] at h
      refine ⟨nearest y - 1, by rw [one_eq, finite_sub_finite]; push_cast; rfl, ?_⟩
      rcases (mem_iff.1 hq).2 with hlt | ⟨-, hc⟩
      · rw [hy] at hlt
        exact nearest_le_of_lt hlt h.2
      · simp [hc] at h
    · exact ⟨_, rfl, nearest_mono ((mem_iff.1 hq).2.le hy)⟩

/-- Rounding the ends gives the ends of a range of integers with every rounded element in it. -/
theorem roundRange?_bounds (hi : i.Valid) (hq : finite q ∈ i) :
    ∃ a b, i.roundRange? = some (a, b) ∧ (a = negInf ∨ ∃ m : ℤ, a = finite m ∧ m ≤ nearest q) ∧
      (b = posInf ∨ ∃ m : ℤ, b = finite m ∧ nearest q ≤ m) := by
  have hlo := roundHalfUp_lo hi hq
  have htop := roundedTop_cases hi hq
  refine ⟨_, _, ?_, hlo, htop⟩
  have hle : Scalar.roundHalfUp i.lo.value ≤ i.roundedTop := by
    rcases hlo with h | ⟨m, h, hm⟩ <;> rcases htop with h' | ⟨m', h', hm'⟩
    · simp [h, h', Exact.le_iff]
    · simp [h, h', Exact.le_iff]
    · simp [h, h', Exact.le_iff]
    · rw [h, h', finite_le_finite]
      exact_mod_cast hm.trans hm'
  exact if_pos hle

end Interval

end ParameterSolver
