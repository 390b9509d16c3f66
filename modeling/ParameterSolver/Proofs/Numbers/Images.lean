import ParameterSolver.Proofs.Numbers.Ends

/-! Images of intervals under arithmetic, point by point, over numbers that do not round. A sum and a
product are looked at through their corners: each is a limit of values, and every value lies between
two of them. A function of one argument takes the ends to the ends. -/

namespace ParameterSolver

open Scalar Scalar.Ordered Scalar.Reading Scalar.Unrounded

variable {α : Type} [Scalar α] [Ordered α] [Reading α] [Unrounded α] {r p q : ℝ} {S T : Set ℝ}

/-- The values of a function come near to what it would be at limits of its arguments. -/
theorem near_image2 {e e' : EReal} {f : EReal × EReal → EReal} {g : ℝ → ℝ → ℝ}
    (he : e ∈ closure (Real.toEReal '' S)) (he' : e' ∈ closure (Real.toEReal '' T))
    (hf : ContinuousAt f (e, e')) (hfg : ∀ r s : ℝ, f (r, s) = g r s) :
    f (e, e') ∈ closure (Real.toEReal '' Set.image2 g S T) := by
  have hclosure : (e, e') ∈ closure ((Real.toEReal '' S) ×ˢ (Real.toEReal '' T)) := by
    rw [closure_prod_eq]
    exact ⟨he, he'⟩
  refine closure_mono ?_ (hf.continuousWithinAt.mem_closure_image hclosure)
  rintro _ ⟨⟨_, _⟩, ⟨⟨r, hr, rfl⟩, s, hs, rfl⟩, rfl⟩
  exact ⟨g r s, ⟨r, hr, s, hs, rfl⟩, (hfg r s).symm⟩

namespace Bound

variable {a b : Bound α}

omit [Reading α] [Unrounded α] in
theorem placed_neg (hb : b.Placed) : b.neg.Placed := neg_congr hb

omit [Ordered α] in
theorem under_neg (hb : b.Placed) : b.neg.Under r ↔ b.Over (-r) := by
  rw [Under, Over, neg, Unrounded.real_neg hb, EReal.coe_neg, EReal.neg_lt_comm, eq_comm,
    neg_eq_iff_eq_neg, eq_comm]

omit [Ordered α] in
theorem over_neg (hb : b.Placed) : b.neg.Over r ↔ b.Under (-r) := by
  rw [Under, Over, neg, Unrounded.real_neg hb, EReal.coe_neg, EReal.lt_neg_comm, eq_comm,
    neg_eq_iff_eq_neg, eq_comm]

end Bound

namespace Interval

variable {i j : Interval α}

omit [Unrounded α] in
theorem Proper.lo_ne_top (hi : i.Proper) : real i.lo.value ≠ ⊤ := by
  obtain ⟨r, hr, -⟩ := hi.exists_point
  exact ((Bound.Under.le hr).trans_lt (EReal.coe_lt_top r)).ne

omit [Unrounded α] in
theorem Proper.hi_ne_bot (hi : i.Proper) : real i.hi.value ≠ ⊥ := by
  obtain ⟨r, -, hr⟩ := hi.exists_point
  exact ((EReal.bot_lt_coe r).trans_le (Bound.Over.le hr)).ne'

omit [Scalar α] [Ordered α] [Reading α] [Unrounded α] in
/-- A continuous function of two arguments leaves no gaps between its values. -/
theorem ordConnected_image2 {g : ℝ → ℝ → ℝ} (hg : Continuous fun p : ℝ × ℝ => g p.1 p.2)
    (hS : S.OrdConnected) (hT : T.OrdConnected) : (Set.image2 g S T).OrdConnected := by
  rw [← Set.image_prod]
  exact ((hS.isPreconnected.prod hT.isPreconnected).image _ hg.continuousOn).ordConnected

omit [Ordered α] in
theorem mem_neg_points (hi : i.Proper) : r ∈ i.neg.points ↔ -r ∈ i.points := by
  rw [mem_points, mem_points, neg, Bound.under_neg hi.hi, Bound.over_neg hi.lo, and_comm]

omit [Ordered α] in
theorem neg_mem_neg (hi : i.Proper) (h : p ∈ i.points) : -p ∈ i.neg.points :=
  (mem_neg_points hi).2 (by rwa [neg_neg])

section Sums

variable {a b : Bound α}

/-- The sum of two ends. -/
def sumEnd (a b : Bound α) : Bound α := ⟨a.value + b.value, a.closed && b.closed⟩

/-- Two ends that are not at opposite infinities. -/
structure Addable (a b : Bound α) : Prop where
  left : a.Placed
  right : b.Placed
  down : real a.value ≠ ⊤ ∨ real b.value ≠ ⊥
  up : real a.value ≠ ⊥ ∨ real b.value ≠ ⊤

omit [Ordered α] in
theorem Addable.add (h : Addable a b) :
    (sumEnd a b).Placed ∧ real (sumEnd a b).value = real a.value + real b.value :=
  Unrounded.add h.left h.right h.down h.up

omit [Ordered α] in
theorem Addable.touches (h : Addable a b) (hS : a.Touches S) (hT : b.Touches T) :
    (sumEnd a b).Touches (Set.image2 (· + ·) S T) := by
  refine ⟨?_, fun hclosed => ?_⟩
  · rw [h.add.2]
    exact near_image2 hS.near hT.near (EReal.continuousAt_add h.down h.up) fun r s =>
      (EReal.coe_add r s).symm
  · obtain ⟨hc, hc'⟩ := Bool.and_eq_true_iff.1 hclosed
    obtain ⟨r, hr, hr'⟩ := hS.reached hc
    obtain ⟨s, hs, hs'⟩ := hT.reached hc'
    exact ⟨r + s, ⟨r, hr, s, hs, rfl⟩, by rw [h.add.2, EReal.coe_add, hr', hs']⟩

omit [Ordered α] in
theorem Addable.under (h : Addable a b) (hp : a.Under p) (hq : b.Under q) :
    (sumEnd a b).Under (p + q) := by
  rw [Bound.Under, h.add.2, EReal.coe_add]
  rcases hp with hlt | ⟨heq, hc⟩
  · exact Or.inl (EReal.add_lt_add_of_lt_of_le' hlt hq.le (EReal.coe_ne_bot q)
      fun h => absurd h (EReal.coe_ne_top q))
  · rcases hq with hlt' | ⟨heq', hc'⟩
    · rw [← heq]
      exact Or.inl (EReal.add_lt_add_left_coe hlt' p)
    · exact Or.inr ⟨by rw [heq, heq'], Bool.and_eq_true_iff.2 ⟨hc, hc'⟩⟩

omit [Ordered α] in
theorem Addable.over (h : Addable a b) (hp : a.Over p) (hq : b.Over q) :
    (sumEnd a b).Over (p + q) := by
  rw [Bound.Over, h.add.2, EReal.coe_add]
  rcases hp with hlt | ⟨heq, hc⟩
  · exact Or.inl (EReal.add_lt_add_of_lt_of_le' hlt hq.le
      ((EReal.bot_lt_coe q).trans_le hq.le).ne' fun _ h => absurd h (EReal.coe_ne_top q))
  · rcases hq with hlt' | ⟨heq', hc'⟩
    · rw [← heq]
      exact Or.inl (EReal.add_lt_add_left_coe hlt' p)
    · exact Or.inr ⟨by rw [heq, heq'], Bool.and_eq_true_iff.2 ⟨hc, hc'⟩⟩

/-- The sum of two intervals is the interval of the sums. -/
theorem mem_add?_points (hi : i.Proper) (hj : j.Proper) :
    (∃ k ∈ i.add? j, r ∈ k.points) ↔ r ∈ Set.image2 (· + ·) i.points j.points := by
  have hlo : Addable i.lo j.lo := ⟨hi.lo, hj.lo, Or.inl hi.lo_ne_top, Or.inr hj.lo_ne_top⟩
  have hhi : Addable i.hi j.hi := ⟨hi.hi, hj.hi, Or.inr hj.hi_ne_bot, Or.inl hi.hi_ne_bot⟩
  refine (mem_ofBounds?_points hlo.add.1 hhi.add.1).trans ⟨fun ⟨h, h'⟩ => ?_, ?_⟩
  · exact (hlo.touches hi.touches.1 hj.touches.1).mem (hhi.touches hi.touches.2 hj.touches.2)
      (ordConnected_image2 continuous_add i.ordConnected_points j.ordConnected_points) h h'
  · rintro ⟨p, hp, q, hq, rfl⟩
    exact ⟨hlo.under hp.1 hq.1, hhi.over hp.2 hq.2⟩

end Sums

section Products

variable {a b : Bound α} {u v : ℝ} {e e' : EReal} {c d : Prop}

theorem beq_zero_iff {x : α} (hx : x == x) : x == 0 ↔ real x = 0 := by
  rw [← real_eq_iff hx (beq_of_isFinite isFinite_zero), Unrounded.real_zero]

/-- When the product of two ends is a value. -/
def Attained (a b : Bound α) : Prop :=
  (real a.value = 0 ∧ a.closed) ∨ (real b.value = 0 ∧ b.closed) ∨ (a.closed ∧ b.closed)

theorem exists_mulCorner_eq (ha : a.Placed) (hb : b.Placed) : ∃ e : Bound α,
    mulCorner a b = e.normalized ∧ e.Placed ∧ real e.value = real a.value * real b.value ∧
      (e.closed ↔ Attained a b) := by
  refine ⟨_, rfl, ?_⟩
  have hzero : (0 : α) == 0 := beq_of_isFinite isFinite_zero
  rw [Bound.Placed, Attained, ← beq_zero_iff ha, ← beq_zero_iff hb]
  refine ⟨?_, ?_, by simp [or_assoc]⟩ <;>
    simp only [Bool.or_eq_true, beq_zero_iff ha, beq_zero_iff hb] <;> split_ifs with h
  · exact hzero
  · exact (Unrounded.mul ha hb (Or.inr (not_or.1 h))).1
  · rw [Unrounded.real_zero]
    rcases h with h | h <;> simp [h]
  · exact (Unrounded.mul ha hb (Or.inr (not_or.1 h))).2

theorem placed_mulCorner (ha : a.Placed) (hb : b.Placed) : (mulCorner a b).Placed := by
  obtain ⟨e, he, hplaced, -⟩ := exists_mulCorner_eq ha hb
  exact he ▸ Bound.placed_normalized hplaced

theorem under_mulCorner (ha : a.Placed) (hb : b.Placed) : (mulCorner a b).Under r ↔
    real a.value * real b.value < r ∨ ((r : EReal) = real a.value * real b.value ∧ Attained a b) := by
  obtain ⟨e, he, hplaced, hreal, hclosed⟩ := exists_mulCorner_eq ha hb
  rw [he, Bound.under_normalized hplaced, Bound.Under, hreal, hclosed]

theorem over_mulCorner (ha : a.Placed) (hb : b.Placed) : (mulCorner a b).Over r ↔
    r < real a.value * real b.value ∨ ((r : EReal) = real a.value * real b.value ∧ Attained a b) := by
  obtain ⟨e, he, hplaced, hreal, hclosed⟩ := exists_mulCorner_eq ha hb
  rw [he, Bound.over_normalized hplaced, Bound.Over, hreal, hclosed]

/-- A corner with the sign of an end turned. -/
theorem under_mulCorner_neg (ha : a.Placed) (hb : b.Placed) :
    (mulCorner a.neg b).Under r ↔ (mulCorner a b).Over (-r) := by
  rw [under_mulCorner (Bound.placed_neg ha) hb, over_mulCorner ha hb, Bound.neg, Attained, Attained,
    Unrounded.real_neg ha, EReal.neg_mul, EReal.coe_neg, EReal.neg_lt_comm, EReal.neg_eq_zero_iff,
    eq_comm, neg_eq_iff_eq_neg, eq_comm]

theorem under_mulCorner_neg_neg (ha : a.Placed) (hb : b.Placed) :
    (mulCorner a.neg b.neg).Under r ↔ (mulCorner a b).Under r := by
  rw [under_mulCorner (Bound.placed_neg ha) (Bound.placed_neg hb), under_mulCorner ha hb, Bound.neg,
    Bound.neg, Attained, Attained, Unrounded.real_neg ha, Unrounded.real_neg hb, neg_mul_neg,
    EReal.neg_eq_zero_iff, EReal.neg_eq_zero_iff]

theorem touches_mulCorner (ha : a.Placed) (hb : b.Placed) (hS : a.Touches S) (hT : b.Touches T)
    (hS' : S.Nonempty) (hT' : T.Nonempty) : (mulCorner a b).Touches (Set.image2 (· * ·) S T) := by
  obtain ⟨e, he, hplaced, hreal, hclosed⟩ := exists_mulCorner_eq ha hb
  obtain ⟨s, hs⟩ := hS'
  obtain ⟨t, ht⟩ := hT'
  have hmem {f : ℝ} {U : Set ℝ} (hf : f ∈ U) : (f : EReal) ∈ closure (Real.toEReal '' U) :=
    subset_closure ⟨f, hf, rfl⟩
  have hmul : ∀ r s : ℝ, (r : EReal) * s = ((r * s : ℝ) : EReal) := fun r s =>
    (EReal.coe_mul r s).symm
  refine ⟨?_, fun hc => ?_⟩
  · rw [he, Bound.value_normalized, hreal]
    by_cases ha0 : real a.value = 0
    · -- the other factor may be infinite, so a value of it is taken instead
      have h := near_image2 hS.near (hmem ht) (EReal.continuousAt_mul (Or.inr (EReal.coe_ne_bot t))
        (Or.inr (EReal.coe_ne_top t)) (Or.inl (by simp [ha0])) (Or.inl (by simp [ha0]))) hmul
      simpa [ha0] using h
    · by_cases hb0 : real b.value = 0
      · have h := near_image2 (hmem hs) hT.near (EReal.continuousAt_mul (Or.inr (by simp [hb0]))
          (Or.inr (by simp [hb0])) (Or.inl (EReal.coe_ne_bot s)) (Or.inl (EReal.coe_ne_top s))) hmul
        simpa [hb0] using h
      · exact near_image2 hS.near hT.near (EReal.continuousAt_mul (Or.inl ha0) (Or.inl ha0)
          (Or.inr hb0) (Or.inr hb0)) hmul
  · rw [he, Bound.value_normalized, hreal]
    have hc' : e.closed := by
      rw [he, Bound.normalized] at hc
      split_ifs at hc
      exact hc
    rcases hclosed.1 hc' with ⟨ha0, hca⟩ | ⟨hb0, hcb⟩ | ⟨hca, hcb⟩
    · obtain ⟨r, hr, hr'⟩ := hS.reached hca
      exact ⟨r * t, ⟨r, hr, t, ht, rfl⟩, by rw [EReal.coe_mul, hr', ha0, zero_mul, zero_mul]⟩
    · obtain ⟨r, hr, hr'⟩ := hT.reached hcb
      exact ⟨s * r, ⟨s, hs, r, hr, rfl⟩, by rw [EReal.coe_mul, hr', hb0, mul_zero, mul_zero]⟩
    · obtain ⟨r, hr, hr'⟩ := hS.reached hca
      obtain ⟨q, hq, hq'⟩ := hT.reached hcb
      exact ⟨r * q, ⟨r, hr, q, hq, rfl⟩, by rw [EReal.coe_mul, hr', hq']⟩

/-- Below a product of a number that is not negative and a positive one lies the product of what
is below the factors. -/
theorem mul_under_of_nonneg (he : 0 ≤ e) (hp : e < p ∨ ((p : EReal) = e ∧ c))
    (hq : e' < q ∨ ((q : EReal) = e' ∧ d)) (h : 0 < q) : e * e' < (p * q : ℝ) ∨
      (((p * q : ℝ) : EReal) = e * e' ∧ ((e = 0 ∧ c) ∨ (e' = 0 ∧ d) ∨ (c ∧ d))) := by
  have hep : e ≤ p := hp.elim le_of_lt fun h => h.1.ge
  have heq : e' ≤ q := hq.elim le_of_lt fun h => h.1.ge
  lift e to ℝ using ⟨(hep.trans_lt (EReal.coe_lt_top p)).ne, (EReal.bot_lt_zero.trans_le he).ne'⟩
  rcases le_or_gt e' 0 with hneg | hpos
  · have hle : (e : EReal) * e' ≤ 0 := mul_nonpos_of_nonneg_of_nonpos he hneg
    norm_cast at he hep
    rcases (he.trans hep).lt_or_eq with hp0 | rfl
    · exact Or.inl (hle.trans_lt (by exact_mod_cast mul_pos hp0 h))
    · obtain rfl : e = 0 := hep.antisymm he
      exact Or.inr ⟨by simp, Or.inl ⟨rfl, (hp.resolve_left (lt_irrefl _)).2⟩⟩
  · lift e' to ℝ using ⟨(heq.trans_lt (EReal.coe_lt_top q)).ne, (EReal.bot_lt_zero.trans hpos).ne'⟩
    norm_cast at *
    rcases hp with hp | ⟨rfl, hc⟩
    · exact Or.inl ((mul_lt_mul_of_pos_right hp hpos).trans_le
        (mul_le_mul_of_nonneg_left heq (he.trans hep)))
    · rcases hq with hq | ⟨rfl, hd⟩
      · rcases he.lt_or_eq with he | rfl
        · exact Or.inl (mul_lt_mul_of_pos_left hq he)
        · exact Or.inr ⟨by simp, Or.inl ⟨rfl, hc⟩⟩
      · exact Or.inr ⟨rfl, Or.inr (Or.inr ⟨hc, hd⟩)⟩

/-- Below a product with a positive number lies the product of what is below zero and what is above
that number. -/
theorem mul_under_of_neg (he : e < 0) (hp : e < p ∨ ((p : EReal) = e ∧ c))
    (hq : q < e' ∨ ((q : EReal) = e' ∧ d)) (h : 0 < q) : e * e' < (p * q : ℝ) ∨
      (((p * q : ℝ) : EReal) = e * e' ∧ c ∧ d) := by
  have hpos : 0 < e' := (EReal.coe_pos.2 h).trans_le (hq.elim le_of_lt fun h => h.1.le)
  induction e with
  | bot =>
    rw [EReal.bot_mul_of_pos hpos]
    exact Or.inl (EReal.bot_lt_coe _)
  | top => exact absurd he not_top_lt
  | coe u =>
    induction e' with
    | bot => exact absurd hpos not_lt_bot
    | top =>
      rw [EReal.coe_mul_top_of_neg (EReal.coe_neg'.1 he)]
      exact Or.inl (EReal.bot_lt_coe _)
    | coe v =>
      norm_cast at *
      rcases hp with hp | ⟨rfl, hc⟩
      · refine Or.inl (lt_of_le_of_lt ?_ (mul_lt_mul_of_pos_right hp h))
        exact mul_le_mul_of_nonpos_left (hq.elim le_of_lt fun h => h.1.le) he.le
      · rcases hq with hq | ⟨rfl, hd⟩
        · exact Or.inl (mul_lt_mul_of_neg_left hq he)
        · exact Or.inr ⟨rfl, hc, hd⟩

variable (hi : i.Proper) (hj : j.Proper)

/-- An end of the interval. -/
def IsEnd (a : Bound α) (i : Interval α) : Prop := a = i.lo ∨ a = i.hi

omit [Ordered α] [Reading α] [Unrounded α] in
include hi in
theorem IsEnd.placed (h : IsEnd a i) : a.Placed := by
  rcases h with rfl | rfl
  · exact hi.lo
  · exact hi.hi

omit [Unrounded α] in
include hi in
theorem IsEnd.touches (h : IsEnd a i) : a.Touches i.points := by
  rcases h with rfl | rfl
  · exact hi.touches.1
  · exact hi.touches.2

omit [Ordered α] [Reading α] [Unrounded α] in
theorem isEnd_neg (h : IsEnd a i.neg) : ∃ e, IsEnd e i ∧ a = e.neg := by
  rcases h with rfl | rfl
  · exact ⟨i.hi, Or.inr rfl, rfl⟩
  · exact ⟨i.lo, Or.inl rfl, rfl⟩

include hi hj

theorem exists_under_of_pos (hp : p ∈ i.points) (hq : q ∈ j.points) (h : 0 < q) :
    ∃ a b, IsEnd a i ∧ IsEnd b j ∧ (mulCorner a b).Under (p * q) := by
  rcases le_or_gt 0 (real i.lo.value) with h0 | h0
  · exact ⟨i.lo, j.lo, Or.inl rfl, Or.inl rfl,
      (under_mulCorner hi.lo hj.lo).2 (mul_under_of_nonneg h0 hp.1 hq.1 h)⟩
  · refine ⟨i.lo, j.hi, Or.inl rfl, Or.inr rfl, (under_mulCorner hi.lo hj.hi).2 ?_⟩
    exact (mul_under_of_neg h0 hp.1 hq.2 h).imp_right fun h => ⟨h.1, Or.inr (Or.inr h.2)⟩

theorem exists_under_zero (hq : (0 : ℝ) ∈ j.points) :
    ∃ a b, IsEnd a i ∧ IsEnd b j ∧ (mulCorner a b).Under 0 := by
  -- an end of `j` at zero is closed, and then any corner with it will do
  by_cases hlo : real j.lo.value = 0
  · have hclosed := (hq.1.resolve_left (by simp [hlo])).2
    exact ⟨i.lo, j.lo, Or.inl rfl, Or.inl rfl, (under_mulCorner hi.lo hj.lo).2
      (Or.inr ⟨by simp [hlo], Or.inr (Or.inl ⟨hlo, hclosed⟩)⟩)⟩
  by_cases hhi : real j.hi.value = 0
  · have hclosed := (hq.2.resolve_left (by simp [hhi])).2
    exact ⟨i.lo, j.hi, Or.inl rfl, Or.inr rfl, (under_mulCorner hi.lo hj.hi).2
      (Or.inr ⟨by simp [hhi], Or.inr (Or.inl ⟨hhi, hclosed⟩)⟩)⟩
  have hneg : real j.lo.value < 0 := lt_of_le_of_ne (Bound.Under.le hq.1) hlo
  have hpos : 0 < real j.hi.value := lt_of_le_of_ne (Bound.Over.le hq.2) (Ne.symm hhi)
  by_cases hends : ∃ a, IsEnd a i ∧ real a.value ≠ 0
  · obtain ⟨a, ha, ha0⟩ := hends
    rcases lt_or_gt_of_ne ha0 with h | h
    · refine ⟨a, j.hi, ha, Or.inr rfl, (under_mulCorner (ha.placed hi) hj.hi).2 (Or.inl ?_)⟩
      exact EReal.mul_neg_iff.2 (Or.inr ⟨h, hpos⟩)
    · refine ⟨a, j.lo, ha, Or.inl rfl, (under_mulCorner (ha.placed hi) hj.lo).2 (Or.inl ?_)⟩
      exact EReal.mul_neg_iff.2 (Or.inl ⟨h, hneg⟩)
  · -- zero is the only element of `i`
    have hzero (a : Bound α) (ha : IsEnd a i) : real a.value = 0 :=
      by_contra fun h => hends ⟨a, ha, h⟩
    have hlo0 := hzero i.lo (Or.inl rfl)
    have hroom := hi.room.resolve_left fun h => by
      have := (real_lt_iff hi.lo hi.hi).2 h
      simp [hlo0, hzero i.hi (Or.inr rfl)] at this
    exact ⟨i.lo, j.lo, Or.inl rfl, Or.inl rfl, (under_mulCorner hi.lo hj.lo).2
      (Or.inr ⟨by simp [hlo0], Or.inl ⟨hlo0, hroom.2.1⟩⟩)⟩

theorem exists_under (hp : p ∈ i.points) (hq : q ∈ j.points) :
    ∃ a b, IsEnd a i ∧ IsEnd b j ∧ (mulCorner a b).Under (p * q) := by
  rcases lt_trichotomy q 0 with h | rfl | h
  · obtain ⟨a, b, ha, hb, hunder⟩ := exists_under_of_pos hi.neg hj.neg (neg_mem_neg hi hp)
      (neg_mem_neg hj hq) (neg_pos.2 h)
    obtain ⟨a', ha', rfl⟩ := isEnd_neg ha
    obtain ⟨b', hb', rfl⟩ := isEnd_neg hb
    rw [under_mulCorner_neg_neg (ha'.placed hi) (hb'.placed hj), neg_mul_neg] at hunder
    exact ⟨a', b', ha', hb', hunder⟩
  · rw [mul_zero]
    exact exists_under_zero hi hj hq
  · exact exists_under_of_pos hi hj hp hq h

theorem exists_over (hp : p ∈ i.points) (hq : q ∈ j.points) :
    ∃ a b, IsEnd a i ∧ IsEnd b j ∧ (mulCorner a b).Over (p * q) := by
  obtain ⟨a, b, ha, hb, hunder⟩ := exists_under hi.neg hj (neg_mem_neg hi hp) hq
  obtain ⟨a', ha', rfl⟩ := isEnd_neg ha
  rw [under_mulCorner_neg (ha'.placed hi) (hb.placed hj), neg_mul, neg_neg] at hunder
  exact ⟨a', b, ha', hb, hunder⟩

/-- The product of two intervals is the interval of the products. -/
theorem mem_mul?_points :
    (∃ k ∈ i.mul? j, r ∈ k.points) ↔ r ∈ Set.image2 (· * ·) i.points j.points := by
  have hcorner {a b : Bound α} (ha : IsEnd a i) (hb : IsEnd b j) : mulCorner a b ∈
      [mulCorner i.lo j.lo, mulCorner i.lo j.hi, mulCorner i.hi j.lo, mulCorner i.hi j.hi] := by
    rcases ha with rfl | rfl <;> rcases hb with rfl | rfl <;> simp
  have htouch {a b : Bound α} (ha : IsEnd a i) (hb : IsEnd b j) : (mulCorner a b).Placed ∧
      (mulCorner a b).Touches (Set.image2 (· * ·) i.points j.points) :=
    ⟨placed_mulCorner (ha.placed hi) (hb.placed hj), touches_mulCorner (ha.placed hi)
      (hb.placed hj) (ha.touches hi) (hb.touches hj) hi.exists_point hj.exists_point⟩
  refine mem_ofCorners?_iff ?_ (ordConnected_image2 continuous_mul i.ordConnected_points
    j.ordConnected_points) ?_ ?_
  · simp only [List.forall_mem_cons, List.not_mem_nil, false_imp_iff, implies_true, and_true]
    exact ⟨htouch (Or.inl rfl) (Or.inl rfl), htouch (Or.inl rfl) (Or.inr rfl),
      htouch (Or.inr rfl) (Or.inl rfl), htouch (Or.inr rfl) (Or.inr rfl)⟩
  · rintro _ ⟨p, hp, q, hq, rfl⟩
    obtain ⟨a, b, ha, hb, h⟩ := exists_under hi hj hp hq
    exact ⟨_, hcorner ha hb, h⟩
  · rintro _ ⟨p, hp, q, hq, rfl⟩
    obtain ⟨a, b, ha, hb, h⟩ := exists_over hi hj hp hq
    exact ⟨_, hcorner ha hb, h⟩

end Products

end Interval

end ParameterSolver
