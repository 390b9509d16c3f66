import ParameterSolver.Proofs.Numbers.Images

/-! Magnitudes and inverses of intervals, point by point, over numbers that do not round. On the
positive and on the negative numbers the inverse turns the order around and takes infinity to zero, so
an interval around zero has its inverses in two pieces. -/

namespace ParameterSolver

open Scalar Scalar.Ordered Scalar.Reading Scalar.Unrounded

variable {α : Type} [Scalar α] [Ordered α] [Reading α] [Unrounded α] {r : ℝ}

namespace Scalar

variable {x : α}

theorem zero_le_iff (hx : x == x) : 0 ≤ x ↔ 0 ≤ real x := by
  rw [← real_le_iff (beq_of_isFinite isFinite_zero) hx, Unrounded.real_zero]

theorem le_zero_iff (hx : x == x) : x ≤ 0 ↔ real x ≤ 0 := by
  rw [← real_le_iff hx (beq_of_isFinite isFinite_zero), Unrounded.real_zero]

theorem zero_lt_iff (hx : x == x) : 0 < x ↔ 0 < real x := by
  rw [← real_lt_iff (beq_of_isFinite isFinite_zero) hx, Unrounded.real_zero]

theorem lt_zero_iff (hx : x == x) : x < 0 ↔ real x < 0 := by
  rw [← real_lt_iff hx (beq_of_isFinite isFinite_zero), Unrounded.real_zero]

theorem eq_zero_iff (hx : x == x) : x == 0 ↔ real x = 0 := by
  rw [← real_eq_iff hx (beq_of_isFinite isFinite_zero), Unrounded.real_zero]

end Scalar

namespace Bound

variable {b : Bound α} {v : ℝ}

omit [Ordered α] [Unrounded α] in
theorem under_coe (h : real b.value = v) : b.Under r ↔ v < r ∨ (r = v ∧ b.closed) := by
  rw [Under, h, EReal.coe_lt_coe_iff, EReal.coe_eq_coe_iff]

omit [Ordered α] [Unrounded α] in
theorem over_coe (h : real b.value = v) : b.Over r ↔ r < v ∨ (r = v ∧ b.closed) := by
  rw [Over, h, EReal.coe_lt_coe_iff, EReal.coe_eq_coe_iff]

omit [Ordered α] in
theorem under_zero {c : Bool} : (⟨0, c⟩ : Bound α).Under r ↔ 0 < r ∨ (r = 0 ∧ c) :=
  under_coe Unrounded.real_zero

omit [Ordered α] in
theorem over_zero {c : Bool} : (⟨0, c⟩ : Bound α).Over r ↔ r < 0 ∨ (r = 0 ∧ c) :=
  over_coe Unrounded.real_zero

end Bound

namespace Interval

variable {i k : Interval α} {b : Bound α}

omit [Unrounded α] in
theorem mem_toList_points {lo hi : Bound α} (hlo : lo.Placed) (hhi : hi.Placed) :
    (∃ i ∈ (ofBounds? lo hi).toList, r ∈ i.points) ↔ lo.Under r ∧ hi.Over r := by
  simp only [Option.mem_toList]
  exact mem_ofBounds?_points hlo hhi

omit [Unrounded α] in
theorem Proper.lo_le_hi (hi : i.Proper) : real i.lo.value ≤ real i.hi.value := by
  obtain ⟨p, hp⟩ := hi.exists_point
  exact (Bound.Under.le hp.1).trans (Bound.Over.le hp.2)

/-- The magnitudes of an interval are those of its elements. -/
theorem mem_abs_points (hi : i.Proper) : r ∈ i.abs.points ↔ ∃ p ∈ i.points, |p| = r := by
  unfold abs
  split_ifs with hlo hhi <;> rw [zero_le_iff hi.lo] at hlo <;> try rw [le_zero_iff hi.hi] at hhi
  · have hnonneg {p : ℝ} (hp : p ∈ i.points) : 0 ≤ p :=
      EReal.coe_nonneg.1 (hlo.trans (Bound.Under.le hp.1))
    constructor
    · exact fun hr => ⟨r, hr, abs_of_nonneg (hnonneg hr)⟩
    · rintro ⟨p, hp, rfl⟩
      rwa [abs_of_nonneg (hnonneg hp)]
  · have hnonpos {p : ℝ} (hp : p ∈ i.points) : p ≤ 0 :=
      EReal.coe_nonpos.1 ((Bound.Over.le hp.2).trans hhi)
    rw [mem_neg_points hi]
    constructor
    · intro hr
      exact ⟨-r, hr, by rw [abs_of_nonpos (hnonpos hr), neg_neg]⟩
    · rintro ⟨p, hp, rfl⟩
      rwa [abs_of_nonpos (hnonpos hp), neg_neg]
  · rw [not_le] at hlo hhi
    rw [mem_points, Bound.under_zero, Bound.over_highest hi.hi (Bound.placed_neg hi.lo),
      Bound.over_neg hi.lo]
    constructor
    · rintro ⟨h, hr | hr⟩
      · have hr0 : 0 ≤ r := h.elim le_of_lt fun h => h.1.ge
        exact ⟨r, ⟨Or.inl (hlo.trans_le (EReal.coe_nonneg.2 hr0)), hr⟩, abs_of_nonneg hr0⟩
      · have hr0 : 0 ≤ r := h.elim le_of_lt fun h => h.1.ge
        refine ⟨-r, ⟨hr, Or.inl (lt_of_le_of_lt ?_ hhi)⟩, by rw [abs_neg, abs_of_nonneg hr0]⟩
        exact EReal.coe_nonpos.2 (neg_nonpos.2 hr0)
    · rintro ⟨p, hp, rfl⟩
      refine ⟨(abs_nonneg p).lt_or_eq.imp_right fun h => ⟨h.symm, rfl⟩, ?_⟩
      rcases abs_choice p with h | h <;> rw [h]
      · exact Or.inl hp.2
      · exact Or.inr (by rw [neg_neg]; exact hp.1)

section Inverse

variable {b : Bound α} (hb : b.Placed)

include hb

theorem invertBound_of_real {v : ℝ} (h : real b.value = v) (h0 : v ≠ 0) :
    (invertBound b).Placed ∧ real (invertBound b).value = ((v⁻¹ : ℝ) : EReal) ∧
      (invertBound b).closed = b.closed := by
  have hfin : Scalar.isFinite b.value := (isFinite_iff_real hb).2 ⟨by simp [h], by simp [h]⟩
  obtain ⟨hplaced, hreal⟩ := Unrounded.inverse hfin (by simpa [h] using h0)
  rw [invertBound, if_neg (by simp [isInfinite_of_isFinite hfin])]
  exact ⟨hplaced, by rw [hreal, h, EReal.coe_inv], rfl⟩

omit [Unrounded α] in
theorem invertBound_of_infinite (h : real b.value = ⊤ ∨ real b.value = ⊥) :
    invertBound b = ⟨0, false⟩ := by
  rw [invertBound, if_pos ((isInfinite_iff_real hb).2 h)]

theorem placed_invertBound (h0 : real b.value ≠ 0) : (invertBound b).Placed := by
  by_cases h : real b.value = ⊤ ∨ real b.value = ⊥
  · rw [invertBound_of_infinite hb h]
    exact beq_of_isFinite isFinite_zero
  · rw [not_or] at h
    lift real b.value to ℝ using h with v hv
    exact (invertBound_of_real hb hv.symm (by simpa using h0)).1

/-- On either side of zero the inverse turns the order around. -/
theorem invertBound_iff (h : (0 < real b.value ∧ 0 < r) ∨ (real b.value < 0 ∧ r < 0)) :
    ((invertBound b).Under r ↔ b.Over r⁻¹) ∧ ((invertBound b).Over r ↔ b.Under r⁻¹) := by
  by_cases hinf : real b.value = ⊤ ∨ real b.value = ⊥
  · rw [invertBound_of_infinite hb hinf, Bound.under_zero, Bound.over_zero, Bound.Under,
      Bound.Over]
    rcases hinf with hinf | hinf <;> rw [hinf] at h ⊢
    · have hr := (h.resolve_right fun h => not_top_lt h.1).2
      simp [hr, hr.not_gt, EReal.coe_lt_top]
    · have hr := (h.resolve_left fun h => not_lt_bot h.1).2
      simp [hr, hr.not_gt, EReal.bot_lt_coe]
  · rw [not_or] at hinf
    obtain ⟨v, hv⟩ : ∃ v : ℝ, real b.value = v := ⟨_, (EReal.coe_toReal hinf.1 hinf.2).symm⟩
    rw [hv] at h
    have hv0 : v ≠ 0 := by
      rintro rfl
      simp at h
    obtain ⟨-, hreal, hclosed⟩ := invertBound_of_real hb hv hv0
    rw [Bound.under_coe hreal, Bound.over_coe hreal, Bound.under_coe hv, Bound.over_coe hv,
      hclosed, inv_eq_iff_eq_inv]
    rcases h with ⟨hpos, hr⟩ | ⟨hneg, hr⟩
    · rw [EReal.coe_pos] at hpos
      rw [inv_lt_comm₀ hpos hr, lt_inv_comm₀ hr hpos]
      exact ⟨Iff.rfl, Iff.rfl⟩
    · rw [EReal.coe_neg'] at hneg
      rw [inv_lt_of_neg hneg hr, lt_inv_of_neg hr hneg]
      exact ⟨Iff.rfl, Iff.rfl⟩

/-- The inverse of a positive end lies above zero. -/
theorem pos_of_under_invertBound (h : 0 < real b.value) (hr : (invertBound b).Under r) : 0 < r := by
  by_cases htop : real b.value = ⊤
  · have hzero : real (0 : α) = ((0 : ℝ) : EReal) := Unrounded.real_zero
    rw [invertBound_of_infinite hb (Or.inl htop), Bound.under_zero] at hr
    simpa using hr
  · lift real b.value to ℝ using ⟨htop, (EReal.bot_lt_zero.trans h).ne'⟩ with v hv
    have hpos : 0 < v := EReal.coe_pos.1 h
    have hle := hr.le
    rw [(invertBound_of_real hb hv.symm hpos.ne').2.1, EReal.coe_le_coe_iff] at hle
    exact (inv_pos.2 hpos).trans_le hle

theorem neg_of_over_invertBound (h : real b.value < 0) (hr : (invertBound b).Over r) : r < 0 := by
  by_cases hbot : real b.value = ⊥
  · have hzero : real (0 : α) = ((0 : ℝ) : EReal) := Unrounded.real_zero
    rw [invertBound_of_infinite hb (Or.inr hbot), Bound.over_zero] at hr
    simpa using hr
  · lift real b.value to ℝ using ⟨(h.trans EReal.zero_lt_top).ne, hbot⟩ with v hv
    have hneg : v < 0 := EReal.coe_neg'.1 h
    have hle := hr.le
    rw [(invertBound_of_real hb hv.symm hneg.ne).2.1, EReal.coe_le_coe_iff] at hle
    exact hle.trans_lt (inv_lt_zero.2 hneg)

end Inverse

/-- The inverses of the negative elements; those of the positive ones, if any, lie elsewhere. -/
theorem mem_negative (hi : i.Proper) (h : real i.lo.value < 0) :
    (∃ k ∈ (ofBounds? ⟨-infinity, false⟩ (invertBound i.lo)).toList, r ∈ k.points) ↔
      r < 0 ∧ i.lo.Under r⁻¹ := by
  have hbot : (⟨-infinity, false⟩ : Bound α).Placed := neg_congr number_infinity
  rw [mem_toList_points hbot (placed_invertBound hi.lo h.ne), Bound.Under, real_neg_infinity]
  constructor
  · rintro ⟨-, hr⟩
    have hr0 := neg_of_over_invertBound hi.lo h hr
    exact ⟨hr0, (invertBound_iff hi.lo (Or.inr ⟨h, hr0⟩)).2.1 hr⟩
  · rintro ⟨hr0, hr⟩
    exact ⟨Or.inl (EReal.bot_lt_coe r), (invertBound_iff hi.lo (Or.inr ⟨h, hr0⟩)).2.2 hr⟩

theorem mem_positive (hi : i.Proper) (h : 0 < real i.hi.value) :
    (∃ k ∈ (ofBounds? (invertBound i.hi) ⟨infinity, false⟩).toList, r ∈ k.points) ↔
      0 < r ∧ i.hi.Over r⁻¹ := by
  have htop : (⟨infinity, false⟩ : Bound α).Placed := number_infinity
  rw [mem_toList_points (placed_invertBound hi.hi h.ne') htop, Bound.Over, real_infinity]
  constructor
  · rintro ⟨hr, -⟩
    have hr0 := pos_of_under_invertBound hi.hi h hr
    exact ⟨hr0, (invertBound_iff hi.hi (Or.inl ⟨h, hr0⟩)).1.1 hr⟩
  · rintro ⟨hr0, hr⟩
    exact ⟨(invertBound_iff hi.hi (Or.inl ⟨h, hr0⟩)).1.2 hr, Or.inl (EReal.coe_lt_top r)⟩

/-- The inverses of an interval on one side of zero. -/
theorem mem_inverse_of_sign (hi : i.Proper) (h : 0 < real i.lo.value ∨ real i.hi.value < 0) :
    (∃ k ∈ (ofBounds? (invertBound i.hi) (invertBound i.lo)).toList, r ∈ k.points) ↔
      r ≠ 0 ∧ r⁻¹ ∈ i.points := by
  have hle := hi.lo_le_hi
  rw [mem_points]
  rcases h with hpos | hneg
  · have hpos' := hpos.trans_le hle
    rw [mem_toList_points (placed_invertBound hi.hi hpos'.ne') (placed_invertBound hi.lo hpos.ne')]
    constructor
    · rintro ⟨hr, hr'⟩
      have hr0 := pos_of_under_invertBound hi.hi hpos' hr
      exact ⟨hr0.ne', (invertBound_iff hi.lo (Or.inl ⟨hpos, hr0⟩)).2.1 hr',
        (invertBound_iff hi.hi (Or.inl ⟨hpos', hr0⟩)).1.1 hr⟩
    · rintro ⟨-, hr, hr'⟩
      have hr0 : 0 < r := inv_pos.1 (EReal.coe_pos.1 (hpos.trans_le hr.le))
      exact ⟨(invertBound_iff hi.hi (Or.inl ⟨hpos', hr0⟩)).1.2 hr',
        (invertBound_iff hi.lo (Or.inl ⟨hpos, hr0⟩)).2.2 hr⟩
  · have hneg' := hle.trans_lt hneg
    rw [mem_toList_points (placed_invertBound hi.hi hneg.ne) (placed_invertBound hi.lo hneg'.ne)]
    constructor
    · rintro ⟨hr, hr'⟩
      have hr0 := neg_of_over_invertBound hi.lo hneg' hr'
      exact ⟨hr0.ne, (invertBound_iff hi.lo (Or.inr ⟨hneg', hr0⟩)).2.1 hr',
        (invertBound_iff hi.hi (Or.inr ⟨hneg, hr0⟩)).1.1 hr⟩
    · rintro ⟨-, hr, hr'⟩
      have hr0 : r < 0 := inv_lt_zero.1 (EReal.coe_neg'.1 (hr'.le.trans_lt hneg))
      exact ⟨(invertBound_iff hi.hi (Or.inr ⟨hneg, hr0⟩)).1.2 hr',
        (invertBound_iff hi.lo (Or.inr ⟨hneg', hr0⟩)).2.2 hr⟩

/-- The pieces of the inverse hold the inverses of the elements other than zero. -/
theorem mem_invert_points (hi : i.Proper) :
    (∃ k ∈ i.invert, r ∈ k.points) ↔ r ≠ 0 ∧ r⁻¹ ∈ i.points := by
  have hle := hi.lo_le_hi
  have hover (hr : r < 0) (h : 0 ≤ real i.hi.value) : i.hi.Over r⁻¹ :=
    Or.inl ((EReal.coe_neg'.2 (inv_lt_zero.2 hr)).trans_le h)
  have hunder (hr : 0 < r) (h : real i.lo.value ≤ 0) : i.lo.Under r⁻¹ :=
    Or.inl (h.trans_lt (EReal.coe_pos.2 (inv_pos.2 hr)))
  unfold invert
  simp only [Bool.and_eq_true, eq_zero_iff hi.lo, eq_zero_iff hi.hi, lt_zero_iff hi.lo,
    zero_lt_iff hi.hi, decide_eq_true_eq]
  split_ifs with hzero hsides hhi hlo
  · refine iff_of_false (fun ⟨k, hk, _⟩ => List.not_mem_nil hk) fun ⟨hr, hmem⟩ => hr ?_
    have h1 := Bound.Under.le hmem.1
    have h2 := Bound.Over.le hmem.2
    rw [hzero.1, EReal.coe_nonneg] at h1
    rw [hzero.2, EReal.coe_nonpos] at h2
    exact inv_eq_zero.1 (h2.antisymm h1)
  · simp only [List.mem_append, or_and_right, exists_or, mem_negative hi hsides.1,
      mem_positive hi hsides.2]
    constructor
    · rintro (⟨hr, hmem⟩ | ⟨hr, hmem⟩)
      · exact ⟨hr.ne, hmem, hover hr hsides.2.le⟩
      · exact ⟨hr.ne', hunder hr hsides.1.le, hmem⟩
    · rintro ⟨hr, hmem⟩
      exact (lt_or_gt_of_ne hr).imp (fun hr => ⟨hr, hmem.1⟩) fun hr => ⟨hr, hmem.2⟩
  · rw [mem_negative hi (lt_of_le_of_ne (hhi ▸ hle) fun h => hzero ⟨h, hhi⟩)]
    constructor
    · exact fun ⟨hr, hmem⟩ => ⟨hr.ne, hmem, hover hr hhi.ge⟩
    · rintro ⟨hr, hmem⟩
      have hr' := Bound.Over.le hmem.2
      rw [hhi, EReal.coe_nonpos, inv_nonpos] at hr'
      exact ⟨lt_of_le_of_ne hr' hr, hmem.1⟩
  · rw [mem_positive hi (lt_of_le_of_ne (hlo ▸ hle) (Ne.symm hhi))]
    constructor
    · exact fun ⟨hr, hmem⟩ => ⟨hr.ne', hunder hr hlo.le, hmem⟩
    · rintro ⟨hr, hmem⟩
      have hr' := Bound.Under.le hmem.1
      rw [hlo, EReal.coe_nonneg, inv_nonneg] at hr'
      exact ⟨lt_of_le_of_ne hr' (Ne.symm hr), hmem.2⟩
  · refine mem_inverse_of_sign hi ?_
    rcases lt_or_gt_of_ne hlo with hneg | hpos
    · exact Or.inr (lt_of_le_of_ne (not_lt.1 fun h => hsides ⟨hneg, h⟩) hhi)
    · exact Or.inl hpos

omit [Reading α] [Unrounded α] in
theorem spaced_toList (o : Option (Interval α)) : Numbers.Spaced o.toList := by
  cases o with
  | none => exact List.Pairwise.nil
  | some i => exact List.pairwise_singleton ..

/-- The pieces of the inverse are in normal form: zero lies between them. -/
theorem canonical_invert (hi : i.Proper) : (⟨i.invert⟩ : Numbers α).Canonical := by
  refine Numbers.canonical_of_spaced (fun _ => proper_of_invert) ?_
  simp only [invert]
  split_ifs with hzero hsides
  · exact List.Pairwise.nil
  · rw [Bool.and_eq_true, decide_eq_true_eq, decide_eq_true_eq, lt_zero_iff hi.lo,
      zero_lt_iff hi.hi] at hsides
    refine List.pairwise_append.2 ⟨spaced_toList _, spaced_toList _, fun j hj k hk => ?_⟩
    obtain ⟨-, hplaced, -, -, -, rfl⟩ := mem_ofBounds?_iff.1 (Option.mem_toList.1 hj)
    obtain ⟨hplaced', -, -, -, -, rfl⟩ := mem_ofBounds?_iff.1 (Option.mem_toList.1 hk)
    refine (Spot.ofReal 0).lt_of_mem ((Bound.stop_normalized_mem_iff ..).2 (not_not.1 fun h => ?_))
      fun h => ?_
    · exact lt_irrefl 0 (neg_of_over_invertBound hi.lo hsides.1 ((Bound.over_iff hplaced).2 h))
    · exact lt_irrefl 0 (pos_of_under_invertBound hi.hi hsides.2 ((Bound.under_iff hplaced').2
        ((Bound.start_normalized_mem_iff ..).1 h)))
  · exact spaced_toList _
  · exact spaced_toList _
  · exact spaced_toList _

end Interval

end ParameterSolver
