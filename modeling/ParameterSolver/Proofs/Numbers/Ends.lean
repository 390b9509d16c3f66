import Mathlib.Topology.Algebra.Order.Group
import Mathlib.Topology.Instances.EReal.Lemmas
import Mathlib.Topology.Order.DenselyOrdered
import Mathlib.Topology.Order.IntermediateValue
import ParameterSolver.Numbers.Arithmetic
import ParameterSolver.Proofs.Numbers.Points
import ParameterSolver.Proofs.Scalar.Reading

/-! Ends of intervals against real numbers. An end holds back the numbers on one side of it, and it
touches a set whose numbers come as near to it as one likes, and reach it if it is closed. An interval
between ends that touch a set without gaps has no number that the set lacks; what remains to be shown
of an image is that no number of it lies outside the ends. -/

namespace ParameterSolver

open Scalar Scalar.Ordered Scalar.Reading

variable {α : Type} [Scalar α] [Reading α] {x y : α} {r s : ℝ} {S T : Set ℝ}

namespace Scalar

variable [Ordered α]

theorem real_eq_iff (hx : x == x) (hy : y == y) : real x = real y ↔ x == y := by
  rw [← place_eq_iff_real hx hy, place_eq_iff hx hy]

theorem real_le_iff (hx : x == x) (hy : y == y) : real x ≤ real y ↔ x ≤ y := by
  rw [le_iff_lt_or_eq, real_lt_iff hx hy, real_eq_iff hx hy, le_iff]

theorem isInfinite_iff_real (hx : x == x) : isInfinite x ↔ real x = ⊤ ∨ real x = ⊥ := by
  rw [isInfinite, Bool.or_eq_true, ← real_eq_iff hx number_infinity,
    ← real_eq_iff hx (neg_congr number_infinity), real_infinity, real_neg_infinity]

theorem isFinite_iff_real (hx : x == x) : isFinite x ↔ real x ≠ ⊤ ∧ real x ≠ ⊥ := by
  rw [← not_or, ← isInfinite_iff_real hx, isInfinite_iff hx, not_not]

end Scalar

namespace Bound

variable {a b : Bound α}

/-- The real number lies above the lower end `b`. -/
def Under (b : Bound α) (r : ℝ) : Prop :=
  real b.value < r ∨ ((r : EReal) = real b.value ∧ b.closed)

/-- The real number lies below the upper end `b`. -/
def Over (b : Bound α) (r : ℝ) : Prop :=
  (r : EReal) < real b.value ∨ ((r : EReal) = real b.value ∧ b.closed)

theorem Under.le (h : b.Under r) : real b.value ≤ r := h.elim le_of_lt fun h => h.1.ge

theorem Over.le (h : b.Over r) : (r : EReal) ≤ real b.value := h.elim le_of_lt fun h => h.1.le

theorem Under.mono (h : b.Under r) (hle : r ≤ s) : b.Under s := by
  rcases hle.lt_or_eq with hlt | rfl
  · exact Or.inl (h.le.trans_lt (EReal.coe_lt_coe_iff.2 hlt))
  · exact h

theorem Over.mono (h : b.Over r) (hle : s ≤ r) : b.Over s := by
  rcases hle.lt_or_eq with hlt | rfl
  · exact Or.inl ((EReal.coe_lt_coe_iff.2 hlt).trans_le h.le)
  · exact h

/-- The end comes as near to the numbers of the set as one likes; a closed one is among them. -/
structure Touches (b : Bound α) (S : Set ℝ) : Prop where
  near : real b.value ∈ closure ((fun r : ℝ => (r : EReal)) '' S)
  reached : b.closed → ∃ r ∈ S, (r : EReal) = real b.value

theorem Touches.exists_le (h : b.Touches S) (hr : b.Under r) : ∃ s ∈ S, s ≤ r := by
  rcases hr with hlt | ⟨heq, hclosed⟩
  · obtain ⟨_, hlt', s, hs, rfl⟩ := mem_closure_iff.1 h.near _ isOpen_Iio hlt
    exact ⟨s, hs, (EReal.coe_lt_coe_iff.1 hlt').le⟩
  · obtain ⟨s, hs, hs'⟩ := h.reached hclosed
    exact ⟨s, hs, (EReal.coe_eq_coe_iff.1 (hs'.trans heq.symm)).le⟩

theorem Touches.exists_ge (h : b.Touches S) (hr : b.Over r) : ∃ s ∈ S, r ≤ s := by
  rcases hr with hlt | ⟨heq, hclosed⟩
  · obtain ⟨_, hlt', s, hs, rfl⟩ := mem_closure_iff.1 h.near _ isOpen_Ioi hlt
    exact ⟨s, hs, (EReal.coe_lt_coe_iff.1 hlt').le⟩
  · obtain ⟨s, hs, hs'⟩ := h.reached hclosed
    exact ⟨s, hs, (EReal.coe_eq_coe_iff.1 (hs'.trans heq.symm)).ge⟩

/-- A set without gaps holds what lies between two ends that touch it. -/
theorem Touches.mem (ha : a.Touches S) (hb : b.Touches S) (hS : S.OrdConnected) (h : a.Under r)
    (h' : b.Over r) : r ∈ S := by
  obtain ⟨s, hs, hle⟩ := ha.exists_le h
  obtain ⟨t, ht, hle'⟩ := hb.exists_ge h'
  exact hS.out hs ht ⟨hle, hle'⟩

variable [Ordered α]

theorem under_iff (hb : b.Placed) : b.Under r ↔ b.start ∈ (Spot.ofReal r : Spot α).passed := by
  rw [start, Spot.mem_ofReal_iff hb, Prod.Lex.toLex_le_toLex, Under]
  cases b.closed <;> simp [eq_comm]

theorem over_iff (hb : b.Placed) : b.Over r ↔ b.stop ∉ (Spot.ofReal r : Spot α).passed := by
  rw [stop, Spot.mem_ofReal_iff hb, not_le, Prod.Lex.toLex_lt_toLex, Over]
  cases b.closed <;> simp

omit [Reading α] [Ordered α] in
theorem placed_normalized (hb : b.Placed) : b.normalized.Placed := by
  rw [Placed, value_normalized]
  exact hb

theorem under_normalized (hb : b.Placed) : b.normalized.Under r ↔ b.Under r := by
  rw [under_iff (placed_normalized hb), under_iff hb, start_normalized_mem_iff]

theorem over_normalized (hb : b.Placed) : b.normalized.Over r ↔ b.Over r := by
  rw [over_iff (placed_normalized hb), over_iff hb, stop_normalized_mem_iff]

omit [Reading α] [Ordered α] in
theorem placed_lowest (ha : a.Placed) (hb : b.Placed) : (lowest a b).Placed := by
  rcases Interval.lowest_cases a b with h | h <;> rw [h] <;> assumption

omit [Reading α] [Ordered α] in
theorem placed_highest (ha : a.Placed) (hb : b.Placed) : (highest a b).Placed := by
  rcases Interval.highest_cases a b with h | h <;> rw [h] <;> assumption

theorem under_lowest (ha : a.Placed) (hb : b.Placed) :
    (lowest a b).Under r ↔ a.Under r ∨ b.Under r := by
  rw [under_iff (placed_lowest ha hb), start_lowest ha hb, Spot.min_mem_iff, under_iff ha,
    under_iff hb]

theorem over_highest (ha : a.Placed) (hb : b.Placed) :
    (highest a b).Over r ↔ a.Over r ∨ b.Over r := by
  rw [over_iff (placed_highest ha hb), stop_highest ha hb, Spot.max_mem_iff, not_and_or, over_iff ha,
    over_iff hb]

end Bound

namespace Interval

variable {i : Interval α}

theorem mem_points : r ∈ i.points ↔ i.lo.Under r ∧ i.hi.Over r := Iff.rfl

theorem ordConnected_points (i : Interval α) : i.points.OrdConnected :=
  ⟨fun _ h _ h' _ hr => ⟨Bound.Under.mono h.1 hr.1, Bound.Over.mono h'.2 hr.2⟩⟩

variable [Ordered α] {lo hi : Bound α} {a b c d : Bound α}

theorem mem_ofBounds?_points (hlo : lo.Placed) (hhi : hi.Placed) :
    (∃ i ∈ ofBounds? lo hi, r ∈ i.points) ↔ lo.Under r ∧ hi.Over r := by
  rw [Bound.under_iff hlo, Bound.over_iff hhi, ← exists_holds_ofBounds?_iff hlo hhi]
  exact exists_congr fun i => and_congr_right fun h => mem_points_iff (proper_of_ofBounds? h)

theorem mem_inter?_points {j : Interval α} (hi : i.Proper) (hj : j.Proper) :
    (∃ k ∈ i.inter? j, r ∈ k.points) ↔ r ∈ i.points ∧ r ∈ j.points := by
  rw [mem_points_iff hi, mem_points_iff hj, ← exists_holds_inter?_iff hi hj]
  exact exists_congr fun k => and_congr_right fun hk => mem_points_iff (proper_of_inter? hk)

/-- The interval between four corners holds what lies above one of them and below one. -/
theorem mem_ofCorners?_points (h : ∀ e ∈ [a, b, c, d], e.Placed) :
    (∃ i ∈ ofCorners? a b c d, r ∈ i.points) ↔
      (∃ e ∈ [a, b, c, d], e.Under r) ∧ ∃ e ∈ [a, b, c, d], e.Over r := by
  simp only [List.forall_mem_cons, List.not_mem_nil, false_imp_iff, implies_true, and_true] at h
  obtain ⟨ha, hb, hc, hd⟩ := h
  have hlow := Bound.placed_lowest (Bound.placed_lowest ha hb) hc
  have hhigh := Bound.placed_highest (Bound.placed_highest ha hb) hc
  rw [ofCorners?, mem_ofBounds?_points (Bound.placed_lowest hlow hd) (Bound.placed_highest hhigh hd),
    Bound.under_lowest hlow hd, Bound.under_lowest (Bound.placed_lowest ha hb) hc,
    Bound.under_lowest ha hb, Bound.over_highest hhigh hd,
    Bound.over_highest (Bound.placed_highest ha hb) hc, Bound.over_highest ha hb]
  simp [or_assoc]

/-- Four corners that touch a set without gaps, and between which it lies, make an interval of it. -/
theorem mem_ofCorners?_iff (h : ∀ e ∈ [a, b, c, d], e.Placed ∧ e.Touches S)
    (hS : S.OrdConnected) (hle : ∀ s ∈ S, ∃ e ∈ [a, b, c, d], e.Under s)
    (hge : ∀ s ∈ S, ∃ e ∈ [a, b, c, d], e.Over s) :
    (∃ i ∈ ofCorners? a b c d, r ∈ i.points) ↔ r ∈ S := by
  rw [mem_ofCorners?_points fun e he => (h e he).1]
  constructor
  · rintro ⟨⟨e, he, hr⟩, e', he', hr'⟩
    exact (h e he).2.mem (h e' he').2 hS hr hr'
  · exact fun hr => ⟨hle r hr, hge r hr⟩

omit [Ordered α] in
/-- Between the ends of an interval nothing is missing. -/
theorem Ioo_subset (i : Interval α) :
    Set.Ioo (real i.lo.value) (real i.hi.value) ⊆ (fun r : ℝ => (r : EReal)) '' i.points := by
  rintro e ⟨hlo, hhi⟩
  refine ⟨e.toReal, ?_, EReal.coe_toReal hhi.ne_top hlo.ne_bot⟩
  rw [mem_points, Bound.Under, Bound.Over, EReal.coe_toReal hhi.ne_top hlo.ne_bot]
  exact ⟨Or.inl hlo, Or.inl hhi⟩

theorem Proper.exists_real (hi : i.Proper) {b : Bound α} (hb : b = i.lo ∨ b = i.hi)
    (h : b.closed) : ∃ r : ℝ, real b.value = r := by
  refine exists_real_of_isFinite (by_contra fun hinf => ?_)
  rcases hb with rfl | rfl
  · simpa [h] using hi.loOpen ((isInfinite_iff hi.lo).2 hinf)
  · simpa [h] using hi.hiOpen ((isInfinite_iff hi.hi).2 hinf)

theorem Proper.touches (hi : i.Proper) : i.lo.Touches i.points ∧ i.hi.Touches i.points := by
  have hreached : (i.lo.closed → ∃ r ∈ i.points, (r : EReal) = real i.lo.value) ∧
      (i.hi.closed → ∃ r ∈ i.points, (r : EReal) = real i.hi.value) := by
    constructor
    · intro hc
      obtain ⟨r, hr⟩ := hi.exists_real (Or.inl rfl) hc
      refine ⟨r, ⟨Or.inr ⟨hr.symm, hc⟩, ?_⟩, hr.symm⟩
      rw [← hr, real_lt_iff hi.lo hi.hi, real_eq_iff hi.lo hi.hi]
      exact hi.room.imp_right fun h => ⟨h.1, h.2.2⟩
    · intro hc
      obtain ⟨r, hr⟩ := hi.exists_real (Or.inr rfl) hc
      refine ⟨r, ⟨?_, Or.inr ⟨hr.symm, hc⟩⟩, hr.symm⟩
      rw [← hr, real_lt_iff hi.lo hi.hi, eq_comm, real_eq_iff hi.lo hi.hi]
      exact hi.room.imp_right fun h => ⟨h.1, h.2.1⟩
  rcases hi.room with hlt | ⟨-, hlo, hhi⟩
  · have hreal := (real_lt_iff hi.lo hi.hi).2 hlt
    have hclosure := closure_mono i.Ioo_subset
    rw [closure_Ioo hreal.ne] at hclosure
    exact ⟨⟨hclosure (Set.left_mem_Icc.2 hreal.le), hreached.1⟩,
      ⟨hclosure (Set.right_mem_Icc.2 hreal.le), hreached.2⟩⟩
  · exact ⟨⟨subset_closure (hreached.1 hlo), hreached.1⟩, ⟨subset_closure (hreached.2 hhi), hreached.2⟩⟩

end Interval

end ParameterSolver
