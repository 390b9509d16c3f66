import Mathlib.Data.List.Sort
import Mathlib.Order.MinMax
import Mathlib.Order.UpperLower.Principal
import ParameterSolver.Numbers.Basic
import ParameterSolver.Proofs.Numbers.Settled
import ParameterSolver.Proofs.Scalar.Ordered

/-! Ends of intervals as cuts of the line. An end at a number cuts just before it or just after it,
according to its side and to whether it is closed; so every interval is a half-open stretch between
two cuts, two intervals touch when their cuts do, and the two sides of an end are one cut. A spot of
the line is told by the cuts before it, so that what is said of spots is said of numbers and of what
lies between them. -/

namespace ParameterSolver

open Scalar Scalar.Ordered

variable {α : Type} [Scalar α] [Ordered α] {x : α}

/-- The cuts, just before a place (`false`) and just after it (`true`). -/
abbrev Cut (α : Type) [Scalar α] [Ordered α] : Type := Place α ×ₗ Bool

/-- The cut just before a number. -/
def cutBefore (x : α) : Cut α := toLex (place x, false)

/-- A spot of the line: it has passed some cuts and not the later ones, and lies between the two
infinities. -/
structure Spot (α : Type) [Scalar α] [Ordered α] where
  passed : LowerSet (Cut α)
  bottom : toLex (place (-infinity : α), true) ∈ passed
  top : toLex (place (infinity : α), false) ∉ passed

namespace Spot

variable {p : Spot α} {c c' : Cut α}

theorem mem_of_le (h : c' ∈ p.passed) (hle : c ≤ c') : c ∈ p.passed := p.passed.lower hle h

theorem lt_of_mem (h : c ∈ p.passed) (h' : c' ∉ p.passed) : c < c' :=
  not_le.1 fun hle => h' (p.mem_of_le h hle)

theorem max_mem_iff : max c c' ∈ p.passed ↔ c ∈ p.passed ∧ c' ∈ p.passed := by
  refine ⟨fun h => ⟨p.mem_of_le h (le_max_left _ _), p.mem_of_le h (le_max_right _ _)⟩, fun h => ?_⟩
  rcases max_choice c c' with hmax | hmax <;> rw [hmax]
  · exact h.1
  · exact h.2

theorem min_mem_iff : min c c' ∈ p.passed ↔ c ∈ p.passed ∨ c' ∈ p.passed := by
  constructor
  · intro h
    rcases min_choice c c' with hmin | hmin <;> rw [hmin] at h
    · exact Or.inl h
    · exact Or.inr h
  · rintro (h | h)
    · exact p.mem_of_le h (min_le_left _ _)
    · exact p.mem_of_le h (min_le_right _ _)

/-- Both cuts at the lower infinity are passed. -/
theorem mem_of_neg_infinity (p : Spot α) (h : x == -infinity) (b : Bool) :
    toLex (place x, b) ∈ p.passed := by
  rw [(place_eq_iff (number_of_beq h) (number_of_beq (beq_symm h))).2 h]
  exact p.mem_of_le p.bottom (Prod.Lex.toLex_le_toLex.2 (Or.inr ⟨rfl, Bool.le_true b⟩))

/-- Neither cut at the upper infinity is. -/
theorem not_mem_of_infinity (p : Spot α) (h : x == infinity) (b : Bool) :
    toLex (place x, b) ∉ p.passed := by
  rw [(place_eq_iff (number_of_beq h) (number_of_beq (beq_symm h))).2 h]
  exact fun hmem => p.top (p.mem_of_le hmem
    (Prod.Lex.toLex_le_toLex.2 (Or.inr ⟨rfl, Bool.false_le b⟩)))

theorem mem_iff_of_isInfinite (h : isInfinite x) (b b' : Bool) :
    toLex (place x, b) ∈ p.passed ↔ toLex (place x, b') ∈ p.passed := by
  rcases Bool.or_eq_true_iff.1 h with h | h
  · exact iff_of_false (p.not_mem_of_infinity h b) (p.not_mem_of_infinity h b')
  · exact iff_of_true (p.mem_of_neg_infinity h b) (p.mem_of_neg_infinity h b')

/-- The spot of a finite number. -/
noncomputable def ofNumber (hx : isFinite x) : Spot α where
  passed := LowerSet.Iic (cutBefore x)
  bottom := by
    have hlt := (isFinite_iff.1 hx).1
    have hplace := (place_lt_iff (numbers_of_lt hlt).1 (numbers_of_lt hlt).2).2 hlt
    exact LowerSet.mem_Iic_iff.2 (Prod.Lex.toLex_le_toLex.2 (Or.inl hplace))
  top := by
    have hlt := (isFinite_iff.1 hx).2
    have hplace := (place_lt_iff (numbers_of_lt hlt).1 (numbers_of_lt hlt).2).2 hlt
    rw [LowerSet.mem_Iic_iff, cutBefore, Prod.Lex.toLex_le_toLex]
    exact fun h => h.elim (fun h => lt_irrefl _ (h.trans hplace)) fun h => hplace.ne' h.1

end Spot

namespace Bound

variable {a b : Bound α}

/-- The cut that a lower end makes. -/
def start (b : Bound α) : Cut α := toLex (place b.value, !b.closed)

/-- The cut that an upper end makes. -/
def stop (b : Bound α) : Cut α := toLex (place b.value, b.closed)

@[simp] theorem start_flipped (b : Bound α) : b.flipped.start = b.stop := by
  simp [start, stop, flipped]

@[simp] theorem stop_flipped (b : Bound α) : b.flipped.stop = b.start := rfl

/-- The end stands at a number. -/
def Placed (b : Bound α) : Prop := b.value == b.value

theorem lowerOrder_eq (ha : a.Placed) (hb : b.Placed) :
    lowerOrder a b = compare a.start b.start := by
  rw [lowerOrder, start, start, order_eq ha hb]
  cases a.closed <;> cases b.closed <;> rfl

theorem upperOrder_eq (ha : a.Placed) (hb : b.Placed) :
    upperOrder a b = compare a.stop b.stop := by
  rw [upperOrder, stop, stop, order_eq ha hb]
  rfl

theorem start_lowest (ha : a.Placed) (hb : b.Placed) :
    (lowest a b).start = min a.start b.start := by
  rw [lowest, lowerOrder_eq hb ha]
  split_ifs with h
  · rw [min_eq_right (compare_lt_iff_lt.1 h).le]
  · rw [min_eq_left (not_lt.1 fun hlt => h (compare_lt_iff_lt.2 hlt))]

theorem stop_highest (ha : a.Placed) (hb : b.Placed) :
    (highest a b).stop = max a.stop b.stop := by
  rw [highest, upperOrder_eq hb ha]
  split_ifs with h
  · rw [max_eq_right (compare_gt_iff_gt.1 h).le]
  · rw [max_eq_left (not_lt.1 fun hlt => h (compare_gt_iff_gt.2 hlt))]

theorem start_later (ha : a.Placed) (hb : b.Placed) :
    (if lowerOrder a b = .lt then b else a).Placed ∧
      (if lowerOrder a b = .lt then b else a).start = max a.start b.start := by
  rw [lowerOrder_eq ha hb]
  split_ifs with h
  · exact ⟨hb, (max_eq_right (compare_lt_iff_lt.1 h).le).symm⟩
  · exact ⟨ha, (max_eq_left (not_lt.1 fun hlt => h (compare_lt_iff_lt.2 hlt))).symm⟩

theorem stop_earlier (ha : a.Placed) (hb : b.Placed) :
    (if upperOrder a b = .gt then b else a).Placed ∧
      (if upperOrder a b = .gt then b else a).stop = min a.stop b.stop := by
  rw [upperOrder_eq ha hb]
  split_ifs with h
  · exact ⟨hb, (min_eq_right (compare_gt_iff_gt.1 h).le).symm⟩
  · exact ⟨ha, (min_eq_left (not_lt.1 fun hlt => h (compare_gt_iff_gt.2 hlt))).symm⟩

theorem start_le_iff (hb : b.Placed) (hx : x == x) :
    b.start ≤ cutBefore x ↔ b.value < x ∨ (x == b.value ∧ b.closed) := by
  rw [start, cutBefore, Prod.Lex.toLex_le_toLex, place_lt_iff hb hx, eq_comm, place_eq_iff hx hb]
  cases b.closed <;> simp

theorem lt_stop_iff (hb : b.Placed) (hx : x == x) :
    cutBefore x < b.stop ↔ x < b.value ∨ (x == b.value ∧ b.closed) := by
  rw [stop, cutBefore, Prod.Lex.toLex_lt_toLex, place_lt_iff hx hb, place_eq_iff hx hb]
  cases b.closed <;> simp

/-- Opening an infinite end takes no spot away and adds none. -/
theorem start_normalized_mem_iff (b : Bound α) (p : Spot α) :
    b.normalized.start ∈ p.passed ↔ b.start ∈ p.passed := by
  unfold normalized
  split_ifs with h
  · exact p.mem_iff_of_isInfinite h _ _
  · rfl

theorem stop_normalized_mem_iff (b : Bound α) (p : Spot α) :
    b.normalized.stop ∈ p.passed ↔ b.stop ∈ p.passed := by
  unfold normalized
  split_ifs with h
  · exact p.mem_iff_of_isInfinite h _ _
  · rfl

omit [Ordered α] in
@[simp] theorem value_normalized (b : Bound α) : b.normalized.value = b.value := by
  unfold normalized
  split_ifs <;> rfl

end Bound

namespace Interval

variable {i j : Interval α} {lo hi : Bound α}

/-- The cut where the interval starts. -/
def start (i : Interval α) : Cut α := i.lo.start

/-- The cut where the interval stops. -/
def stop (i : Interval α) : Cut α := i.hi.stop

/-- The ends are numbers, an infinite end is open, and there is room between them. -/
structure Proper (i : Interval α) : Prop where
  lo : i.lo.value == i.lo.value
  hi : i.hi.value == i.hi.value
  room : i.lo.value < i.hi.value ∨ (i.lo.value == i.hi.value ∧ i.lo.closed ∧ i.hi.closed)
  loOpen : isInfinite i.lo.value → i.lo.closed = false
  hiOpen : isInfinite i.hi.value → i.hi.closed = false

theorem start_lt_stop_iff (hlo : lo.Placed) (hhi : hi.Placed) : lo.start < hi.stop ↔
    lo.value < hi.value ∨ (lo.value == hi.value ∧ lo.closed ∧ hi.closed) := by
  rw [Bound.start, Bound.stop, Prod.Lex.toLex_lt_toLex, place_lt_iff hlo hhi, place_eq_iff hlo hhi]
  cases lo.closed <;> cases hi.closed <;> simp

theorem Proper.start_lt_stop (h : i.Proper) : i.start < i.stop :=
  (start_lt_stop_iff h.lo h.hi).2 h.room

theorem mem_iff_cuts (h : i.Proper) (hx : x == x) :
    x ∈ i ↔ i.start ≤ cutBefore x ∧ cutBefore x < i.stop := by
  rw [start, stop, Bound.start_le_iff h.lo hx, Bound.lt_stop_iff h.hi hx]
  change i.contains x = true ↔ _
  simp [contains]

theorem number_of_mem (h : x ∈ i) : x == x := by
  change i.contains x = true at h
  simp only [contains, Bool.and_eq_true, Bool.or_eq_true, decide_eq_true_eq] at h
  rcases h.1 with hlt | heq
  · exact (numbers_of_lt hlt).2
  · exact number_of_beq heq.1

theorem mem_ofBounds?_iff : i ∈ ofBounds? lo hi ↔ lo.Placed ∧ hi.Placed ∧
    ¬ lo.value == infinity ∧ ¬ hi.value == -infinity ∧
      lo.normalized.start < hi.normalized.stop ∧ ⟨lo.normalized, hi.normalized⟩ = i := by
  by_cases hplaced : lo.Placed ∧ hi.Placed
  swap
  · have hnan : isNaN lo.value || isNaN hi.value := by
      simp only [isNaN, Bool.or_eq_true, Bool.not_eq_true', ← Bool.not_eq_true]
      exact not_and_or.1 hplaced
    simp only [ofBounds?, Bound.value_normalized, if_pos hnan, Option.mem_def, reduceCtorEq,
      false_iff]
    exact fun h => hplaced ⟨h.1, h.2.1⟩
  have hnan : ¬ (isNaN lo.value || isNaN hi.value) := by
    simp [isNaN_of_beq hplaced.1, isNaN_of_beq hplaced.2]
  by_cases hinf : lo.value == infinity || hi.value == -infinity
  · simp only [ofBounds?, Bound.value_normalized, if_neg hnan, if_pos hinf, Option.mem_def,
      reduceCtorEq, false_iff]
    rw [Bool.or_eq_true] at hinf
    exact fun h => hinf.elim h.2.2.1 h.2.2.2.1
  simp only [ofBounds?, Bound.value_normalized, if_neg hnan, if_neg hinf, Option.mem_def]
  rw [Bool.or_eq_true, not_or] at hinf
  have hlo : lo.normalized.Placed := by simpa [Bound.Placed] using hplaced.1
  have hhi : hi.normalized.Placed := by simpa [Bound.Placed] using hplaced.2
  rw [start_lt_stop_iff hlo hhi]
  simp only [hplaced, hinf, true_and, Bound.value_normalized]
  rcases total hplaced.1 hplaced.2 with h | h | h
  · simp [order_of_lt h, h]
  · have hlt := not_lt_of_le (le_iff.2 (Or.inr (beq_symm h)))
    have hgt := not_lt_of_le (le_iff.2 (Or.inr h))
    simp [order, hlt, hgt, h]
  · have hne : ¬ lo.value == hi.value := fun heq => not_lt_of_le (le_iff.2 (Or.inr heq)) h
    simp [order, h, lt_asymm h, hne]

theorem proper_of_ofBounds? (h : i ∈ ofBounds? lo hi) : i.Proper := by
  obtain ⟨hlo, hhi, -, -, hroom, rfl⟩ := mem_ofBounds?_iff.1 h
  have hopen (b : Bound α) (hb : isInfinite b.normalized.value) : b.normalized.closed = false := by
    rw [Bound.value_normalized] at hb
    rw [Bound.normalized, if_pos hb]
  have hlo' : lo.normalized.Placed := by simpa [Bound.Placed] using hlo
  have hhi' : hi.normalized.Placed := by simpa [Bound.Placed] using hhi
  exact ⟨hlo', hhi', (start_lt_stop_iff hlo' hhi').1 hroom, hopen lo, hopen hi⟩

/-- The spot lies in the interval. -/
def Holds (i : Interval α) (p : Spot α) : Prop := i.start ∈ p.passed ∧ i.stop ∉ p.passed

theorem mem_iff_holds (h : i.Proper) (hx : Scalar.isFinite x) : x ∈ i ↔ i.Holds (.ofNumber hx) := by
  rw [mem_iff_cuts h (beq_of_isFinite hx), ← not_le]
  rfl

/-- An interval between two ends holds the spots between their cuts. -/
theorem exists_holds_ofBounds?_iff (hlo : lo.Placed) (hhi : hi.Placed) (p : Spot α) :
    (∃ i ∈ ofBounds? lo hi, i.Holds p) ↔ lo.start ∈ p.passed ∧ hi.stop ∉ p.passed := by
  rw [← lo.start_normalized_mem_iff, ← hi.stop_normalized_mem_iff]
  constructor
  · rintro ⟨i, hi, hp⟩
    obtain ⟨-, -, -, -, -, rfl⟩ := mem_ofBounds?_iff.1 hi
    exact hp
  · rintro ⟨h, h'⟩
    refine ⟨⟨lo.normalized, hi.normalized⟩, mem_ofBounds?_iff.2 ⟨hlo, hhi, fun heq => ?_,
      fun heq => ?_, p.lt_of_mem h h', rfl⟩, h, h'⟩
    · exact p.not_mem_of_infinity heq _ ((lo.start_normalized_mem_iff p).1 h)
    · exact h' ((hi.stop_normalized_mem_iff p).2 (p.mem_of_neg_infinity heq _))

theorem touches_iff (hi : i.Proper) (hj : j.Proper) : i.touches j ↔ j.start ≤ i.stop := by
  rw [touches, order_eq hj.lo hi.hi, start, stop, Bound.start, Bound.stop,
    Prod.Lex.toLex_le_toLex]
  rcases lt_trichotomy (place j.lo.value) (place i.hi.value) with h | h | h
  · simp [compare_lt_iff_lt.2 h, h]
  · rw [compare_eq_iff_eq.2 h]
    cases i.hi.closed <;> cases j.lo.closed <;> simp [h]
  · simp [compare_gt_iff_gt.2 h, h.le, h.ne']

theorem start_hull (hi : i.Proper) (hj : j.Proper) : (i.hull j).start = min i.start j.start :=
  Bound.start_lowest hi.lo hj.lo

theorem stop_hull (hi : i.Proper) (hj : j.Proper) : (i.hull j).stop = max i.stop j.stop :=
  Bound.stop_highest hi.hi hj.hi

theorem Proper.hull (hi : i.Proper) (hj : j.Proper) : (i.hull j).Proper := by
  have hlo : (i.hull j).lo.Placed ∧
      (isInfinite (i.hull j).lo.value → (i.hull j).lo.closed = false) := by
    have hcases : (i.hull j).lo = i.lo ∨ (i.hull j).lo = j.lo := lowest_cases ..
    rcases hcases with h | h
    · rw [h]
      exact ⟨hi.lo, hi.loOpen⟩
    · rw [h]
      exact ⟨hj.lo, hj.loOpen⟩
  have hhi : (i.hull j).hi.Placed ∧
      (isInfinite (i.hull j).hi.value → (i.hull j).hi.closed = false) := by
    have hcases : (i.hull j).hi = i.hi ∨ (i.hull j).hi = j.hi := highest_cases ..
    rcases hcases with h | h
    · rw [h]
      exact ⟨hi.hi, hi.hiOpen⟩
    · rw [h]
      exact ⟨hj.hi, hj.hiOpen⟩
  refine ⟨hlo.1, hhi.1, (start_lt_stop_iff hlo.1 hhi.1).1 ?_, hlo.2, hhi.2⟩
  change (i.hull j).start < (i.hull j).stop
  rw [start_hull hi hj, stop_hull hi hj]
  exact (min_le_left _ _).trans_lt (hi.start_lt_stop.trans_le (le_max_left _ _))

/-- What two intervals share are the spots of both. -/
theorem exists_holds_inter?_iff (hi : i.Proper) (hj : j.Proper) (p : Spot α) :
    (∃ k ∈ i.inter? j, k.Holds p) ↔ i.Holds p ∧ j.Holds p := by
  obtain ⟨hlo, hstart⟩ := Bound.start_later hi.lo hj.lo
  obtain ⟨hhi, hstop⟩ := Bound.stop_earlier hi.hi hj.hi
  rw [inter?, exists_holds_ofBounds?_iff hlo hhi, hstart, hstop, p.max_mem_iff, p.min_mem_iff, not_or]
  exact and_and_and_comm

theorem proper_of_inter? {k : Interval α} (h : k ∈ i.inter? j) : k.Proper := proper_of_ofBounds? h

end Interval

end ParameterSolver
