import ParameterSolver.Interval.Basic
import ParameterSolver.Proofs.Exact.Number

/-! Intervals of exact numbers by their elements. An end is read as a condition on the numbers on
its side, and an interval holds a number when both conditions do. -/

namespace ParameterSolver

open Exact

namespace Bound

/-- The number lies above the lower end `b`. -/
def Below (b : Bound Exact) (q : ℚ) : Prop := b.value < finite q ∨ (b.value = finite q ∧ b.closed)

/-- The number lies below the upper end `b`. -/
def Above (b : Bound Exact) (q : ℚ) : Prop := finite q < b.value ∨ (b.value = finite q ∧ b.closed)

@[simp] theorem below_finite {a q : ℚ} {c : Bool} :
    (⟨finite a, c⟩ : Bound Exact).Below q ↔ a < q ∨ (a = q ∧ c) := by simp [Below]

@[simp] theorem below_negInf (q : ℚ) (c : Bool) : (⟨negInf, c⟩ : Bound Exact).Below q := by
  simp [Below]

@[simp] theorem not_below_posInf (q : ℚ) (c : Bool) : ¬ (⟨posInf, c⟩ : Bound Exact).Below q := by
  simp [Below]

@[simp] theorem not_below_nan (q : ℚ) (c : Bool) : ¬ (⟨nan, c⟩ : Bound Exact).Below q := by
  simp [Below]

@[simp] theorem above_finite {a q : ℚ} {c : Bool} :
    (⟨finite a, c⟩ : Bound Exact).Above q ↔ q < a ∨ (a = q ∧ c) := by simp [Above]

@[simp] theorem above_posInf (q : ℚ) (c : Bool) : (⟨posInf, c⟩ : Bound Exact).Above q := by
  simp [Above]

@[simp] theorem not_above_negInf (q : ℚ) (c : Bool) : ¬ (⟨negInf, c⟩ : Bound Exact).Above q := by
  simp [Above]

@[simp] theorem not_above_nan (q : ℚ) (c : Bool) : ¬ (⟨nan, c⟩ : Bound Exact).Above q := by
  simp [Above]

theorem Below.le {a q : ℚ} {b : Bound Exact} (h : b.Below q) (hb : b.value = finite a) : a ≤ q := by
  rcases h with h | ⟨h, -⟩
  · rw [hb] at h; exact le_of_lt h
  · rw [hb] at h; cases h; exact le_rfl

theorem Above.le {a q : ℚ} {b : Bound Exact} (h : b.Above q) (hb : b.value = finite a) : q ≤ a := by
  rcases h with h | ⟨h, -⟩
  · rw [hb] at h; exact le_of_lt h
  · rw [hb] at h; cases h; exact le_rfl

theorem Below.value_lt {b : Bound Exact} {q s : ℚ} (h : b.Below q) (hs : q < s) :
    b.value < finite s := by
  obtain ⟨v, c⟩ := b
  cases v <;> simp_all
  rcases h with h | ⟨rfl, -⟩ <;> linarith

theorem Above.lt_value {b : Bound Exact} {q s : ℚ} (h : b.Above q) (hs : s < q) :
    finite s < b.value := by
  obtain ⟨v, c⟩ := b
  cases v <;> simp_all
  rcases h with h | ⟨rfl, -⟩ <;> linarith

/-- A number above one that lies above a lower end. -/
theorem Below.mono {b : Bound Exact} {p q : ℚ} (h : b.Below p) (hpq : p ≤ q) : b.Below q := by
  obtain ⟨v, c⟩ := b
  cases v with
  | nan => simp at h
  | negInf => simp
  | posInf => simp at h
  | finite a =>
    rw [below_finite] at h ⊢
    rcases h with h | ⟨rfl, hc⟩
    · exact Or.inl (lt_of_lt_of_le h hpq)
    · rcases eq_or_lt_of_le hpq with rfl | hlt
      · exact Or.inr ⟨rfl, hc⟩
      · exact Or.inl hlt

theorem Above.mono {b : Bound Exact} {p q : ℚ} (h : b.Above p) (hpq : q ≤ p) : b.Above q := by
  obtain ⟨v, c⟩ := b
  cases v with
  | nan => simp at h
  | posInf => simp
  | negInf => simp at h
  | finite a =>
    rw [above_finite] at h ⊢
    rcases h with h | ⟨rfl, hc⟩
    · exact Or.inl (lt_of_le_of_lt hpq h)
    · rcases eq_or_lt_of_le hpq with rfl | hlt
      · exact Or.inr ⟨rfl, hc⟩
      · exact Or.inl hlt

@[simp] theorem below_neg {b : Bound Exact} {q : ℚ} : b.neg.Below q ↔ b.Above (-q) := by
  obtain ⟨v, c⟩ := b
  cases v <;> simp [neg, neg_lt, neg_eq_iff_eq_neg]

@[simp] theorem above_neg {b : Bound Exact} {q : ℚ} : b.neg.Above q ↔ b.Below (-q) := by
  obtain ⟨v, c⟩ := b
  cases v <;> simp [neg, lt_neg, neg_eq_iff_eq_neg]

@[simp] theorem normalized_value (b : Bound Exact) : b.normalized.value = b.value := by
  unfold normalized; split <;> rfl

@[simp] theorem below_normalized {b : Bound Exact} {q : ℚ} : b.normalized.Below q ↔ b.Below q := by
  obtain ⟨v, c⟩ := b
  cases v <;> simp [normalized]

@[simp] theorem above_normalized {b : Bound Exact} {q : ℚ} : b.normalized.Above q ↔ b.Above q := by
  obtain ⟨v, c⟩ := b
  cases v <;> simp [normalized]

theorem lowerOrder_eq_lt {a b : Bound Exact} : lowerOrder a b = .lt ↔
    a.value < b.value ∨ (¬ b.value < a.value ∧ a.closed = true ∧ b.closed = false) := by
  unfold lowerOrder
  rcases h : Scalar.order a.value b.value with _ | _ | _
  · simp [order_eq_lt.1 h]
  · have hlt : ¬ a.value < b.value := fun h' => by simp [order_eq_lt.2 h'] at h
    have hgt : ¬ b.value < a.value := fun h' => by simp [order_eq_gt.2 h'] at h
    simp only [hlt, hgt, false_or, not_false_eq_true, true_and]
    cases a.closed <;> cases b.closed <;> decide
  · have hgt := order_eq_gt.1 h
    simp [hgt, Exact.lt_asymm hgt]

theorem upperOrder_eq_gt {a b : Bound Exact} : upperOrder a b = .gt ↔
    b.value < a.value ∨ (¬ a.value < b.value ∧ a.closed = true ∧ b.closed = false) := by
  unfold upperOrder
  rcases h : Scalar.order a.value b.value with _ | _ | _
  · have hlt := order_eq_lt.1 h
    simp [hlt, Exact.lt_asymm hlt]
  · have hlt : ¬ a.value < b.value := fun h' => by simp [order_eq_lt.2 h'] at h
    have hgt : ¬ b.value < a.value := fun h' => by simp [order_eq_gt.2 h'] at h
    simp only [hlt, hgt, false_or, not_false_eq_true, true_and]
    cases a.closed <;> cases b.closed <;> decide
  · simp [order_eq_gt.1 h]

theorem below_of_lt {a b : Bound Exact} {q : ℚ} (ha : a.value ≠ nan) (h : lowerOrder a b = .lt)
    (hq : b.Below q) : a.Below q := by
  obtain ⟨a, c⟩ := a
  obtain ⟨b, d⟩ := b
  rw [lowerOrder_eq_lt] at h
  cases a <;> cases b <;> simp_all
  grind

theorem below_of_not_lt {a b : Bound Exact} {q : ℚ} (ha : a.value ≠ nan) (hb : b.value ≠ nan)
    (h : lowerOrder a b ≠ .lt) (hq : a.Below q) : b.Below q := by
  obtain ⟨a, c⟩ := a
  obtain ⟨b, d⟩ := b
  rw [Ne, lowerOrder_eq_lt] at h
  cases a <;> cases b <;> simp_all
  grind

theorem above_of_gt {a b : Bound Exact} {q : ℚ} (ha : a.value ≠ nan) (h : upperOrder a b = .gt)
    (hq : b.Above q) : a.Above q := by
  obtain ⟨a, c⟩ := a
  obtain ⟨b, d⟩ := b
  rw [upperOrder_eq_gt] at h
  cases a <;> cases b <;> simp_all
  grind

theorem above_of_not_gt {a b : Bound Exact} {q : ℚ} (ha : a.value ≠ nan) (hb : b.value ≠ nan)
    (h : upperOrder a b ≠ .gt) (hq : a.Above q) : b.Above q := by
  obtain ⟨a, c⟩ := a
  obtain ⟨b, d⟩ := b
  rw [Ne, upperOrder_eq_gt] at h
  cases a <;> cases b <;> simp_all
  grind

/-- Of two lower ends the later one holds back what either holds back. -/
theorem below_later {a b : Bound Exact} (ha : a.value ≠ nan) (hb : b.value ≠ nan) {q : ℚ} :
    (if lowerOrder a b = .lt then b else a).Below q ↔ a.Below q ∧ b.Below q := by
  split
  · rename_i h
    exact ⟨fun hq => ⟨below_of_lt ha h hq, hq⟩, And.right⟩
  · rename_i h
    exact ⟨fun hq => ⟨hq, below_of_not_lt ha hb h hq⟩, And.left⟩

theorem above_earlier {a b : Bound Exact} (ha : a.value ≠ nan) (hb : b.value ≠ nan) {q : ℚ} :
    (if upperOrder a b = .gt then b else a).Above q ↔ a.Above q ∧ b.Above q := by
  split
  · rename_i h
    exact ⟨fun hq => ⟨above_of_gt ha h hq, hq⟩, And.right⟩
  · rename_i h
    exact ⟨fun hq => ⟨hq, above_of_not_gt ha hb h hq⟩, And.left⟩

theorem below_lowest {a b : Bound Exact} (ha : a.value ≠ nan) (hb : b.value ≠ nan) {q : ℚ} :
    (lowest a b).Below q ↔ a.Below q ∨ b.Below q := by
  unfold lowest
  split
  · rename_i h
    exact ⟨Or.inr, fun hq => hq.elim (below_of_lt hb h) id⟩
  · rename_i h
    exact ⟨Or.inl, fun hq => hq.elim id (below_of_not_lt hb ha h)⟩

theorem above_highest {a b : Bound Exact} (ha : a.value ≠ nan) (hb : b.value ≠ nan) {q : ℚ} :
    (highest a b).Above q ↔ a.Above q ∨ b.Above q := by
  unfold highest
  split
  · rename_i h
    exact ⟨Or.inr, fun hq => hq.elim (above_of_gt hb h) id⟩
  · rename_i h
    exact ⟨Or.inl, fun hq => hq.elim id (above_of_not_gt hb ha h)⟩

theorem lowest_eq (a b : Bound Exact) : lowest a b = a ∨ lowest a b = b := by
  unfold lowest; split <;> simp

theorem highest_eq (a b : Bound Exact) : highest a b = a ∨ highest a b = b := by
  unfold highest; split <;> simp

end Bound

namespace Interval

theorem mem_def {i : Interval Exact} {x : Exact} : x ∈ i ↔ i.contains x = true := Iff.rfl

theorem mem_iff {i : Interval Exact} {q : ℚ} :
    finite q ∈ i ↔ i.lo.Below q ∧ i.hi.Above q := by
  obtain ⟨⟨a, c⟩, ⟨b, d⟩⟩ := i
  simp only [mem_def, contains, Bound.Below, Bound.Above, Bool.and_eq_true, Bool.or_eq_true,
    decide_eq_true_eq, beq_iff]
  constructor
  · rintro ⟨h | ⟨⟨h, -⟩, hc⟩, h' | ⟨⟨h', -⟩, hd⟩⟩
    · exact ⟨Or.inl h, Or.inl h'⟩
    · exact ⟨Or.inl h, Or.inr ⟨h'.symm, hd⟩⟩
    · exact ⟨Or.inr ⟨h.symm, hc⟩, Or.inl h'⟩
    · exact ⟨Or.inr ⟨h.symm, hc⟩, Or.inr ⟨h'.symm, hd⟩⟩
  · rintro ⟨h | ⟨h, hc⟩, h' | ⟨h', hd⟩⟩ <;> simp_all

/-- The two ends leave room for a number. -/
def Fits (lo hi : Bound Exact) : Prop :=
  match lo.value, hi.value with
  | negInf, finite _ | negInf, posInf | finite _, posInf => True
  | finite a, finite b => a < b ∨ (a = b ∧ lo.closed ∧ hi.closed)
  | _, _ => False

theorem fits_of_mem {lo hi : Bound Exact} {q : ℚ} (h : lo.Below q) (h' : hi.Above q) :
    Fits lo hi := by
  obtain ⟨a, c⟩ := lo
  obtain ⟨b, d⟩ := hi
  cases a <;> cases b <;> simp_all [Fits]
  rcases h with h | ⟨rfl, hc⟩ <;> rcases h' with h' | ⟨rfl, hd⟩
  · exact Or.inl (h.trans h')
  · exact Or.inl h
  · exact Or.inl h'
  · exact Or.inr ⟨rfl, hc, hd⟩

theorem ofBounds?_eq {lo hi : Bound Exact} (h : Fits lo hi) :
    ofBounds? lo hi = some ⟨lo.normalized, hi.normalized⟩ := by
  obtain ⟨a, c⟩ := lo
  obtain ⟨b, d⟩ := hi
  cases a <;> cases b <;>
    simp_all [Fits, ofBounds?, Bound.normalized, Scalar.order]
  rename_i p q
  rcases h with h | ⟨rfl, rfl, rfl⟩
  · rw [if_pos h]
  · simp

theorem fits_of_ofBounds? {lo hi : Bound Exact} {i : Interval Exact}
    (h : ofBounds? lo hi = some i) : Fits lo hi := by
  obtain ⟨a, c⟩ := lo
  obtain ⟨b, d⟩ := hi
  cases a <;> cases b <;>
    simp_all [Fits, ofBounds?, Bound.normalized, Scalar.order]
  rename_i p q
  by_cases hpq : p < q
  · exact Or.inl hpq
  · by_cases hqp : q < p
    · simp [hpq, hqp] at h
    · simp only [hpq, hqp, if_false] at h
      obtain ⟨hc, -⟩ : (c = true ∧ d = true) ∧ _ := by simpa using h
      exact Or.inr ⟨le_antisymm (not_lt.1 hqp) (not_lt.1 hpq), hc⟩

theorem mem_ofBounds? {lo hi : Bound Exact} {q : ℚ} :
    (∃ i ∈ ofBounds? lo hi, finite q ∈ i) ↔ lo.Below q ∧ hi.Above q := by
  constructor
  · rintro ⟨i, hi, hq⟩
    rw [ofBounds?_eq (fits_of_ofBounds? hi)] at hi
    cases hi
    simpa [mem_iff] using hq
  · rintro ⟨h, h'⟩
    exact ⟨_, ofBounds?_eq (fits_of_mem h h'), by simpa [mem_iff] using ⟨h, h'⟩⟩

/-- An interval as `ofBounds?` builds it. -/
def Valid (i : Interval Exact) : Prop := ofBounds? i.lo i.hi = some i

theorem valid_iff {i : Interval Exact} :
    i.Valid ↔ Fits i.lo i.hi ∧ i.lo.normalized = i.lo ∧ i.hi.normalized = i.hi := by
  constructor
  · intro h
    have hf := fits_of_ofBounds? h
    have he := ofBounds?_eq hf
    rw [h] at he
    have := Option.some.inj he
    exact ⟨hf, (congrArg lo this).symm, (congrArg hi this).symm⟩
  · rintro ⟨hf, hl, hh⟩
    rw [Valid, ofBounds?_eq hf, hl, hh]

theorem valid_of_ofBounds? {lo hi : Bound Exact} {i : Interval Exact}
    (h : ofBounds? lo hi = some i) : i.Valid := by
  have hf := fits_of_ofBounds? h
  rw [ofBounds?_eq hf] at h
  cases h
  obtain ⟨a, c⟩ := lo
  obtain ⟨b, d⟩ := hi
  cases a <;> cases b <;> simp_all [valid_iff, Fits, Bound.normalized]

theorem Valid.lo_cases {i : Interval Exact} (h : i.Valid) :
    i.lo = ⟨negInf, false⟩ ∨ ∃ a, i.lo.value = finite a := by
  obtain ⟨hf, hl, -⟩ := valid_iff.1 h
  obtain ⟨⟨a, c⟩, ⟨b, d⟩⟩ := i
  cases a <;> simp_all [Fits, Bound.normalized]

theorem Valid.hi_cases {i : Interval Exact} (h : i.Valid) :
    i.hi = ⟨posInf, false⟩ ∨ ∃ b, i.hi.value = finite b := by
  obtain ⟨hf, -, hh⟩ := valid_iff.1 h
  obtain ⟨⟨a, c⟩, ⟨b, d⟩⟩ := i
  cases a <;> cases b <;> simp_all [Fits, Bound.normalized]

theorem Valid.lo_ne_nan {i : Interval Exact} (h : i.Valid) : i.lo.value ≠ nan := by
  rcases h.lo_cases with h | ⟨a, h⟩ <;> simp [h]

theorem Valid.hi_ne_nan {i : Interval Exact} (h : i.Valid) : i.hi.value ≠ nan := by
  rcases h.hi_cases with h | ⟨a, h⟩ <;> simp [h]

theorem mem_inter? {i j : Interval Exact} (hi : i.Valid) (hj : j.Valid) {q : ℚ} :
    (∃ k ∈ i.inter? j, finite q ∈ k) ↔ finite q ∈ i ∧ finite q ∈ j := by
  rw [inter?, mem_ofBounds?, Bound.below_later hi.lo_ne_nan hj.lo_ne_nan,
    Bound.above_earlier hi.hi_ne_nan hj.hi_ne_nan, mem_iff, mem_iff]
  tauto

theorem mem_hull_left {i j : Interval Exact} (hi : i.Valid) (hj : j.Valid) {q : ℚ}
    (h : finite q ∈ i) : finite q ∈ i.hull j := by
  rw [mem_iff] at h ⊢
  exact ⟨(Bound.below_lowest hi.lo_ne_nan hj.lo_ne_nan).2 (Or.inl h.1),
    (Bound.above_highest hi.hi_ne_nan hj.hi_ne_nan).2 (Or.inl h.2)⟩

theorem mem_hull_right {i j : Interval Exact} (hi : i.Valid) (hj : j.Valid) {q : ℚ}
    (h : finite q ∈ j) : finite q ∈ i.hull j := by
  rw [mem_iff] at h ⊢
  exact ⟨(Bound.below_lowest hi.lo_ne_nan hj.lo_ne_nan).2 (Or.inr h.1),
    (Bound.above_highest hi.hi_ne_nan hj.hi_ne_nan).2 (Or.inr h.2)⟩

/-- Every interval holds a number. -/
theorem Valid.exists_mem {i : Interval Exact} (h : i.Valid) : ∃ q : ℚ, finite q ∈ i := by
  obtain ⟨hf, -, -⟩ := valid_iff.1 h
  obtain ⟨⟨a, c⟩, ⟨b, d⟩⟩ := i
  simp only [mem_iff]
  cases a <;> cases b <;> simp_all [Fits]
  case negInf.finite b => exact ⟨b - 1, Or.inl (by linarith)⟩
  case finite.finite a b =>
    rcases hf with hab | ⟨rfl, rfl, rfl⟩
    · exact ⟨(a + b) / 2, Or.inl (by linarith), Or.inl (by linarith)⟩
    · exact ⟨a, by simp⟩
  case finite.posInf a => exact ⟨a + 1, Or.inl (by linarith)⟩

theorem fits_hull {i j : Interval Exact} (hi : i.Valid) (hj : j.Valid) :
    Fits (i.hull j).lo (i.hull j).hi := by
  obtain ⟨q, hq⟩ := hi.exists_mem
  have := mem_iff.1 (mem_hull_left hi hj hq)
  exact fits_of_mem this.1 this.2

theorem Valid.hull {i j : Interval Exact} (hi : i.Valid) (hj : j.Valid) : (i.hull j).Valid := by
  refine valid_iff.2 ⟨fits_hull hi hj, ?_, ?_⟩
  · rcases Bound.lowest_eq i.lo j.lo with h | h
    · rw [Interval.hull, h]; exact (valid_iff.1 hi).2.1
    · rw [Interval.hull, h]; exact (valid_iff.1 hj).2.1
  · rcases Bound.highest_eq i.hi j.hi with h | h
    · rw [Interval.hull, h]; exact (valid_iff.1 hi).2.2
    · rw [Interval.hull, h]; exact (valid_iff.1 hj).2.2

end Interval

end ParameterSolver
