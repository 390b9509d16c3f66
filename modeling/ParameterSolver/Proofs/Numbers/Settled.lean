import ParameterSolver.Numbers.Arithmetic
import ParameterSolver.Proofs.Scalar.Lawful

/-! Sets that hold one number or every number. Arithmetic keeps them so and computes the number as
the operation on numbers does, whatever that rounds. -/

namespace ParameterSolver

open Scalar (Lawful infinity)

variable {α : Type} [Scalar α] {x y : α}

namespace Interval

variable {i j : Interval α} {lo hi : Bound α}

/-- The interval holds this number and no other. -/
structure Pins (i : Interval α) (x : α) : Prop where
  lo : i.lo.value == x
  hi : i.hi.value == x
  loClosed : i.lo.closed
  hiClosed : i.hi.closed

/-- The interval is the whole line. -/
structure Spans (i : Interval α) : Prop where
  lo : i.lo.value == -infinity
  hi : i.hi.value == infinity
  loOpen : i.lo.closed = false
  hiOpen : i.hi.closed = false

/-- The whole line, or this number. -/
def Settles (i : Interval α) (x : α) : Prop := i.Spans ∨ i.Pins x

variable [Lawful α]

theorem exists_pins (hx : Scalar.isFinite x) (hlo : lo.value == x) (hhi : hi.value == x)
    (hloc : lo.closed) (hhic : hi.closed) : ∃ i, ofBounds? lo hi = some i ∧ i.Pins x := by
  have hnormal : ∀ b : Bound α, b.value == x → b.normalized = b ∧ Scalar.isNaN b.value = false ∧
      (b.value == infinity) = false ∧ (b.value == -infinity) = false := by
    intro b hb
    have hfinite := Scalar.isFinite_congr (Lawful.symm hb) hx
    have hinf := Scalar.isInfinite_of_isFinite hfinite
    refine ⟨by rw [Bound.normalized, hinf, if_neg Bool.false_ne_true],
      Scalar.isNaN_of_beq (Scalar.beq_of_isFinite hfinite), Bool.or_eq_false_iff.1 hinf⟩
  obtain ⟨hnlo, hnan, hinf, -⟩ := hnormal lo hlo
  obtain ⟨hnhi, hnan', -, hinf'⟩ := hnormal hi hhi
  refine ⟨⟨lo, hi⟩, ?_, ⟨hlo, hhi, hloc, hhic⟩⟩
  have horder := Scalar.order_of_beq (Lawful.trans hlo (Lawful.symm hhi))
  simp [ofBounds?, hnlo, hnhi, hnan, hnan', hinf, hinf', horder, hloc, hhic]

theorem exists_spans (hlo : lo.value == -infinity) (hhi : hi.value == infinity) :
    ∃ i, ofBounds? lo hi = some i ∧ i.Spans := by
  have hlt : lo.value < hi.value :=
    Lawful.lt_congr (Lawful.symm hlo) (Lawful.symm hhi) Lawful.neg_infinity_lt
  have hne : ¬ (infinity : α) == -infinity := fun h =>
    Scalar.not_lt_of_beq (Lawful.symm h) Lawful.neg_infinity_lt
  have hlo' : (lo.value == infinity) = false := by
    rw [← Bool.not_eq_true]
    exact fun h => hne (Lawful.trans (Lawful.symm h) hlo)
  have hhi' : (hi.value == -infinity) = false := by
    rw [← Bool.not_eq_true]
    exact fun h => hne (Lawful.trans (Lawful.symm hhi) h)
  refine ⟨⟨⟨lo.value, false⟩, ⟨hi.value, false⟩⟩, ?_, ⟨hlo, hhi, rfl, rfl⟩⟩
  simp [ofBounds?, Bound.normalized, Scalar.isInfinite, hlo, hhi, hlo', hhi',
    Scalar.isNaN_of_beq (Scalar.self_of_beq hlo), Scalar.isNaN_of_beq (Scalar.self_of_beq hhi),
    Scalar.order_of_lt hlt]

theorem Pins.congr (h : i.Pins x) (hxy : x == y) : i.Pins y :=
  ⟨Lawful.trans h.lo hxy, Lawful.trans h.hi hxy, h.loClosed, h.hiClosed⟩

theorem Settles.congr (h : i.Settles x) (hxy : x == y) : i.Settles y :=
  h.imp id fun h => h.congr hxy

theorem exists_inter (hx : Scalar.isFinite x) (hi : i.Settles x) (hj : j.Settles x) :
    ∃ k, i.inter? j = some k ∧ k.Settles x := by
  obtain ⟨hbot, htop⟩ := Lawful.lt_infinity hx
  rcases hi with hi | hi <;> rcases hj with hj | hj
  · obtain ⟨k, hk, hspans⟩ : ∃ k, i.inter? j = some k ∧ k.Spans := by
      refine exists_spans ?_ ?_
      · split_ifs
        · exact hj.lo
        · exact hi.lo
      · split_ifs
        · exact hj.hi
        · exact hi.hi
    exact ⟨k, hk, Or.inl hspans⟩
  · have hlo := Scalar.order_of_lt (Lawful.lt_congr (Lawful.symm hi.lo) (Lawful.symm hj.lo) hbot)
    have hhi := Scalar.order_of_gt (Lawful.lt_congr (Lawful.symm hj.hi) (Lawful.symm hi.hi) htop)
    obtain ⟨k, hk, hpins⟩ := exists_pins hx hj.lo hj.hi hj.loClosed hj.hiClosed
    refine ⟨k, ?_, Or.inr hpins⟩
    simpa [inter?, Bound.lowerOrder, Bound.upperOrder, hlo, hhi] using hk
  · have hlo := Scalar.order_of_gt (Lawful.lt_congr (Lawful.symm hj.lo) (Lawful.symm hi.lo) hbot)
    have hhi := Scalar.order_of_lt (Lawful.lt_congr (Lawful.symm hi.hi) (Lawful.symm hj.hi) htop)
    obtain ⟨k, hk, hpins⟩ := exists_pins hx hi.lo hi.hi hi.loClosed hi.hiClosed
    refine ⟨k, ?_, Or.inr hpins⟩
    simpa [inter?, Bound.lowerOrder, Bound.upperOrder, hlo, hhi] using hk
  · obtain ⟨k, hk, hpins⟩ : ∃ k, i.inter? j = some k ∧ k.Pins x := by
      refine exists_pins hx ?_ ?_ ?_ ?_
      · split_ifs
        · exact hj.lo
        · exact hi.lo
      · split_ifs
        · exact hj.hi
        · exact hi.hi
      · split_ifs
        · exact hj.loClosed
        · exact hi.loClosed
      · split_ifs
        · exact hj.hiClosed
        · exact hi.hiClosed
    exact ⟨k, hk, Or.inr hpins⟩

theorem exists_add (hx : Scalar.isFinite x) (hy : Scalar.isFinite y)
    (hxy : Scalar.isFinite (x + y)) (hi : i.Settles x) (hj : j.Settles y) :
    ∃ k, i.add? j = some k ∧ k.Settles (x + y) := by
  rcases hi with hi | hi
  · have hfinite : ∀ z, z == y → Scalar.isFinite z := fun z hz =>
      Scalar.isFinite_congr (Lawful.symm hz) hy
    have hlo : j.lo.value == -infinity ∨ Scalar.isFinite j.lo.value :=
      hj.imp (·.lo) fun h => hfinite _ h.lo
    have hhi : j.hi.value == infinity ∨ Scalar.isFinite j.hi.value :=
      hj.imp (·.hi) fun h => hfinite _ h.hi
    obtain ⟨k, hk, hspans⟩ : ∃ k, i.add? j = some k ∧ k.Spans :=
      exists_spans (Lawful.neg_infinity_add hi.lo hlo).1 (Lawful.infinity_add hi.hi hhi).1
    exact ⟨k, hk, Or.inl hspans⟩
  · have hflo := Scalar.isFinite_congr (Lawful.symm hi.lo) hx
    have hfhi := Scalar.isFinite_congr (Lawful.symm hi.hi) hx
    rcases hj with hj | hj
    · obtain ⟨k, hk, hspans⟩ : ∃ k, i.add? j = some k ∧ k.Spans :=
        exists_spans (Lawful.neg_infinity_add hj.lo (Or.inr hflo)).2
          (Lawful.infinity_add hj.hi (Or.inr hfhi)).2
      exact ⟨k, hk, Or.inl hspans⟩
    · have hsum : ∀ a b, a == x → b == y → a + b == x + y := fun a b ha hb =>
        Lawful.symm (Lawful.add_congr (Lawful.symm ha) (Lawful.symm hb) hxy)
      obtain ⟨k, hk, hpins⟩ : ∃ k, i.add? j = some k ∧ k.Pins (x + y) := by
        refine exists_pins hxy (hsum _ _ hi.lo hj.lo) (hsum _ _ hi.hi hj.hi) ?_ ?_
        · simp [hi.loClosed, hj.loClosed]
        · simp [hi.hiClosed, hj.hiClosed]
      exact ⟨k, hk, Or.inr hpins⟩

theorem Settles.neg (hi : i.Settles x) : i.neg.Settles (-x) := by
  rcases hi with h | h
  · refine Or.inl ⟨Lawful.neg_congr h.hi, ?_, h.hiOpen, h.loOpen⟩
    exact Lawful.trans (Lawful.neg_congr h.lo) Lawful.neg_neg_infinity
  · exact Or.inr ⟨Lawful.neg_congr h.hi, Lawful.neg_congr h.lo, h.hiClosed, h.loClosed⟩

omit [Lawful α] in
theorem lowest_cases (a b : Bound α) : a.lowest b = a ∨ a.lowest b = b := by
  unfold Bound.lowest
  split_ifs
  · exact Or.inr rfl
  · exact Or.inl rfl

omit [Lawful α] in
theorem highest_cases (a b : Bound α) : a.highest b = a ∨ a.highest b = b := by
  unfold Bound.highest
  split_ifs
  · exact Or.inr rfl
  · exact Or.inl rfl

/-- Corners that all hold one number. -/
theorem exists_pins_of_corners {a b c d : Bound α} (hx : Scalar.isFinite x)
    (h : ∀ e ∈ [a, b, c, d], e.value == x ∧ e.closed) :
    ∃ k, ofCorners? a b c d = some k ∧ k.Pins x := by
  have hlo : ((a.lowest b).lowest c).lowest d ∈ [a, b, c, d] := by
    rcases lowest_cases ((a.lowest b).lowest c) d with h | h <;> rw [h]
    · rcases lowest_cases (a.lowest b) c with h | h <;> rw [h]
      · rcases lowest_cases a b with h | h <;> simp [h]
      · simp
    · simp
  have hhi : ((a.highest b).highest c).highest d ∈ [a, b, c, d] := by
    rcases highest_cases ((a.highest b).highest c) d with h | h <;> rw [h]
    · rcases highest_cases (a.highest b) c with h | h <;> rw [h]
      · rcases highest_cases a b with h | h <;> simp [h]
      · simp
    · simp
  exact exists_pins hx (h _ hlo).1 (h _ hhi).1 (h _ hlo).2 (h _ hhi).2

theorem lt_of_infinite {a b : α} (ha : a == -infinity) (hb : b == infinity) : a < b :=
  Lawful.lt_congr (Lawful.symm ha) (Lawful.symm hb) Lawful.neg_infinity_lt

theorem not_both_infinite {a : α} (ha : a == -infinity) : ¬ a == infinity := fun h =>
  Scalar.not_lt_of_beq (Scalar.self_of_beq ha) (lt_of_infinite ha h)

/-- An end at one of the two infinities. -/
def Endless (b : Bound α) : Prop := b.value == -infinity ∨ b.value == infinity

theorem value_lowest {a b : Bound α} (ha : Endless a) (hb : Endless b)
    (h : a.value == -infinity ∨ b.value == -infinity) : (a.lowest b).value == -infinity := by
  rcases ha with ha | ha
  · rcases hb with hb | hb
    · rcases lowest_cases a b with h | h <;> rw [h] <;> assumption
    · have hgt := Scalar.order_of_gt (lt_of_infinite ha hb)
      simp [Bound.lowest, Bound.lowerOrder, hgt, ha]
  · have hbot : b.value == -infinity := h.resolve_left fun h => not_both_infinite h ha
    have hlt := Scalar.order_of_lt (lt_of_infinite hbot ha)
    simp [Bound.lowest, Bound.lowerOrder, hlt, hbot]

theorem value_highest {a b : Bound α} (ha : Endless a) (hb : Endless b)
    (h : a.value == infinity ∨ b.value == infinity) : (a.highest b).value == infinity := by
  rcases ha with ha | ha
  · have htop : b.value == infinity := h.resolve_left fun h => not_both_infinite ha h
    have hgt := Scalar.order_of_gt (lt_of_infinite ha htop)
    simp [Bound.highest, Bound.upperOrder, hgt, htop]
  · rcases hb with hb | hb
    · have hlt := Scalar.order_of_lt (lt_of_infinite hb ha)
      simp [Bound.highest, Bound.upperOrder, hlt, ha]
    · rcases highest_cases a b with h | h <;> rw [h] <;> assumption

/-- Corners at both infinities. -/
theorem exists_spans_of_corners {a b c d : Bound α} (h : ∀ e ∈ [a, b, c, d], Endless e)
    (hlo : ∃ e ∈ [a, b, c, d], e.value == -infinity)
    (hhi : ∃ e ∈ [a, b, c, d], e.value == infinity) :
    ∃ k, ofCorners? a b c d = some k ∧ k.Spans := by
  simp only [List.mem_cons, List.not_mem_nil, or_false, exists_eq_or_imp, exists_eq_left,
    forall_eq_or_imp, forall_eq] at h hlo hhi
  obtain ⟨ha, hb, hc, hd⟩ := h
  have hlowest : ∀ {a b : Bound α}, Endless a → Endless b → Endless (a.lowest b) := by
    intro a b ha hb
    rcases lowest_cases a b with h | h <;> rw [h] <;> assumption
  have hhighest : ∀ {a b : Bound α}, Endless a → Endless b → Endless (a.highest b) := by
    intro a b ha hb
    rcases highest_cases a b with h | h <;> rw [h] <;> assumption
  refine exists_spans (value_lowest (hlowest (hlowest ha hb) hc) hd ?_)
    (value_highest (hhighest (hhighest ha hb) hc) hd ?_)
  · rw [← or_assoc, ← or_assoc] at hlo
    exact hlo.imp_left fun h => value_lowest (hlowest ha hb) hc (h.imp_left (value_lowest ha hb))
  · rw [← or_assoc, ← or_assoc] at hhi
    exact hhi.imp_left fun h =>
      value_highest (hhighest ha hb) hc (h.imp_left (value_highest ha hb))

/-- On one side of zero. -/
def OffZero (x : α) : Prop := 0 < x ∨ x < 0

theorem OffZero.not_beq (h : OffZero x) : (x == 0) = false := by
  rw [← Bool.not_eq_true]
  intro heq
  rcases h with h | h
  · exact Scalar.not_lt_of_beq (Lawful.symm heq) h
  · exact Scalar.not_lt_of_beq heq h

theorem offZero_of_infinite {a : α} (h : a == -infinity ∨ a == infinity) : OffZero a := by
  have hzero : Scalar.isFinite (0 : α) := Lawful.isFinite_zero
  obtain ⟨hbot, htop⟩ := Lawful.lt_infinity hzero
  rcases h with h | h
  · exact Or.inr (Lawful.lt_congr (Lawful.symm h) (Scalar.beq_of_isFinite hzero) hbot)
  · exact Or.inl (Lawful.lt_congr (Scalar.beq_of_isFinite hzero) (Lawful.symm h) htop)

theorem value_mulCorner {a b : Bound α} (ha : OffZero a.value) (hb : OffZero b.value) :
    (mulCorner a b).value = a.value * b.value := by
  simp only [mulCorner, ha.not_beq, hb.not_beq, Bound.normalized, Bool.or_self,
    Bool.false_eq_true, if_false]
  split_ifs <;> rfl

/-- The corners of the whole line with an end off zero lie at both infinities. -/
theorem corners_of_spans (hi : i.Spans) {b : Bound α} (hb : OffZero b.value) :
    ((mulCorner i.lo b).value == -infinity ∧ (mulCorner i.hi b).value == infinity ∨
      (mulCorner i.lo b).value == infinity ∧ (mulCorner i.hi b).value == -infinity) ∧
    ((mulCorner b i.lo).value == -infinity ∧ (mulCorner b i.hi).value == infinity ∨
      (mulCorner b i.lo).value == infinity ∧ (mulCorner b i.hi).value == -infinity) := by
  have hlo := offZero_of_infinite (Or.inl hi.lo)
  have hhi := offZero_of_infinite (Or.inr hi.hi)
  rw [value_mulCorner hlo hb, value_mulCorner hhi hb, value_mulCorner hb hlo,
    value_mulCorner hb hhi]
  rcases hb with hb | hb
  · have hl := Lawful.neg_infinity_mul hi.lo hb
    have hh := Lawful.infinity_mul hi.hi hb
    exact ⟨Or.inl ⟨hl.1, hh.1⟩, Or.inl ⟨hl.2, hh.2⟩⟩
  · have hl := Lawful.neg_infinity_mul_neg hi.lo hb
    have hh := Lawful.infinity_mul_neg hi.hi hb
    exact ⟨Or.inr ⟨hl.1, hh.1⟩, Or.inr ⟨hl.2, hh.2⟩⟩

theorem exists_mul_of_spans (hi : i.Spans) (hlo : OffZero j.lo.value) (hhi : OffZero j.hi.value) :
    (∃ k, i.mul? j = some k ∧ k.Spans) ∧ ∃ k, j.mul? i = some k ∧ k.Spans := by
  obtain ⟨hl, hl'⟩ := corners_of_spans hi hlo
  obtain ⟨hh, hh'⟩ := corners_of_spans hi hhi
  constructor
  · refine exists_spans_of_corners ?_ ?_ ?_ <;> simp [Endless] <;> grind
  · refine exists_spans_of_corners ?_ ?_ ?_ <;> simp [Endless] <;> grind

theorem mulCorner_of_zero {a b : Bound α} (h : (a.value == 0) = true ∧ a.closed ∨
    (b.value == 0) = true ∧ b.closed) : (mulCorner a b).value == 0 ∧ (mulCorner a b).closed := by
  have hzero : Scalar.isFinite (0 : α) := Lawful.isFinite_zero
  have hinf := Scalar.isInfinite_of_isFinite hzero
  have hself := Scalar.beq_of_isFinite hzero
  rcases h with ⟨h, hc⟩ | ⟨h, hc⟩ <;> simp [mulCorner, Bound.normalized, h, hc, hinf, hself]

theorem mulCorner_of_pins {a b : Bound α} (hx : Scalar.isFinite x) (hy : Scalar.isFinite y)
    (hxy : Scalar.isFinite (x * y)) (ha : a.value == x ∧ a.closed) (hb : b.value == y ∧ b.closed) :
    (mulCorner a b).value == x * y ∧ (mulCorner a b).closed := by
  have hzero : a.value == 0 ∨ b.value == 0 → 0 == x * y := by
    rintro (h | h)
    · exact Lawful.symm (Lawful.zero_mul (Lawful.trans (Lawful.symm ha.1) h) hy).1
    · exact Lawful.symm (Lawful.zero_mul (Lawful.trans (Lawful.symm hb.1) h) hx).2
  by_cases hza : a.value == 0
  · obtain ⟨hv, hc⟩ := mulCorner_of_zero (b := b) (Or.inl ⟨hza, ha.2⟩)
    exact ⟨Lawful.trans hv (hzero (Or.inl hza)), hc⟩
  · by_cases hzb : b.value == 0
    · obtain ⟨hv, hc⟩ := mulCorner_of_zero (a := a) (Or.inr ⟨hzb, hb.2⟩)
      exact ⟨Lawful.trans hv (hzero (Or.inr hzb)), hc⟩
    · have hmul : a.value * b.value == x * y :=
        Lawful.symm (Lawful.mul_congr (Lawful.symm ha.1) (Lawful.symm hb.1) hxy)
      have hinf := Scalar.isInfinite_of_isFinite (Scalar.isFinite_congr (Lawful.symm hmul) hxy)
      simp [mulCorner, Bound.normalized, hza, hzb, hinf, hmul, ha.2, hb.2]

theorem Pins.offZero (hi : i.Pins x) (hx : Scalar.isFinite x) (hzero : ¬ x == 0) :
    OffZero i.lo.value ∧ OffZero i.hi.value := by
  have hself := Scalar.beq_of_isFinite (Lawful.isFinite_zero (α := α))
  have hsign : ∀ a, a == x → OffZero a := fun a ha =>
    ((Lawful.sign hx).resolve_left hzero).symm.imp (Lawful.lt_congr hself (Lawful.symm ha))
      (Lawful.lt_congr (Lawful.symm ha) hself)
  exact ⟨hsign _ hi.lo, hsign _ hi.hi⟩

omit [Lawful α] in
theorem Pins.ends (hi : i.Pins x) : ∀ b ∈ [i.lo, i.hi], b.value == x ∧ b.closed := by
  simp only [List.mem_cons, List.not_mem_nil, or_false, forall_eq_or_imp, forall_eq]
  exact ⟨⟨hi.lo, hi.loClosed⟩, hi.hi, hi.hiClosed⟩

theorem exists_mul_of_ends (hx : Scalar.isFinite x) (h : ∀ a ∈ [i.lo, i.hi], ∀ b ∈ [j.lo, j.hi],
    (mulCorner a b).value == x ∧ (mulCorner a b).closed) :
    ∃ k, i.mul? j = some k ∧ k.Settles x := by
  simp only [List.mem_cons, List.not_mem_nil, or_false, forall_eq_or_imp, forall_eq] at h
  obtain ⟨⟨hll, hlh⟩, hhl, hhh⟩ := h
  obtain ⟨k, hk, hpins⟩ : ∃ k, i.mul? j = some k ∧ k.Pins x := by
    refine exists_pins_of_corners hx ?_
    simp only [List.mem_cons, List.not_mem_nil, or_false, forall_eq_or_imp, forall_eq]
    exact ⟨hll, hlh, hhl, hhh⟩
  exact ⟨k, hk, Or.inr hpins⟩

/-- A zero makes the product zero even where nothing is known of the other factor. -/
theorem exists_mul (hx : Scalar.isFinite x) (hy : Scalar.isFinite y)
    (hxy : Scalar.isFinite (x * y)) (hi : i.Settles x) (hj : j.Settles y) :
    ∃ k, i.mul? j = some k ∧ k.Settles (x * y) := by
  have hspans : ∀ {k : Option (Interval α)}, (∃ l, k = some l ∧ l.Spans) →
      ∃ l, k = some l ∧ l.Settles (x * y) := fun ⟨l, hl, h⟩ => ⟨l, hl, Or.inl h⟩
  rcases hi with hi | hi <;> rcases hj with hj | hj
  · exact hspans (exists_mul_of_spans hi (offZero_of_infinite (Or.inl hj.lo))
      (offZero_of_infinite (Or.inr hj.hi))).1
  · by_cases hzero : y == 0
    · refine exists_mul_of_ends hxy fun a _ b hb => ?_
      obtain ⟨hval, hc⟩ := hj.ends b hb
      obtain ⟨hv, hclosed⟩ := mulCorner_of_zero (a := a) (Or.inr ⟨Lawful.trans hval hzero, hc⟩)
      exact ⟨Lawful.trans hv (Lawful.symm (Lawful.zero_mul hzero hx).2), hclosed⟩
    · obtain ⟨hlo, hhi⟩ := hj.offZero hy hzero
      exact hspans (exists_mul_of_spans hi hlo hhi).1
  · by_cases hzero : x == 0
    · refine exists_mul_of_ends hxy fun a ha b _ => ?_
      obtain ⟨hval, hc⟩ := hi.ends a ha
      obtain ⟨hv, hclosed⟩ := mulCorner_of_zero (b := b) (Or.inl ⟨Lawful.trans hval hzero, hc⟩)
      exact ⟨Lawful.trans hv (Lawful.symm (Lawful.zero_mul hzero hy).1), hclosed⟩
    · obtain ⟨hlo, hhi⟩ := hi.offZero hx hzero
      exact hspans (exists_mul_of_spans hj hlo hhi).2
  · exact exists_mul_of_ends hxy fun a ha b hb =>
      mulCorner_of_pins hx hy hxy (hi.ends a ha) (hj.ends b hb)

/-- Without zero, it is one number. -/
theorem Settles.off_zero (hi : i.Settles x) (hzero : i.contains 0 = false) :
    i.Pins x ∧ ¬ x == 0 := by
  have hself := Scalar.beq_of_isFinite (Lawful.isFinite_zero (α := α))
  rcases hi with hi | hi
  · obtain ⟨hbot, htop⟩ := Lawful.lt_infinity (Lawful.isFinite_zero (α := α))
    have hlo := Lawful.lt_congr (Lawful.symm hi.lo) hself hbot
    have hhi := Lawful.lt_congr hself (Lawful.symm hi.hi) htop
    simp [contains, hlo, hhi] at hzero
  · refine ⟨hi, fun h => ?_⟩
    have hlo := Lawful.symm (Lawful.trans hi.lo h)
    have hhi := Lawful.symm (Lawful.trans hi.hi h)
    simp [contains, hlo, hhi, hi.loClosed, hi.hiClosed] at hzero

theorem exists_invert (hx : Scalar.isFinite x) (hinv : Scalar.isFinite (1 / x))
    (hi : i.Settles x) (hzero : i.contains 0 = false) :
    ∃ k, i.invert = [k] ∧ k.Settles (1 / x) := by
  have hself := Scalar.beq_of_isFinite (Lawful.isFinite_zero (α := α))
  obtain ⟨hi, hne⟩ := hi.off_zero hzero
  obtain ⟨hlo, hhi⟩ := hi.offZero hx hne
  have hsides : ¬ (i.lo.value < 0 ∧ 0 < i.hi.value) := fun ⟨hneg, hpos⟩ =>
    Lawful.lt_asymm hneg (Lawful.lt_congr hself (Lawful.trans hi.hi (Lawful.symm hi.lo)) hpos)
  have hinverse : ∀ b ∈ [i.lo, i.hi],
      (invertBound b).value == 1 / x ∧ (invertBound b).closed := by
    intro b hb
    obtain ⟨hval, hc⟩ := hi.ends b hb
    have hinf := Scalar.isInfinite_of_isFinite (Scalar.isFinite_congr (Lawful.symm hval) hx)
    have hdiv := Lawful.symm (Lawful.inverse_congr (Lawful.symm hval) hne hinv)
    simp [invertBound, hinf, hdiv, hc]
  obtain ⟨hvlo, hclo⟩ := hinverse i.lo (by simp)
  obtain ⟨hvhi, hchi⟩ := hinverse i.hi (by simp)
  obtain ⟨k, hk, hpins⟩ := exists_pins hinv hvhi hvlo hchi hclo
  refine ⟨k, ?_, Or.inr hpins⟩
  simp [invert, hlo.not_beq, hhi.not_beq, hsides, hk]

end Interval

namespace Numbers

variable {s t : Numbers α}

/-- Every number, or this one. -/
def Settles (s : Numbers α) (x : α) : Prop := ∃ i, s.intervals = [i] ∧ i.Settles x

theorem ofIntervals_singleton (i : Interval α) : ofIntervals [i] = ⟨[i]⟩ := by
  simp [ofIntervals, merge]

theorem Settles.not_isEmpty (h : s.Settles x) : s.isEmpty = false := by
  obtain ⟨i, hi, -⟩ := h
  simp [isEmpty, hi]

theorem settles_pairwise {f : Interval α → Interval α → Option (Interval α)} {z : α}
    (hf : ∀ i j : Interval α, i.Settles x → j.Settles y → ∃ k, f i j = some k ∧ k.Settles z)
    (hs : s.Settles x) (ht : t.Settles y) :
    (pairwise (fun i j => (f i j).toList) s t).Settles z := by
  obtain ⟨i, hi, his⟩ := hs
  obtain ⟨j, hj, hjs⟩ := ht
  obtain ⟨k, hk, hks⟩ := hf i j his hjs
  refine ⟨k, ?_, hks⟩
  simp [pairwise, hi, hj, hk, maxPairs, ofIntervals_singleton]

variable [Lawful α]

theorem settles_unbounded : (unbounded : Numbers α).Settles x := by
  have hneg : (-infinity : α) == -infinity := Lawful.neg_congr Lawful.infinity_beq
  exact ⟨.unbounded, rfl, Or.inl ⟨hneg, Lawful.infinity_beq, rfl, rfl⟩⟩

theorem settles_singleton (hx : Scalar.isFinite x) : (singleton x).Settles x := by
  have hself := Scalar.beq_of_isFinite hx
  obtain ⟨i, hi, hpins⟩ : ∃ i, Interval.singleton? x = some i ∧ i.Pins x :=
    Interval.exists_pins hx hself hself rfl rfl
  exact ⟨i, by rw [singleton, ofInterval?, hi, Option.toList_some], Or.inr hpins⟩

theorem Settles.congr (h : s.Settles x) (hxy : x == y) : s.Settles y := by
  obtain ⟨i, hi, h⟩ := h
  exact ⟨i, hi, h.congr hxy⟩

theorem Settles.inter (hs : s.Settles x) (ht : t.Settles x) (hx : Scalar.isFinite x) :
    (s.inter t).Settles x := by
  obtain ⟨i, hi, his⟩ := hs
  obtain ⟨j, hj, hjs⟩ := ht
  obtain ⟨k, hk, hks⟩ := Interval.exists_inter hx his hjs
  refine ⟨k, ?_, hks⟩
  simp [Numbers.inter, hi, hj, overlaps, hk, ofIntervals_singleton]

theorem Settles.add (hs : s.Settles x) (ht : t.Settles y) (hx : Scalar.isFinite x)
    (hy : Scalar.isFinite y) (hxy : Scalar.isFinite (x + y)) : (s.add t).Settles (x + y) :=
  settles_pairwise (fun _ _ => Interval.exists_add hx hy hxy) hs ht

theorem Settles.mul (hs : s.Settles x) (ht : t.Settles y) (hx : Scalar.isFinite x)
    (hy : Scalar.isFinite y) (hxy : Scalar.isFinite (x * y)) : (s.mul t).Settles (x * y) :=
  settles_pairwise (fun _ _ => Interval.exists_mul hx hy hxy) hs ht

theorem Settles.neg (hs : s.Settles x) : s.neg.Settles (-x) := by
  obtain ⟨i, hi, his⟩ := hs
  exact ⟨i.neg, by simp [Numbers.neg, map, hi, ofIntervals_singleton], his.neg⟩

theorem Settles.ne_zero (hs : s.Settles x) (hzero : s.contains 0 = false) : ¬ x == 0 := by
  obtain ⟨i, hi, his⟩ := hs
  exact (his.off_zero (by simpa [contains, hi] using hzero)).2

theorem Settles.invert (hs : s.Settles x) (hx : Scalar.isFinite x)
    (hinv : Scalar.isFinite (1 / x)) (hzero : s.contains 0 = false) :
    s.invert.Settles (1 / x) := by
  obtain ⟨i, hi, his⟩ := hs
  obtain ⟨k, hk, hks⟩ := Interval.exists_invert hx hinv his (by simpa [contains, hi] using hzero)
  exact ⟨k, by simp [Numbers.invert, map, hi, hk, ofIntervals_singleton], hks⟩

end Numbers

end ParameterSolver
