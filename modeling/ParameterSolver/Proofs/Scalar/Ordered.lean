import Mathlib.Data.Prod.Lex
import Mathlib.Order.Antisymmetrization
import Mathlib.Order.Bounds.Basic
import ParameterSolver.Proofs.Scalar.Lawful
import ParameterSolver.Scalar

/-! Numbers as far as they are ordered: all that sets of numbers need. Zero may have two signs, so
the order tells numbers apart only up to `==`; the places of a line are what remains. -/

namespace ParameterSolver.Scalar

class Ordered (α : Type) [Scalar α] : Prop where
  beq_symm {x y : α} : x == y → y == x
  beq_trans {x y z : α} : x == y → y == z → x == z
  lt_trans {x y z : α} : x < y → y < z → x < z
  lt_asymm {x y : α} : x < y → ¬ y < x
  lt_congr {x x' y y' : α} : x == x' → y == y' → x < y → x' < y'
  /-- What is no number has no place in the order. -/
  numbers_of_lt {x y : α} : x < y → x == x ∧ y == y
  total {x y : α} : x == x → y == y → x < y ∨ x == y ∨ y < x
  le_iff {x y : α} : x ≤ y ↔ x < y ∨ x == y
  neg_lt_neg {x y : α} : x < y → -y < -x
  neg_congr {x y : α} : x == y → -x == -y
  le_infinity {x : α} : x == x → x ≤ infinity
  neg_infinity_le {x : α} : x == x → -infinity ≤ x
  isFinite_zero : isFinite (0 : α)
  isFinite_one : isFinite (1 : α)
  neg_one_le_one : (-1 : α) ≤ 1

/-- The sine of a finite number lies between `-1` and `1`. -/
def SineBounded (α : Type) [Scalar α] : Prop :=
  ∀ x : α, isFinite x → -1 ≤ sin x ∧ sin x ≤ 1

/-- The numbers on a line, with what is no number before all of them. -/
def Line (α : Type) : Type := α

variable {α : Type} [Scalar α] [Ordered α] {x y z : α}

open Ordered

theorem number_of_beq (h : x == y) : x == x := beq_trans h (beq_symm h)

theorem numbers_of_le (h : x ≤ y) : x == x ∧ y == y := by
  rcases le_iff.1 h with h | h
  · exact numbers_of_lt h
  · exact ⟨number_of_beq h, number_of_beq (beq_symm h)⟩

theorem not_lt_of_le (h : x ≤ y) : ¬ y < x := by
  rcases le_iff.1 h with h | h
  · exact lt_asymm h
  · exact fun hlt => lt_asymm hlt (lt_congr (beq_symm h) h hlt)

theorem le_of_not_lt (hx : x == x) (hy : y == y) (h : ¬ y < x) : x ≤ y := by
  rcases total hx hy with hlt | heq | hlt
  · exact le_iff.2 (Or.inl hlt)
  · exact le_iff.2 (Or.inr heq)
  · exact absurd hlt h

theorem le_chain (h : x ≤ y) (h' : y ≤ z) : x ≤ z := by
  refine le_of_not_lt (numbers_of_le h).1 (numbers_of_le h').2 fun hlt => ?_
  rcases le_iff.1 h with hxy | hxy
  · exact not_lt_of_le h' (lt_trans hlt hxy)
  · exact not_lt_of_le h' (lt_congr (number_of_beq (numbers_of_lt hlt).1) hxy hlt)

theorem le_lt_chain (h : x ≤ y) (h' : y < z) : x < z := by
  rcases le_iff.1 h with h | h
  · exact lt_trans h h'
  · exact lt_congr (beq_symm h) (numbers_of_lt h').2 h'

theorem lt_le_chain (h : x < y) (h' : y ≤ z) : x < z := by
  rcases le_iff.1 h' with h' | h'
  · exact lt_trans h h'
  · exact lt_congr (numbers_of_lt h).1 h' h

instance : Preorder (Line α) where
  le x y := ¬ ((show α from x) == x) ∨ (show α from x) ≤ y
  le_refl x := by
    by_cases h : (show α from x) == x
    · exact Or.inr (le_iff.2 (Or.inr h))
    · exact Or.inl h
  le_trans x y z h h' := by
    rcases h with h | h
    · exact Or.inl h
    · exact Or.inr (le_chain h (h'.resolve_left fun hy => hy (numbers_of_le h).2))

theorem line_le_iff {x y : α} :
    (show Line α from x) ≤ (show Line α from y) ↔ ¬ (x == x) ∨ x ≤ y := Iff.rfl

instance : @Std.Total (Line α) (· ≤ ·) where
  total x y := by
    by_cases hx : (show α from x) == x
    · by_cases hy : (show α from y) == y
      · rcases Ordered.total hx hy with h | h | h
        · exact Or.inl (Or.inr (le_iff.2 (Or.inl h)))
        · exact Or.inl (Or.inr (le_iff.2 (Or.inr h)))
        · exact Or.inr (Or.inr (le_iff.2 (Or.inl h)))
      · exact Or.inr (Or.inl hy)
    · exact Or.inl (Or.inl hx)

/-- Numbers that are equal share a place. -/
def Place (α : Type) [Scalar α] [Ordered α] : Type := Antisymmetrization (Line α) (· ≤ ·)

open Classical in
noncomputable instance : LinearOrder (Place α) :=
  inferInstanceAs (LinearOrder (Antisymmetrization (Line α) (· ≤ ·)))

def place (x : α) : Place α := toAntisymmetrization (· ≤ ·) (show Line α from x)

theorem place_lt_iff (hx : x == x) (hy : y == y) : place x < place y ↔ x < y := by
  rw [← not_le]
  have hle : place y ≤ place x ↔ y ≤ x := by
    rw [place, place]
    exact toAntisymmetrization_le_toAntisymmetrization_iff.trans
      (line_le_iff.trans (or_iff_right (not_not.2 hy)))
  rw [hle]
  exact ⟨fun h => by_contra fun hlt => h (le_of_not_lt hy hx hlt), fun h hle => not_lt_of_le hle h⟩

theorem place_eq_iff (hx : x == x) (hy : y == y) : place x = place y ↔ x == y := by
  rw [eq_iff_le_not_lt, ← not_lt, place_lt_iff hx hy, place_lt_iff hy hx]
  constructor
  · rintro ⟨h, h'⟩
    exact (total hx hy).resolve_left h' |>.resolve_right h
  · intro h
    exact ⟨not_lt_of_le (le_iff.2 (Or.inr h)), not_lt_of_le (le_iff.2 (Or.inr (beq_symm h)))⟩

theorem place_le_iff (hx : x == x) (hy : y == y) : place x ≤ place y ↔ x ≤ y := by
  rw [le_iff_lt_or_eq, place_lt_iff hx hy, place_eq_iff hx hy, le_iff]

/-- The order of two numbers is the order of their places. -/
theorem order_eq (hx : x == x) (hy : y == y) : order x y = compare (place x) (place y) := by
  unfold order
  rcases lt_trichotomy (place x) (place y) with h | h | h
  · rw [if_pos ((place_lt_iff hx hy).1 h), compare_lt_iff_lt.2 h]
  · have hxy := (place_eq_iff hx hy).1 h
    rw [if_neg (not_lt_of_le (le_iff.2 (Or.inr (beq_symm hxy)))),
      if_neg (not_lt_of_le (le_iff.2 (Or.inr hxy))), compare_eq_iff_eq.2 h]
  · have hyx := (place_lt_iff hy hx).1 h
    rw [if_neg (lt_asymm hyx), if_pos hyx, compare_gt_iff_gt.2 h]

theorem number_infinity : (infinity : α) == infinity :=
  (numbers_of_le (le_infinity (beq_of_isFinite isFinite_zero))).2

theorem isFinite_iff : isFinite x ↔ -infinity < x ∧ x < infinity := by
  simp only [isFinite, isNaN, isInfinite, Bool.not_not, Bool.and_eq_true, Bool.not_eq_true',
    ← Bool.not_eq_true, Bool.or_eq_true, not_or]
  constructor
  · rintro ⟨hx, hpos, hneg⟩
    refine ⟨?_, (le_iff.1 (le_infinity hx)).resolve_right hpos⟩
    exact (le_iff.1 (neg_infinity_le hx)).resolve_right fun h => hneg (beq_symm h)
  · rintro ⟨hneg, hpos⟩
    refine ⟨(numbers_of_lt hpos).1, fun h => ?_, fun h => ?_⟩
    · exact not_lt_of_le (le_iff.2 (Or.inr (beq_symm h))) hpos
    · exact not_lt_of_le (le_iff.2 (Or.inr h)) hneg

omit [Ordered α] in
theorem isInfinite_iff (hx : x == x) : isInfinite x ↔ ¬ isFinite x := by
  simp [isFinite, isNaN, hx]

theorem isFinite_neg (h : isFinite x) : isFinite (-x) := by
  obtain ⟨hneg, hpos⟩ := isFinite_iff.1 h
  refine isFinite_iff.2 ⟨neg_lt_neg hpos, ?_⟩
  have hlt := neg_lt_neg hneg
  refine (le_iff.1 (le_infinity (numbers_of_lt hlt).1)).resolve_right fun heq => ?_
  have htop := le_infinity (numbers_of_lt hlt).2
  exact not_lt_of_le htop (lt_congr heq (numbers_of_lt hlt).2 hlt)

theorem isFinite_of_between (h : isFinite y) (h' : isFinite z) (hyx : y ≤ x) (hxz : x ≤ z) :
    isFinite x := by
  have hx := (numbers_of_le hyx).2
  have hy := isFinite_iff.1 h
  have hz := isFinite_iff.1 h'
  refine isFinite_iff.2 ⟨?_, ?_⟩
  · rcases le_iff.1 hyx with hlt | heq
    · exact lt_trans hy.1 hlt
    · exact lt_congr (numbers_of_lt hy.1).1 heq hy.1
  · rcases le_iff.1 hxz with hlt | heq
    · exact lt_trans hlt hz.2
    · exact lt_congr (beq_symm heq) (numbers_of_lt hz.2).2 hz.2

end ParameterSolver.Scalar
