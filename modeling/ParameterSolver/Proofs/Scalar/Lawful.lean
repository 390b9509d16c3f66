import Mathlib.Tactic.Common
import ParameterSolver.Scalar

/-! The laws that hold of numbers whether they are exact or rounded: equality and order away from
what is no number, the rules of infinities, and that operations do not tell equal numbers apart.
Nothing is said about what a sum or a product of finite numbers is. -/

namespace ParameterSolver.Scalar

class Lawful (α : Type) [Scalar α] : Prop where
  symm {x y : α} : x == y → y == x
  trans {x y z : α} : x == y → y == z → x == z
  lt_congr {x x' y y' : α} : x == x' → y == y' → x < y → x' < y'
  lt_asymm {x y : α} : x < y → ¬ y < x
  sign {x : α} : isFinite x → x == 0 ∨ x < 0 ∨ 0 < x
  isFinite_zero : isFinite (0 : α)
  infinity_beq : (infinity : α) == infinity
  neg_infinity_lt : (-infinity : α) < infinity
  lt_infinity {x : α} : isFinite x → -infinity < x ∧ x < infinity
  neg_congr {x y : α} : x == y → -x == -y
  neg_neg_infinity : (- -infinity : α) == infinity
  isFinite_neg {x : α} : isFinite x → isFinite (-x)
  add_congr {x x' y y' : α} : x == x' → y == y' → isFinite (x + y) → x + y == x' + y'
  infinity_add {x y : α} : x == infinity → y == infinity ∨ isFinite y →
    x + y == infinity ∧ y + x == infinity
  neg_infinity_add {x y : α} : x == -infinity → y == -infinity ∨ isFinite y →
    x + y == -infinity ∧ y + x == -infinity
  mul_congr {x x' y y' : α} : x == x' → y == y' → isFinite (x * y) → x * y == x' * y'
  zero_mul {x y : α} : x == 0 → isFinite y → x * y == 0 ∧ y * x == 0
  infinity_mul {x y : α} : x == infinity → 0 < y → x * y == infinity ∧ y * x == infinity
  infinity_mul_neg {x y : α} : x == infinity → y < 0 → x * y == -infinity ∧ y * x == -infinity
  neg_infinity_mul {x y : α} : x == -infinity → 0 < y → x * y == -infinity ∧ y * x == -infinity
  neg_infinity_mul_neg {x y : α} : x == -infinity → y < 0 → x * y == infinity ∧ y * x == infinity
  inverse_congr {x x' : α} : x == x' → ¬ x == 0 → isFinite (1 / x) → 1 / x == 1 / x'

variable {α : Type} [Scalar α] {x y : α}

theorem beq_of_isFinite (h : isFinite x) : x == x := by
  simp only [isFinite, isNaN, Bool.not_not, Bool.and_eq_true] at h
  exact h.1

theorem isInfinite_of_isFinite (h : isFinite x) : isInfinite x = false := by
  simp only [isFinite, Bool.and_eq_true, Bool.not_eq_true'] at h
  exact h.2

theorem isNaN_of_beq (h : x == x) : isNaN x = false := by
  simp [isNaN, h]

theorem order_of_lt (h : x < y) : order x y = .lt := if_pos h

variable [Lawful α]

theorem self_of_beq (h : x == y) : x == x := Lawful.trans h (Lawful.symm h)

theorem not_lt_of_beq (h : x == y) : ¬ x < y := fun hlt =>
  Lawful.lt_asymm hlt (Lawful.lt_congr h (Lawful.symm h) hlt)

theorem isFinite_congr (h : x == y) (hx : isFinite x) : isFinite y := by
  have hinf := isInfinite_of_isFinite hx
  rw [isInfinite, Bool.or_eq_false_iff, ← Bool.not_eq_true, ← Bool.not_eq_true] at hinf
  simp only [isFinite, isNaN, isInfinite, Bool.not_not, Bool.and_eq_true, Bool.not_eq_true',
    Bool.or_eq_false_iff]
  rw [← Bool.not_eq_true, ← Bool.not_eq_true]
  exact ⟨self_of_beq (Lawful.symm h), fun hy => hinf.1 (Lawful.trans h hy),
    fun hy => hinf.2 (Lawful.trans h hy)⟩

theorem order_of_gt (h : y < x) : order x y = .gt := by
  rw [order, if_neg (Lawful.lt_asymm h), if_pos h]

theorem order_of_beq (h : x == y) : order x y = .eq := by
  rw [order, if_neg (not_lt_of_beq h), if_neg (not_lt_of_beq (Lawful.symm h))]

end ParameterSolver.Scalar
