import Mathlib.Algebra.Order.Field.Rat
import Mathlib.Data.Rat.Floor
import Mathlib.Tactic.Linarith
import ParameterSolver.Scalar

/-! Exact numbers: the rational numbers with two infinities and a value that is no number. They
follow the rules of machine numbers wherever these do not round, and a function whose values are
not rational has no exact value. Everything said of sets of numbers is said over them. -/

namespace ParameterSolver

inductive Exact where
  | nan
  | negInf
  | finite (q : ℚ)
  | posInf
deriving DecidableEq

namespace Exact

def lt : Exact → Exact → Prop
  | finite a, finite b => a < b
  | negInf, finite _ | negInf, posInf | finite _, posInf => True
  | _, _ => False

instance : LT Exact := ⟨lt⟩

instance : LE Exact := ⟨fun x y => x < y ∨ (x = y ∧ x ≠ nan)⟩

instance decLt : DecidableLT Exact
  | finite a, finite b => inferInstanceAs (Decidable (a < b))
  | negInf, finite _ | negInf, posInf | finite _, posInf => .isTrue trivial
  | nan, _ | posInf, _ | finite _, nan | finite _, negInf | negInf, nan | negInf, negInf =>
    .isFalse id

instance decLe : DecidableLE Exact := fun x y =>
  inferInstanceAs (Decidable (x < y ∨ (x = y ∧ x ≠ nan)))

/-- The value that is no number differs from itself. -/
instance : BEq Exact := ⟨fun x y => decide (x = y ∧ x ≠ nan)⟩

def sign : Exact → Int
  | nan => 0
  | negInf => -1
  | finite q => if q < 0 then -1 else if 0 < q then 1 else 0
  | posInf => 1

/-- The infinity with a given sign; without a sign it is no number. -/
def infinite (s : Int) : Exact := if s < 0 then negInf else if 0 < s then posInf else nan

instance : Neg Exact where
  neg
    | nan => nan
    | negInf => posInf
    | finite q => finite (-q)
    | posInf => negInf

instance : Add Exact where
  add
    | finite a, finite b => finite (a + b)
    | negInf, finite _ | finite _, negInf | negInf, negInf => negInf
    | posInf, finite _ | finite _, posInf | posInf, posInf => posInf
    | _, _ => nan

instance : Sub Exact := ⟨fun x y => x + -y⟩

instance : Mul Exact where
  mul
    | finite a, finite b => finite (a * b)
    | x, y => infinite (x.sign * y.sign)

instance : Div Exact where
  div
    | finite a, finite b => if b = 0 then infinite (sign (finite a)) else finite (a / b)
    | finite _, negInf | finite _, posInf => finite 0
    | negInf, finite b => if b < 0 then posInf else negInf
    | posInf, finite b => if b < 0 then negInf else posInf
    | _, _ => nan

def floor : Exact → Exact
  | finite q => finite ⌊q⌋
  | x => x

def ceil : Exact → Exact
  | finite q => finite ⌈q⌉
  | x => x

def toInt? : Exact → Option Int
  | finite q => if q.den = 1 then some q.num else none
  | _ => none

/-- Powers with an integer exponent. -/
def power (x : Exact) (n : Int) : Exact :=
  if n = 0 then finite 1
  else
    match x with
    | finite q => if q = 0 ∧ n < 0 then posInf else finite (q ^ n)
    | posInf => if n < 0 then finite 0 else posInf
    | negInf => if n < 0 then finite 0 else if n % 2 = 0 then posInf else negInf
    | nan => nan

def pow (x y : Exact) : Exact :=
  match y.toInt? with
  | some n => x.power n
  | none => nan

def text : Exact → String
  | nan => "NaN"
  | negInf => "-inf"
  | finite q => toString q
  | posInf => "inf"

instance : Scalar Exact where
  decLt := decLt
  decLe := decLe
  ofDecimal m e := finite (m * 10 ^ e)
  infinity := posInf
  halfPi := finite (15707963267948966 / 10 ^ 16)
  tau := finite (6283185307179586 / 10 ^ 15)
  floor := floor
  ceil := ceil
  sin _ := nan
  ln _ := nan
  pow := pow
  toInt? := toInt?
  text := text
  dump := text

@[simp] theorem finite_lt_finite {a b : ℚ} : finite a < finite b ↔ a < b := Iff.rfl

@[simp] theorem negInf_lt_finite (a : ℚ) : negInf < finite a := trivial

@[simp] theorem negInf_lt_posInf : negInf < posInf := trivial

@[simp] theorem finite_lt_posInf (a : ℚ) : finite a < posInf := trivial

@[simp] theorem not_nan_lt (x : Exact) : ¬ nan < x := id

@[simp] theorem not_posInf_lt (x : Exact) : ¬ posInf < x := id

@[simp] theorem not_lt_nan (x : Exact) : ¬ x < nan := by cases x <;> exact id

@[simp] theorem not_lt_negInf (x : Exact) : ¬ x < negInf := by cases x <;> exact id

protected theorem le_iff {x y : Exact} : x ≤ y ↔ x < y ∨ (x = y ∧ x ≠ nan) := Iff.rfl

@[simp] theorem finite_le_finite {a b : ℚ} : finite a ≤ finite b ↔ a ≤ b := by
  simp [Exact.le_iff, le_iff_lt_or_eq]

@[simp] theorem beq_iff {x y : Exact} : (x == y) = true ↔ x = y ∧ x ≠ nan := by
  simp [BEq.beq]

@[simp] theorem neg_finite (a : ℚ) : -finite a = finite (-a) := rfl

@[simp] theorem neg_posInf : -posInf = negInf := rfl

@[simp] theorem neg_negInf : -negInf = posInf := rfl

@[simp] theorem neg_nan : -nan = nan := rfl

@[simp] theorem finite_add_finite (a b : ℚ) : finite a + finite b = finite (a + b) := rfl

@[simp] theorem negInf_add_finite (a : ℚ) : negInf + finite a = negInf := rfl

@[simp] theorem finite_add_negInf (a : ℚ) : finite a + negInf = negInf := rfl

@[simp] theorem negInf_add_negInf : negInf + negInf = negInf := rfl

@[simp] theorem posInf_add_finite (a : ℚ) : posInf + finite a = posInf := rfl

@[simp] theorem finite_add_posInf (a : ℚ) : finite a + posInf = posInf := rfl

@[simp] theorem posInf_add_posInf : posInf + posInf = posInf := rfl

@[simp] theorem finite_sub_finite (a b : ℚ) : finite a - finite b = finite (a - b) := by
  rw [sub_eq_add_neg]; rfl

@[simp] theorem finite_mul_finite (a b : ℚ) : finite a * finite b = finite (a * b) := rfl

@[simp] theorem negInf_mul (x : Exact) : negInf * x = infinite (-x.sign) := by
  cases x <;> exact congrArg infinite (neg_one_mul _)

@[simp] theorem posInf_mul (x : Exact) : posInf * x = infinite x.sign := by
  cases x <;> exact congrArg infinite (one_mul _)

@[simp] theorem finite_mul_negInf (a : ℚ) : finite a * negInf = infinite (-(finite a).sign) :=
  congrArg infinite (mul_neg_one _)

@[simp] theorem finite_mul_posInf (a : ℚ) : finite a * posInf = infinite (finite a).sign :=
  congrArg infinite (mul_one _)

@[simp] theorem sign_negInf : sign negInf = -1 := rfl

@[simp] theorem sign_posInf : sign posInf = 1 := rfl

theorem sign_of_neg {a : ℚ} (h : a < 0) : sign (finite a) = -1 := if_pos h

theorem sign_of_pos {a : ℚ} (h : 0 < a) : sign (finite a) = 1 := by
  simp [sign, h, not_lt_of_gt h]

@[simp] theorem infinite_one : infinite 1 = posInf := rfl

@[simp] theorem infinite_neg_one : infinite (-1) = negInf := rfl

@[simp] theorem nan_mul (x : Exact) : nan * x = nan := by
  cases x <;> exact congrArg infinite (zero_mul _)

@[simp] theorem finite_mul_nan (a : ℚ) : finite a * nan = nan := congrArg infinite (mul_zero _)

@[simp] theorem finite_div_finite {a b : ℚ} (h : b ≠ 0) : finite a / finite b = finite (a / b) :=
  if_neg h

theorem infinite_neg (s : Int) : infinite (-s) = -infinite s := by
  unfold infinite
  rcases lt_trichotomy s 0 with h | rfl | h
  · simp [h, not_lt_of_gt h]
  · rfl
  · simp [h, not_lt_of_gt h]

theorem sign_neg (x : Exact) : (-x).sign = -x.sign := by
  cases x with
  | finite q =>
    rcases lt_trichotomy q 0 with h | rfl | h
    · rw [neg_finite, sign_of_neg h, sign_of_pos (by linarith)]; rfl
    · rfl
    · rw [neg_finite, sign_of_pos h, sign_of_neg (by linarith)]
  | _ => rfl

protected theorem mul_comm (x y : Exact) : x * y = y * x := by
  cases x <;> cases y <;> simp [Rat.mul_comm, sign, infinite]

protected theorem neg_mul (x y : Exact) : -x * y = -(x * y) := by
  cases x <;> cases y <;> simp [← infinite_neg, ← sign_neg]

theorem zero_eq : (0 : Exact) = finite 0 := by
  change finite (((0 : Nat) : Int) * 10 ^ (0 : Int)) = _
  simp

theorem one_eq : (1 : Exact) = finite 1 := by
  change finite (((1 : Nat) : Int) * 10 ^ (0 : Int)) = _
  simp

theorem half_eq : (0.5 : Exact) = finite (1 / 2) := by
  change finite (((5 : Nat) : Int) * 10 ^ (-((1 : Nat) : Int))) = _
  norm_num

@[simp] theorem infinity_eq : (Scalar.infinity : Exact) = posInf := rfl

@[simp] theorem isNaN_iff {x : Exact} : Scalar.isNaN x = true ↔ x = nan := by
  simp [Scalar.isNaN, Bool.eq_false_iff]

@[simp] theorem isInfinite_iff {x : Exact} :
    Scalar.isInfinite x = true ↔ x = posInf ∨ x = negInf := by
  cases x <;> simp [Scalar.isInfinite]

@[simp] theorem isFinite_iff {x : Exact} : Scalar.isFinite x = true ↔ ∃ q, x = finite q := by
  cases x <;> simp [Scalar.isFinite, Bool.eq_false_iff]

@[simp] theorem toInt?_finite (q : ℚ) :
    Scalar.toInt? (finite q) = if q.den = 1 then some q.num else none := rfl

theorem order_eq_lt {x y : Exact} : Scalar.order x y = .lt ↔ x < y := by
  unfold Scalar.order; split_ifs <;> simp_all

protected theorem lt_asymm {x y : Exact} (h : x < y) : ¬ y < x := by
  cases x <;> cases y <;> simp_all [le_of_lt]

theorem order_eq_gt {x y : Exact} : Scalar.order x y = .gt ↔ y < x := by
  unfold Scalar.order
  split_ifs with h h'
  · simpa using Exact.lt_asymm h
  · simpa using h'
  · simpa using h'

theorem powNat_finite (x a : ℚ) (n : ℕ) :
    Scalar.powNat (finite x) n (finite a) = finite (a * x ^ n) := by
  induction n using Nat.strong_induction_on generalizing x a with
  | _ n ih =>
    have step : (if n % 2 == 1 then finite a * finite x else finite a)
        = finite (if n % 2 = 1 then a * x else a) := by
      split_ifs <;> simp_all
    rw [Scalar.powNat, step]
    split_ifs with h h' h'
    · obtain rfl : n = 1 := by omega
      simp
    · obtain rfl : n = 0 := by omega
      simp
    · rw [finite_mul_finite, ih _ (by omega), ← sq, ← pow_mul, mul_assoc, ← pow_succ',
        show 2 * (n / 2) + 1 = n by omega]
    · rw [finite_mul_finite, ih _ (by omega), ← sq, ← pow_mul, show 2 * (n / 2) = n by omega]

/-- Repeated squaring of an infinity leaves it, with the sign of what it is multiplied to. -/
theorem powNat_posInf {n : ℕ} (acc : Exact) (h : acc = posInf ∨ acc = negInf) :
    Scalar.powNat posInf n acc = acc := by
  induction n using Nat.strong_induction_on generalizing acc with
  | _ n ih =>
    have step : (if n % 2 == 1 then acc * posInf else acc) = acc := by
      rcases h with rfl | rfl <;> split <;> simp
    rw [Scalar.powNat, step]
    split_ifs with h'
    · rfl
    · rw [posInf_mul]
      exact ih _ (by omega) acc h

theorem powNat_posInf_one {n : ℕ} (h : n ≠ 0) : Scalar.powNat posInf n (finite 1) = posInf := by
  induction n using Nat.strong_induction_on with
  | _ n ih =>
    rw [Scalar.powNat]
    by_cases h2 : n % 2 = 1
    · simp [h2, sign_of_pos, powNat_posInf]
    · have h' : n / 2 ≠ 0 := by omega
      simp [h2, h', ih (n / 2) (by omega) h']

theorem powNat_negInf_one {n : ℕ} (h : n ≠ 0) :
    Scalar.powNat negInf n (finite 1) = if n % 2 = 0 then posInf else negInf := by
  rw [Scalar.powNat]
  by_cases h2 : n % 2 = 1
  · simp [h2, sign_of_pos, powNat_posInf]
  · have h' : n / 2 ≠ 0 := by omega
    simp [h', powNat_posInf_one h', show n % 2 = 0 by omega]

theorem powInt_natCast {x : Exact} (hx : x ≠ nan) (n : ℕ) : Scalar.powInt x n = x.power n := by
  have hn : ¬ (n : ℤ) < 0 := by omega
  simp only [Scalar.powInt, Int.natAbs_natCast, if_neg hn, one_eq]
  by_cases h : n = 0
  · subst h
    rw [Scalar.powNat]
    rfl
  · have h' : (n : ℤ) ≠ 0 := by omega
    cases x with
    | nan => exact absurd rfl hx
    | finite q => simp [powNat_finite, power, h, hn]
    | posInf => simp [powNat_posInf_one h, power, h, hn]
    | negInf =>
      rw [powNat_negInf_one h]
      simp only [power, h', hn, if_false]
      congr 1
      exact propext (by omega)

end Exact

end ParameterSolver
