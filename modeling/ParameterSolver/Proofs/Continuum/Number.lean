import Mathlib
import ParameterSolver.Proofs.Scalar.Reading

/-! Real numbers with two infinities and a value that is no number. They follow the rules of machine
numbers and never round, roots, sines and logarithms included: what is said over all real numbers is
said over them. They cannot be computed with and have no text. -/

namespace ParameterSolver

inductive Continuum where
  | nan
  | number (e : EReal)

namespace Continuum

open Classical

noncomputable section

/-- The order of the numbers; what is no number has no place in it. -/
def lt : Continuum → Continuum → Prop
  | number a, number b => a < b
  | _, _ => False

instance : LT Continuum := ⟨lt⟩

instance : LE Continuum := ⟨fun x y => x < y ∨ (x = y ∧ x ≠ nan)⟩

/-- The value that is no number differs from itself. -/
instance : BEq Continuum := ⟨fun x y => decide (x = y ∧ x ≠ nan)⟩

/-- A function of numbers; of what is no number there is none. -/
def map (f : EReal → Continuum) : Continuum → Continuum
  | number a => f a
  | nan => nan

instance : Neg Continuum := ⟨map fun a => number (-a)⟩

/-- Opposite infinities have no sum. -/
def add (a b : EReal) : Continuum :=
  if (a = ⊤ ∧ b = ⊥) ∨ (a = ⊥ ∧ b = ⊤) then nan else number (a + b)

instance : Add Continuum := ⟨fun x y => x.map fun a => y.map fun b => add a b⟩

instance : Sub Continuum := ⟨fun x y => x + -y⟩

/-- Zero and an infinity have no product. -/
def mul (a b : EReal) : Continuum :=
  if (a = 0 ∧ (b = ⊤ ∨ b = ⊥)) ∨ (b = 0 ∧ (a = ⊤ ∨ a = ⊥)) then nan else number (a * b)

instance : Mul Continuum := ⟨fun x y => x.map fun a => y.map fun b => mul a b⟩

/-- A number other than zero by zero is an infinity, and a finite one by an infinity is zero. -/
def div (a b : EReal) : Continuum :=
  if b = 0 then mul a ⊤ else if b = ⊤ ∨ b = ⊥ then mul a 0 else number (a * b⁻¹)

instance : Div Continuum := ⟨fun x y => x.map fun a => y.map fun b => div a b⟩

/-- Powers as machine numbers have them: what does not depend on the one argument has its value
whatever that is, and at infinity a power is its limit. -/
def power (a e : EReal) : Continuum :=
  if e = 0 ∨ a = 1 then number 1
  else if e = ⊤ ∨ e = ⊥ then
    if a = -1 then number 1 else if (-1 < a ∧ a < 1) ↔ e = ⊤ then number 0 else number ⊤
  else
    let y := e.toReal
    if a = ⊤ then number (if 0 < y then ⊤ else 0)
    else if a = ⊥ then
      if y < 0 then number 0 else if ∃ n : ℤ, y = 2 * n + 1 then number ⊥ else number ⊤
    else
      let x := a.toReal
      if x = 0 ∧ y < 0 then number ⊤
      else if x < 0 ∧ ¬ ∃ n : ℤ, y = n then nan
      else number ((x ^ y : ℝ) : EReal)

/-- The logarithm, which is infinite at zero and at infinity. -/
def ln (a : EReal) : Continuum :=
  if a < 0 then nan else if a = 0 then number ⊥ else if a = ⊤ then number ⊤
  else number (Real.log a.toReal : ℝ)

/-- A function of finite numbers that leaves the infinities. -/
def onReals (f : ℝ → ℝ) (a : EReal) : Continuum :=
  if a = ⊤ ∨ a = ⊥ then number a else number (f a.toReal : ℝ)

instance : Scalar Continuum where
  decLt _ _ := propDecidable _
  decLe _ _ := propDecidable _
  ofDecimal m e := number ((m * 10 ^ e : ℝ) : EReal)
  infinity := number ⊤
  halfPi := number ((Real.pi / 2 : ℝ) : EReal)
  tau := number ((2 * Real.pi : ℝ) : EReal)
  floor := map (onReals fun r => ⌊r⌋)
  ceil := map (onReals fun r => ⌈r⌉)
  sin := map fun a => if a = ⊤ ∨ a = ⊥ then nan else number (Real.sin a.toReal : ℝ)
  ln := map ln
  pow x y := x.map fun a => y.map fun b => power a b
  toInt?
    | number a => if h : ∃ n : ℤ, a = ((n : ℝ) : EReal) then some h.choose else none
    | nan => none
  text _ := ""
  dump _ := ""

theorem number_ne_nan {a : EReal} : number a ≠ nan := by simp

@[simp] theorem number_lt_number {a b : EReal} : number a < number b ↔ a < b := Iff.rfl

@[simp] theorem not_nan_lt (x : Continuum) : ¬ nan < x := id

@[simp] theorem not_lt_nan (x : Continuum) : ¬ x < nan := by cases x <;> exact id

protected theorem le_iff {x y : Continuum} : x ≤ y ↔ x < y ∨ (x = y ∧ x ≠ nan) := Iff.rfl

@[simp] theorem beq_iff {x y : Continuum} : (x == y) = true ↔ x = y ∧ x ≠ nan := by simp [BEq.beq]

@[simp] theorem neg_number (a : EReal) : -number a = number (-a) := rfl

@[simp] theorem neg_nan : -nan = nan := rfl

theorem number_add_number (a b : EReal) : number a + number b = add a b := rfl

theorem number_mul_number (a b : EReal) : number a * number b = mul a b := rfl

theorem number_div_number (a b : EReal) : number a / number b = div a b := rfl

@[simp] theorem infinity_eq : (Scalar.infinity : Continuum) = number ⊤ := rfl

theorem ofNat_eq (n : ℕ) [n.AtLeastTwo] : (OfNat.ofNat n : Continuum) = number ((n : ℝ) : EReal) := by
  change number ((((n : ℕ) : ℤ) * 10 ^ (0 : ℤ) : ℝ) : EReal) = _
  simp

theorem zero_eq : (0 : Continuum) = number 0 := by
  change number ((((0 : ℕ) : ℤ) * 10 ^ (0 : ℤ) : ℝ) : EReal) = _
  simp

theorem one_eq : (1 : Continuum) = number 1 := by
  change number ((((1 : ℕ) : ℤ) * 10 ^ (0 : ℤ) : ℝ) : EReal) = _
  simp

@[simp] theorem isFinite_iff {x : Continuum} :
    Scalar.isFinite x = true ↔ ∃ r : ℝ, x = number r := by
  cases x with
  | nan => simp [Scalar.isFinite, Scalar.isNaN]
  | number a =>
    induction a <;> simp [Scalar.isFinite, Scalar.isNaN, Scalar.isInfinite, ← Bool.not_eq_true]

instance : Scalar.Ordered Continuum where
  beq_symm h := by
    rw [beq_iff] at h ⊢
    exact ⟨h.1.symm, h.1 ▸ h.2⟩
  beq_trans h h' := by
    rw [beq_iff] at h h' ⊢
    exact ⟨h.1.trans h'.1, h.2⟩
  lt_trans {x y z} h h' := by
    cases x <;> cases y <;> cases z <;> simp_all
    exact h.trans h'
  lt_asymm {x y} h := by
    cases x <;> cases y <;> simp_all
    exact h.le
  lt_congr h h' hlt := by
    rw [beq_iff] at h h'
    rwa [← h.1, ← h'.1]
  numbers_of_lt {x y} h := by
    cases x <;> cases y <;> simp_all
  total {x y} hx hy := by
    cases x <;> cases y <;> simp_all
    exact lt_trichotomy _ _
  le_iff := by simp [Continuum.le_iff]
  neg_lt_neg {x y} h := by
    cases x <;> cases y <;> simp_all
  neg_congr {x y} h := by
    cases x <;> cases y <;> simp_all
  le_infinity {x} h := by
    cases x with
    | nan => simp_all
    | number a =>
      simp only [Continuum.le_iff, infinity_eq, number_lt_number, number.injEq]
      exact (le_top.lt_or_eq).imp_right fun h => ⟨h, nofun⟩
  neg_infinity_le {x} h := by
    cases x with
    | nan => simp_all
    | number a =>
      simp only [Continuum.le_iff, infinity_eq, neg_number, EReal.neg_top, number_lt_number,
        number.injEq]
      exact (bot_le.lt_or_eq).imp_right fun h => ⟨h, nofun⟩
  isFinite_zero := isFinite_iff.2 ⟨0, zero_eq⟩
  isFinite_one := isFinite_iff.2 ⟨1, one_eq⟩
  neg_one_le_one := by
    rw [one_eq, neg_number, Continuum.le_iff, number_lt_number]
    refine Or.inl ?_
    rw [← EReal.coe_one, ← EReal.coe_neg, EReal.coe_lt_coe_iff]
    norm_num

/-- The point that a number is. -/
def point : Continuum → EReal
  | nan => 0
  | number a => a

instance : Scalar.Reading Continuum where
  real := point
  real_lt_iff {x y} hx hy := by
    cases x <;> cases y <;> simp_all [point]
  real_infinity := rfl
  real_neg_infinity := rfl

@[simp] theorem real_number (a : EReal) : Scalar.Reading.real (number a) = a := rfl

instance : Scalar.Unrounded Continuum where
  real_zero := by rw [zero_eq, real_number]
  real_one := by rw [one_eq, real_number]
  real_neg {x} hx := by
    cases x <;> simp_all
  add {x y} hx hy h h' := by
    cases x <;> cases y <;> simp_all
    rw [number_add_number, add, if_neg]
    · simp
    · tauto
  mul {x y} hx hy h := by
    cases x <;> cases y <;> simp_all
    rw [number_mul_number, mul, if_neg]
    · simp
    · rintro (⟨rfl, rfl | rfl⟩ | ⟨rfl, rfl | rfl⟩) <;> simp at h
  inverse {x} hx h := by
    obtain ⟨r, rfl⟩ := isFinite_iff.1 hx
    rw [real_number] at h
    rw [one_eq, number_div_number, div, if_neg h, if_neg (by simp)]
    simp

theorem sineBounded : Scalar.SineBounded Continuum := by
  intro x hx
  obtain ⟨r, rfl⟩ := isFinite_iff.1 hx
  have hsin : Scalar.sin (number r) = number (Real.sin r : ℝ) := by
    change (if (r : EReal) = ⊤ ∨ (r : EReal) = ⊥ then nan else number (Real.sin (r : EReal).toReal : ℝ))
      = _
    rw [if_neg (by simp), EReal.toReal_coe]
  have hle {a b : EReal} (h : a ≤ b) : number a ≤ number b := by
    rw [Continuum.le_iff, number_lt_number]
    exact h.lt_or_eq.imp_right fun h => ⟨congrArg number h, number_ne_nan⟩
  rw [hsin, one_eq, neg_number, ← EReal.coe_one, ← EReal.coe_neg]
  exact ⟨hle (EReal.coe_le_coe_iff.2 (Real.neg_one_le_sin r)),
    hle (EReal.coe_le_coe_iff.2 (Real.sin_le_one r))⟩

end

end Continuum

end ParameterSolver
