import Mathlib.Data.EReal.Inv
import ParameterSolver.Proofs.Scalar.MachineOrder

/-! Numbers read as the points of the extended real line that they stand for. A finite machine number
is its mantissa times a power of two; mantissas fill a binade, so that numbers compare as their points
do. -/

namespace ParameterSolver

/-- Numbers stand for points of the extended real line, in their order. -/
class Scalar.Reading (α : Type) [Scalar α] where
  real : α → EReal
  real_lt_iff {x y : α} : x == x → y == y → (real x < real y ↔ x < y)
  real_infinity : real Scalar.infinity = ⊤
  real_neg_infinity : real (-Scalar.infinity) = ⊥

namespace Scalar

open Reading

/-- Numbers that compute without rounding: a sum, a product and an inverse stand for what these are
on the extended real line, wherever it gives them a value. A sum of opposite infinities and a product
of zero with an infinity have none, and nothing is said about them. -/
class Unrounded (α : Type) [Scalar α] [Reading α] : Prop where
  real_zero : real (0 : α) = 0
  real_one : real (1 : α) = 1
  real_neg {x : α} : x == x → real (-x) = -real x
  /-- A sum of two numbers that are not opposite infinities. -/
  add {x y : α} : x == x → y == y → (real x ≠ ⊤ ∨ real y ≠ ⊥) → (real x ≠ ⊥ ∨ real y ≠ ⊤) →
    x + y == x + y ∧ real (x + y) = real x + real y
  /-- A product of two finite numbers, or of two that are not zero. -/
  mul {x y : α} : x == x → y == y → (isFinite x ∧ isFinite y) ∨ (real x ≠ 0 ∧ real y ≠ 0) →
    x * y == x * y ∧ real (x * y) = real x * real y
  inverse {x : α} : isFinite x → real x ≠ 0 → 1 / x == 1 / x ∧ real (1 / x) = (real x)⁻¹

end Scalar

namespace Machine

open Float.Model (Format UnpackedFloat)
open Float.Model.UnpackedFloat

/-- The magnitude of a finite number. -/
noncomputable def magnitude (m : ℕ) (e : ℤ) : ℝ := (m * 2 ^ e : ℚ)

theorem magnitude_eq (m : ℕ) (e : ℤ) : magnitude m e = m * (2 : ℝ) ^ e := by simp [magnitude]

/-- The point that a number taken apart stands for. -/
noncomputable def point : UnpackedFloat → EReal
  | .notANumber => 0
  | .infinity .negative => ⊥
  | .infinity .positive => ⊤
  | .zero _ => 0
  | .finite .negative m e _ => ((-magnitude m e : ℝ) : EReal)
  | .finite .positive m e _ => (magnitude m e : EReal)

/-- Mantissa and exponent as they are stored: the mantissa fills its 53 bits unless the exponent is
the least one. -/
structure Stored (m : ℕ) (e : ℤ) : Prop where
  pos : 0 < m
  lt : m < 2 ^ 53
  least : -1074 ≤ e
  full : 2 ^ 52 ≤ m ∨ e = -1074

theorem stored_of_view {x : Float} {s : Sign} {m : ℕ} {e : ℤ} {hm : 0 < m}
    (h : view x = .finite s m e hm) : Stored m e := by
  simp only [view, Float.Model.unpack, unpack] at h
  generalize x.toModel.toBits.toBitVec = b at h
  have hbias : Format.binary64.exponentBias = 1023 := rfl
  have hlt := (@unpackMantissa .binary64 b).isLt
  split_ifs at h with _ _ hexp _
  · obtain ⟨-, rfl, rfl⟩ := UnpackedFloat.finite.inj h
    rw [hexp, hbias]
    exact ⟨hm, hlt.trans (by norm_num), by simp, Or.inr (by simp)⟩
  · obtain ⟨-, rfl, rfl⟩ := UnpackedFloat.finite.inj h
    have hpos : 0 < (@unpackExponent .binary64 b).toNat :=
      (BitVec.toNat_pos _).2 ((BitVec.pos_iff_ne_zero _).2 hexp)
    have happend : (1#1 ++ @unpackMantissa .binary64 b).toNat
        = 2 ^ 52 + (@unpackMantissa .binary64 b).toNat := by
      rw [BitVec.toNat_append, ← Nat.shiftLeft_add_eq_or_of_lt hlt]
      rfl
    rw [hbias, happend]
    exact ⟨by omega, by simp at hlt; omega, by simp; omega, Or.inl (by omega)⟩

theorem magnitude_pos {m : ℕ} {e : ℤ} (h : 0 < m) : 0 < magnitude m e := by
  rw [magnitude_eq]
  positivity

theorem magnitude_lt_of_exponent {m m' : ℕ} {e e' : ℤ} (h : Stored m e) (h' : Stored m' e')
    (hlt : e < e') : magnitude m e < magnitude m' e' := by
  have hfull : 2 ^ 52 ≤ m' := h'.full.resolve_right fun he => by
    have := h.least
    omega
  calc magnitude m e < 2 ^ 53 * (2 : ℝ) ^ e := by
        rw [magnitude_eq]
        gcongr
        exact_mod_cast h.lt
    _ = 2 ^ 52 * (2 : ℝ) ^ (e + 1) := by
        rw [zpow_add_one₀ (by norm_num)]
        ring
    _ ≤ magnitude m' e' := by
        rw [magnitude_eq]
        gcongr
        · exact_mod_cast hfull
        · norm_num
        · omega

theorem magnitude_lt_iff {m m' : ℕ} {e e' : ℤ} (h : Stored m e) (h' : Stored m' e') :
    magnitude m e < magnitude m' e' ↔ e < e' ∨ e = e' ∧ m < m' := by
  rcases lt_trichotomy e e' with hlt | rfl | hgt
  · exact iff_of_true (magnitude_lt_of_exponent h h' hlt) (Or.inl hlt)
  · have hpow : (0 : ℝ) < 2 ^ e := by positivity
    rw [magnitude_eq, magnitude_eq, mul_lt_mul_iff_left₀ hpow]
    simp
  · refine iff_of_false (magnitude_lt_of_exponent h' h hgt).not_gt ?_
    omega

/-- Numbers of one kind compare by exponent and mantissa, others by their kinds. -/
theorem point_lt_iff_key {a b : UnpackedFloat} (hnum : a ≠ .notANumber) (hnum' : b ≠ .notANumber)
    (ha : ∀ s m e hm, a = .finite s m e hm → Stored m e)
    (hb : ∀ s m e hm, b = .finite s m e hm → Stored m e) : point a < point b ↔ key a < key b := by
  have hpos {m : ℕ} {e : ℤ} (hm : 0 < m) : 0 < (magnitude m e : EReal) :=
    EReal.coe_pos.2 (magnitude_pos hm)
  have hneg {m : ℕ} {e : ℤ} (hm : 0 < m) : ((-magnitude m e : ℝ) : EReal) < 0 :=
    EReal.coe_neg'.2 (neg_lt_zero.2 (magnitude_pos hm))
  cases a with
  | notANumber => exact absurd rfl hnum
  | infinity s =>
    cases b with
    | notANumber => exact absurd rfl hnum'
    | infinity t => cases s <;> cases t <;> simp [point, key, key_lt_iff]
    | zero t => cases s <;> simp [point, key, key_lt_iff]
    | finite t m e hm => cases s <;> cases t <;> simp [point, key, key_lt_iff, -EReal.coe_neg]
  | zero s =>
    cases b with
    | notANumber => exact absurd rfl hnum'
    | infinity t => cases t <;> simp [point, key, key_lt_iff]
    | zero t => simp [point, key]
    | finite t m e hm =>
      cases t
      · simp [point, key, key_lt_iff, (magnitude_pos hm).le, -EReal.coe_neg]
      · simp [point, key, key_lt_iff, hpos hm]
  | finite s m e hm =>
    have hstored := ha s m e hm rfl
    cases b with
    | notANumber => exact absurd rfl hnum'
    | infinity t => cases s <;> cases t <;> simp [point, key, key_lt_iff, -EReal.coe_neg]
    | zero t =>
      cases s
      · simp [point, key, key_lt_iff, hneg hm, -EReal.coe_neg]
      · simp [point, key, key_lt_iff, (magnitude_pos hm).le]
    | finite t m' e' hm' =>
      have hstored' := hb t m' e' hm' rfl
      cases s <;> cases t <;> rw [point, key, point, key, key_lt_iff]
      · rw [EReal.coe_lt_coe_iff, neg_lt_neg_iff, magnitude_lt_iff hstored' hstored]
        omega
      · exact iff_of_true ((hneg hm).trans (hpos hm')) (by omega)
      · exact iff_of_false ((hneg hm').trans (hpos hm)).not_gt (by omega)
      · rw [EReal.coe_lt_coe_iff, magnitude_lt_iff hstored hstored']
        omega

theorem point_lt_iff {x y : Float} (hx : view x ≠ .notANumber) (hy : view y ≠ .notANumber) :
    point (view x) < point (view y) ↔ key (view x) < key (view y) :=
  point_lt_iff_key hx hy (fun _ _ _ _ => stored_of_view) (fun _ _ _ _ => stored_of_view)

noncomputable instance : Scalar.Reading Float where
  real x := point (view x)
  real_lt_iff hx hy := by
    rw [number_iff] at hx hy
    rw [point_lt_iff hx hy, lt_iff_key]
    exact ⟨fun h => ⟨hx, hy, h⟩, fun h => h.2.2⟩
  real_infinity := by
    rw [view_infinity]
    rfl
  real_neg_infinity := by
    rw [view_neg_infinity]
    rfl

noncomputable instance : Scalar.Reading Damped where
  real := Scalar.Reading.real (α := Float)
  real_lt_iff := Scalar.Reading.real_lt_iff (α := Float)
  real_infinity := Scalar.Reading.real_infinity (α := Float)
  real_neg_infinity := Scalar.Reading.real_neg_infinity (α := Float)

end Machine

end ParameterSolver
