import Mathlib
import ParameterSolver.Proofs.Scalar.Lawful
import ParameterSolver.Scalar.Machine

/-! Double-precision numbers follow the laws. An operation takes its arguments apart, computes and
packs the result; all that is needed of rounding is that it keeps zeros and infinities. -/

namespace ParameterSolver.Machine

open Float.Model (Format UnpackedFloat)
open Float.Model.UnpackedFloat

/-- A number taken apart. -/
def view (x : Float) : UnpackedFloat := x.toModel.unpack

/-- What becomes of a result that is packed. -/
def rounded (a : UnpackedFloat) : UnpackedFloat := unpack .binary64 (pack .binary64 a)

theorem rounded_zero (s : Sign) : rounded (.zero s) = .zero s := unpack_packedZero

theorem rounded_infinity (s : Sign) : rounded (.infinity s) = .infinity s := by
  simp [rounded, pack, unpack, packedInfinity]

theorem view_add (x y : Float) : view (x + y) = rounded (add .binary64 (view x) (view y)) := rfl

theorem view_mul (x y : Float) : view (x * y) = rounded (mul .binary64 (view x) (view y)) := rfl

theorem view_div (x y : Float) : view (x / y) = rounded (div .binary64 (view x) (view y)) := rfl

/-- Packing what was unpacked and negated loses nothing: it is the same bits with another sign. -/
theorem unpack_pack_neg {spec : Format} (b : BitVec spec.numBits) (hspec : 2 ≤ spec.exponentBits) :
    unpack spec (pack spec (unpack spec b).neg) = (unpack spec b).neg := by
  have hflip : unpack spec (packComponents spec (-(Sign.ofBitVec (unpackSign b)))
      (unpackExponent b) (unpackMantissa b)) = (unpack spec b).neg := by
    simp only [unpack, unpackMantissa_packComponents, unpackExponent_packComponents,
      unpackSign_packComponents, Sign.ofBitVec_toBitVec]
    split_ifs <;> rfl
  rw [← hflip, pack_unpack _ hspec]
  split_ifs with hnan
  · simp only [isNaNBits, decide_eq_true_eq] at hnan
    rw [unpack_packedNaN, unpack, if_pos hnan.1, if_neg hnan.2]
  · rfl

theorem view_neg (x : Float) : view (-x) = (view x).neg := unpack_pack_neg _ (by decide)

theorem view_zero : view (Scalar.ofDecimal 0 0) = .zero .positive := rfl

theorem view_infinity : view Scalar.infinity = .infinity .positive := rfl

theorem view_neg_infinity : view (-Scalar.infinity) = .infinity .negative := by
  rw [view_neg, view_infinity]
  rfl

theorem lt_iff {x y : Float} : x < y ↔ (view x).compare (view y) = some .lt := by
  change (decide (x.toModel < y.toModel) = true) ↔ _
  rw [decide_eq_true_iff]
  change ((view x).compare (view y) == some .lt) = true ↔ _
  rw [beq_iff_eq]

theorem beq_iff_compare {x y : Float} : x == y ↔ (view x).compare (view y) = some .eq := by
  change ((view x).compare (view y) == some .eq) = true ↔ _
  rw [beq_iff_eq]

/-- The same, or zero with one sign or the other. -/
def Alike (a b : UnpackedFloat) : Prop := a = b ∨ ∃ s t, a = .zero s ∧ b = .zero t

theorem beq_iff {x y : Float} : x == y ↔ view x ≠ .notANumber ∧ Alike (view x) (view y) := by
  have hcompare := beq_iff_ne_notANumber_and_eq (view x) (view y)
  rw [UnpackedFloat.beq, beq_iff_eq] at hcompare
  rw [beq_iff_compare, hcompare]
  constructor
  · rintro ⟨hx, -, h | ⟨h, h'⟩ | ⟨h, h'⟩⟩
    · exact ⟨hx, Or.inl h⟩
    · exact ⟨hx, Or.inr ⟨_, _, h, h'⟩⟩
    · exact ⟨hx, Or.inr ⟨_, _, h, h'⟩⟩
  · rintro ⟨hx, h | ⟨s, t, h, h'⟩⟩
    · exact ⟨hx, h ▸ hx, Or.inl h⟩
    · rw [h, h']
      cases s <;> cases t <;> simp

theorem Alike.symm {a b : UnpackedFloat} (h : Alike a b) : Alike b a := by
  rcases h with rfl | ⟨s, t, rfl, rfl⟩
  · exact Or.inl rfl
  · exact Or.inr ⟨t, s, rfl, rfl⟩

theorem Alike.trans {a b c : UnpackedFloat} (h : Alike a b) (h' : Alike b c) : Alike a c := by
  rcases h with rfl | ⟨s, t, rfl, rfl⟩
  · exact h'
  · rcases h' with rfl | ⟨-, u, -, rfl⟩
    · exact Or.inr ⟨s, t, rfl, rfl⟩
    · exact Or.inr ⟨s, u, rfl, rfl⟩

theorem Alike.ne_notANumber {a b : UnpackedFloat} (h : Alike a b) (ha : a ≠ .notANumber) :
    b ≠ .notANumber := by
  rcases h with rfl | ⟨s, t, rfl, rfl⟩
  · exact ha
  · exact UnpackedFloat.noConfusion

theorem Alike.rounded {a b : UnpackedFloat} (h : Alike a b) : Alike (rounded a) (rounded b) := by
  rcases h with rfl | ⟨s, t, rfl, rfl⟩
  · exact Or.inl rfl
  · exact Or.inr ⟨s, t, rounded_zero s, rounded_zero t⟩

theorem Alike.neg {a b : UnpackedFloat} (h : Alike a b) : Alike a.neg b.neg := by
  rcases h with rfl | ⟨s, t, rfl, rfl⟩
  · exact Or.inl rfl
  · exact Or.inr ⟨-s, -t, rfl, rfl⟩

theorem alike_zero_add (s t : Sign) (a : UnpackedFloat) :
    Alike (add .binary64 (.zero s) a) (add .binary64 (.zero t) a) ∧
      Alike (add .binary64 a (.zero s)) (add .binary64 a (.zero t)) := by
  cases a with
  | zero u =>
    cases s <;> cases t <;> cases u <;>
      exact ⟨Or.inr ⟨_, _, rfl, rfl⟩, Or.inr ⟨_, _, rfl, rfl⟩⟩
  | _ => exact ⟨Or.inl rfl, Or.inl rfl⟩

theorem alike_zero_mul (s t : Sign) (a : UnpackedFloat) :
    Alike (mul .binary64 (.zero s) a) (mul .binary64 (.zero t) a) ∧
      Alike (mul .binary64 a (.zero s)) (mul .binary64 a (.zero t)) := by
  cases a with
  | zero u => exact ⟨Or.inr ⟨_, _, rfl, rfl⟩, Or.inr ⟨_, _, rfl, rfl⟩⟩
  | finite u m e h => exact ⟨Or.inr ⟨_, _, rfl, rfl⟩, Or.inr ⟨_, _, rfl, rfl⟩⟩
  | _ => exact ⟨Or.inl rfl, Or.inl rfl⟩

theorem Alike.add {a a' b b' : UnpackedFloat} (h : Alike a a') (h' : Alike b b') :
    Alike (add .binary64 a b) (add .binary64 a' b') := by
  have hleft : Alike (UnpackedFloat.add .binary64 a b) (UnpackedFloat.add .binary64 a' b) := by
    rcases h with rfl | ⟨s, t, rfl, rfl⟩
    · exact Or.inl rfl
    · exact (alike_zero_add s t b).1
  rcases h' with rfl | ⟨s, t, rfl, rfl⟩
  · exact hleft
  · exact hleft.trans (alike_zero_add s t a').2

theorem Alike.mul {a a' b b' : UnpackedFloat} (h : Alike a a') (h' : Alike b b') :
    Alike (mul .binary64 a b) (mul .binary64 a' b') := by
  have hleft : Alike (UnpackedFloat.mul .binary64 a b) (UnpackedFloat.mul .binary64 a' b) := by
    rcases h with rfl | ⟨s, t, rfl, rfl⟩
    · exact Or.inl rfl
    · exact (alike_zero_mul s t b).1
  rcases h' with rfl | ⟨s, t, rfl, rfl⟩
  · exact hleft
  · exact hleft.trans (alike_zero_mul s t a').2

theorem beq_iff_of_infinity {x y : Float} {s : Sign} (hy : view y = .infinity s) :
    x == y ↔ view x = .infinity s := by
  rw [beq_iff, hy]
  constructor
  · rintro ⟨-, h | ⟨s, t, -, ht⟩⟩
    · exact h
    · cases ht
  · intro h
    rw [h]
    exact ⟨UnpackedFloat.noConfusion, Or.inl rfl⟩

theorem beq_infinity_iff {x : Float} : x == Scalar.infinity ↔ view x = .infinity .positive :=
  beq_iff_of_infinity view_infinity

theorem beq_neg_infinity_iff {x : Float} :
    x == -Scalar.infinity ↔ view x = .infinity .negative :=
  beq_iff_of_infinity view_neg_infinity

theorem beq_zero_iff {x : Float} : x == Scalar.ofDecimal 0 0 ↔ ∃ s, view x = .zero s := by
  rw [beq_iff, view_zero]
  constructor
  · rintro ⟨-, h | ⟨s, t, h, -⟩⟩
    · exact ⟨_, h⟩
    · exact ⟨s, h⟩
  · rintro ⟨s, h⟩
    rw [h]
    exact ⟨UnpackedFloat.noConfusion, Or.inr ⟨s, _, rfl, rfl⟩⟩

theorem isFinite_iff {x : Float} : Scalar.isFinite x ↔
    view x ≠ .notANumber ∧ ∀ s, view x ≠ .infinity s := by
  have hself : (x == x) = true ↔ view x ≠ .notANumber := by
    rw [beq_iff]
    exact ⟨And.left, fun h => ⟨h, Or.inl rfl⟩⟩
  simp only [Scalar.isFinite, Scalar.isNaN, Scalar.isInfinite, Bool.and_eq_true, Bool.not_eq_true',
    Bool.not_eq_false', Bool.or_eq_false_iff, hself]
  rw [← Bool.not_eq_true, ← Bool.not_eq_true, beq_infinity_iff, beq_neg_infinity_iff]
  refine and_congr_right fun _ => ⟨fun h s => ?_, fun h => ⟨h _, h _⟩⟩
  cases s
  · exact h.2
  · exact h.1

theorem Alike.compare_eq {a a' b b' : UnpackedFloat} (h : Alike a a') (h' : Alike b b') :
    a.compare b = a'.compare b' := by
  have hleft : a.compare b = a'.compare b := by
    rcases h with rfl | ⟨s, t, rfl, rfl⟩
    · rfl
    · cases b with
      | infinity u => cases u <;> rfl
      | finite u m e h => cases u <;> rfl
      | _ => rfl
  rcases h' with rfl | ⟨s, t, rfl, rfl⟩
  · exact hleft
  · rw [hleft]
    cases a' with
    | infinity u => cases u <;> rfl
    | finite u m e h => cases u <;> rfl
    | _ => rfl

theorem compare_swap (a b : UnpackedFloat) : b.compare a = (a.compare b).map Ordering.swap := by
  have hlex : ∀ (e e' : ℤ) (m m' : ℕ), (compare e' e).then (compare m' m)
      = ((compare e e').then (compare m m')).swap := by
    intro e e' m m'
    rw [Ordering.swap_then, ← Std.OrientedCmp.eq_swap, ← Std.OrientedCmp.eq_swap]
  cases a with
  | notANumber => cases b <;> rfl
  | infinity s =>
    cases b with
    | infinity t => cases s <;> cases t <;> rfl
    | _ => cases s <;> rfl
  | zero s =>
    cases b with
    | infinity t => cases t <;> rfl
    | finite t m e h => cases t <;> rfl
    | _ => rfl
  | finite s m e h =>
    cases b with
    | finite t m' e' h' => cases s <;> cases t <;> simp [UnpackedFloat.compare, hlex e e' m m']
    | infinity t => cases s <;> cases t <;> rfl
    | _ => cases s <;> rfl

theorem add_infinity {a : UnpackedFloat} (s : Sign)
    (h : a = .infinity s ∨ a ≠ .notANumber ∧ ∀ t, a ≠ .infinity t) :
    add .binary64 (.infinity s) a = .infinity s ∧ add .binary64 a (.infinity s) = .infinity s := by
  rcases h with rfl | ⟨hnan, hinf⟩
  · cases s <;> exact ⟨rfl, rfl⟩
  · cases a with
    | notANumber => exact absurd rfl hnan
    | infinity t => exact absurd rfl (hinf t)
    | _ => exact ⟨rfl, rfl⟩

/-- Not zero, and of this sign. -/
def Signed (s : Sign) (a : UnpackedFloat) : Prop :=
  a = .infinity s ∨ ∃ m e h, a = .finite s m e h

theorem signed_of_pos {x : Float} (h : Scalar.ofDecimal 0 0 < x) : Signed .positive (view x) := by
  rw [lt_iff, view_zero] at h
  cases hx : view x with
  | finite s m e hm =>
    rw [hx] at h
    cases s
    · cases h
    · exact Or.inr ⟨m, e, hm, rfl⟩
  | infinity s =>
    rw [hx] at h
    cases s
    · cases h
    · exact Or.inl rfl
  | _ =>
    rw [hx] at h
    cases h

theorem signed_of_neg {x : Float} (h : x < Scalar.ofDecimal 0 0) : Signed .negative (view x) := by
  rw [lt_iff, view_zero] at h
  cases hx : view x with
  | finite s m e hm =>
    rw [hx] at h
    cases s
    · exact Or.inr ⟨m, e, hm, rfl⟩
    · cases h
  | infinity s =>
    rw [hx] at h
    cases s
    · exact Or.inl rfl
    · cases h
  | _ =>
    rw [hx] at h
    cases h

theorem view_infinity_mul {x y : Float} {s t : Sign} (hx : view x = .infinity s)
    (hy : Signed t (view y)) :
    view (x * y) = .infinity (s * t) ∧ view (y * x) = .infinity (s * t) := by
  have hcomm : t * s = s * t := by
    cases s <;> cases t <;> rfl
  rw [view_mul, view_mul, hx]
  rcases hy with hy | ⟨m, e, h, hy⟩
  all_goals
    rw [hy]
    refine ⟨rounded_infinity (s * t), ?_⟩
    rw [← hcomm]
    exact rounded_infinity (t * s)

instance : Scalar.Lawful Float where
  symm {x y} h := by
    rw [beq_iff] at h ⊢
    exact ⟨h.2.ne_notANumber h.1, h.2.symm⟩
  trans {x y z} h h' := by
    rw [beq_iff] at h h' ⊢
    exact ⟨h.1, h.2.trans h'.2⟩
  lt_congr {x x' y y'} hx hy h := by
    rw [beq_iff] at hx hy
    rw [lt_iff] at h ⊢
    rwa [← hx.2.compare_eq hy.2]
  lt_asymm {x y} h h' := by
    rw [lt_iff] at h h'
    rw [compare_swap, h] at h'
    cases h'
  sign {x} h := by
    have hview := isFinite_iff.1 h
    change x == Scalar.ofDecimal 0 0 ∨ x < Scalar.ofDecimal 0 0 ∨ Scalar.ofDecimal 0 0 < x
    rw [beq_zero_iff, lt_iff, lt_iff, view_zero]
    cases hx : view x with
    | notANumber => exact absurd hx hview.1
    | infinity s => exact absurd hx (hview.2 s)
    | zero s => exact Or.inl ⟨s, rfl⟩
    | finite s m e h =>
      cases s
      · exact Or.inr (Or.inl rfl)
      · exact Or.inr (Or.inr rfl)
  isFinite_zero := by
    change Scalar.isFinite (Scalar.ofDecimal 0 0 : Float)
    rw [isFinite_iff, view_zero]
    exact ⟨UnpackedFloat.noConfusion, fun _ => UnpackedFloat.noConfusion⟩
  infinity_beq := beq_infinity_iff.2 view_infinity
  neg_infinity_lt := by
    rw [lt_iff, view_neg_infinity, view_infinity]
    rfl
  lt_infinity {x} h := by
    have hview := isFinite_iff.1 h
    rw [lt_iff, lt_iff, view_neg_infinity, view_infinity]
    cases hx : view x with
    | notANumber => exact absurd hx hview.1
    | infinity s => exact absurd hx (hview.2 s)
    | zero s => exact ⟨rfl, rfl⟩
    | finite s m e h => cases s <;> exact ⟨rfl, rfl⟩
  neg_congr {x y} h := by
    rw [beq_iff] at h ⊢
    rw [view_neg, view_neg]
    refine ⟨?_, h.2.neg⟩
    cases hx : view x with
    | notANumber => exact absurd hx h.1
    | _ => exact UnpackedFloat.noConfusion
  neg_neg_infinity := by
    rw [beq_infinity_iff, view_neg, view_neg_infinity]
    rfl
  isFinite_neg {x} h := by
    rw [isFinite_iff] at h ⊢
    rw [view_neg]
    cases hx : view x with
    | notANumber => exact absurd hx h.1
    | infinity s => exact absurd hx (h.2 s)
    | _ => exact ⟨UnpackedFloat.noConfusion, fun _ => UnpackedFloat.noConfusion⟩
  add_congr {x x' y y'} hx hy h := by
    rw [beq_iff] at hx hy ⊢
    exact ⟨(isFinite_iff.1 h).1, (hx.2.add hy.2).rounded⟩
  infinity_add {x y} hx hy := by
    rw [beq_infinity_iff] at hx
    rw [beq_infinity_iff, isFinite_iff] at hy
    obtain ⟨hl, hr⟩ := add_infinity .positive hy
    rw [beq_infinity_iff, beq_infinity_iff, view_add, view_add, hx, hl, hr]
    exact ⟨rounded_infinity _, rounded_infinity _⟩
  neg_infinity_add {x y} hx hy := by
    rw [beq_neg_infinity_iff] at hx
    rw [beq_neg_infinity_iff, isFinite_iff] at hy
    obtain ⟨hl, hr⟩ := add_infinity .negative hy
    rw [beq_neg_infinity_iff, beq_neg_infinity_iff, view_add, view_add, hx, hl, hr]
    exact ⟨rounded_infinity _, rounded_infinity _⟩
  mul_congr {x x' y y'} hx hy h := by
    rw [beq_iff] at hx hy ⊢
    exact ⟨(isFinite_iff.1 h).1, (hx.2.mul hy.2).rounded⟩
  zero_mul {x y} hx hy := by
    obtain ⟨s, hs⟩ := beq_zero_iff.1 hx
    rw [isFinite_iff] at hy
    change x * y == Scalar.ofDecimal 0 0 ∧ y * x == Scalar.ofDecimal 0 0
    rw [beq_zero_iff, beq_zero_iff, view_mul, view_mul, hs]
    cases hview : view y with
    | notANumber => exact absurd hview hy.1
    | infinity t => exact absurd hview (hy.2 t)
    | _ => exact ⟨⟨_, rounded_zero _⟩, ⟨_, rounded_zero _⟩⟩
  infinity_mul {x y} hx hy := by
    rw [beq_infinity_iff, beq_infinity_iff]
    exact view_infinity_mul (beq_infinity_iff.1 hx) (signed_of_pos hy)
  infinity_mul_neg {x y} hx hy := by
    rw [beq_neg_infinity_iff, beq_neg_infinity_iff]
    exact view_infinity_mul (beq_infinity_iff.1 hx) (signed_of_neg hy)
  neg_infinity_mul {x y} hx hy := by
    rw [beq_neg_infinity_iff, beq_neg_infinity_iff]
    exact view_infinity_mul (beq_neg_infinity_iff.1 hx) (signed_of_pos hy)
  neg_infinity_mul_neg {x y} hx hy := by
    rw [beq_infinity_iff, beq_infinity_iff]
    exact view_infinity_mul (beq_neg_infinity_iff.1 hx) (signed_of_neg hy)
  inverse_congr {x x'} hx hzero h := by
    change ¬ x == Scalar.ofDecimal 0 0 at hzero
    rw [beq_zero_iff] at hzero
    rw [beq_iff] at hx ⊢
    refine ⟨(isFinite_iff.1 h).1, Or.inl ?_⟩
    rcases hx.2 with heq | ⟨s, -, hs, -⟩
    · rw [view_div, view_div, heq]
    · exact absurd ⟨s, hs⟩ hzero

end ParameterSolver.Machine
