import ParameterSolver.Proofs.Scalar.Machine
import ParameterSolver.Proofs.Scalar.Ordered

/-! Double-precision numbers are ordered: a number taken apart has a key, and numbers compare as
their keys do. -/

namespace ParameterSolver.Machine

open Float.Model (UnpackedFloat)
open Float.Model.UnpackedFloat

/-- The kind of a number from negative to positive infinity, then exponent and mantissa, with the
sign of the number. -/
def key : UnpackedFloat → ℤ ×ₗ ℤ ×ₗ ℤ
  | .notANumber => toLex (0, toLex (0, 0))
  | .infinity .negative => toLex (-2, toLex (0, 0))
  | .infinity .positive => toLex (2, toLex (0, 0))
  | .zero _ => toLex (0, toLex (0, 0))
  | .finite .negative m e _ => toLex (-1, toLex (-e, -m))
  | .finite .positive m e _ => toLex (1, toLex (e, m))

theorem key_lt_iff {a b c a' b' c' : ℤ} : toLex (a, toLex (b, c)) < toLex (a', toLex (b', c')) ↔
    a < a' ∨ a = a' ∧ (b < b' ∨ b = b' ∧ c < c') := by
  rw [Prod.Lex.toLex_lt_toLex, Prod.Lex.toLex_lt_toLex]

theorem key_neg_lt {a b : UnpackedFloat} (h : key a < key b) : key b.neg < key a.neg := by
  have hneg (a : UnpackedFloat) : ∃ k e m : ℤ, key a = toLex (k, toLex (e, m)) ∧
      key a.neg = toLex (-k, toLex (-e, -m)) := by
    cases a with
    | notANumber => exact ⟨0, 0, 0, rfl, rfl⟩
    | infinity s => cases s <;> exact ⟨_, _, _, rfl, rfl⟩
    | zero s => exact ⟨0, 0, 0, rfl, rfl⟩
    | finite s m e hm =>
      cases s
      · exact ⟨-1, -e, -m, rfl, by rw [neg_neg, neg_neg, neg_neg]; rfl⟩
      · exact ⟨1, e, m, rfl, rfl⟩
  obtain ⟨k, e, m, ha, ha'⟩ := hneg a
  obtain ⟨k', e', m', hb, hb'⟩ := hneg b
  rw [ha, hb, key_lt_iff] at h
  rw [ha', hb', key_lt_iff]
  omega

theorem compare_eq {a b : UnpackedFloat} (ha : a ≠ .notANumber) (hb : b ≠ .notANumber) :
    a.compare b = some (compare (key a) (key b)) := by
  have hneg (x y : ℤ) : compare (-x) (-y) = (compare x y).swap := by
    rcases lt_trichotomy x y with h | rfl | h
    · rw [compare_lt_iff_lt.2 h, compare_gt_iff_gt.2 (neg_lt_neg h)]
      rfl
    · rw [compare_eq_iff_eq.2 rfl, compare_eq_iff_eq.2 rfl]
      rfl
    · rw [compare_gt_iff_gt.2 h, compare_lt_iff_lt.2 (neg_lt_neg h)]
      rfl
  have hcast (x y : ℕ) : compare (x : ℤ) y = compare x y := by
    rcases lt_trichotomy x y with h | rfl | h
    · rw [compare_lt_iff_lt.2 h, compare_lt_iff_lt.2 (Int.ofNat_lt.2 h)]
    · rw [compare_eq_iff_eq.2 rfl, compare_eq_iff_eq.2 rfl]
    · rw [compare_gt_iff_gt.2 h, compare_gt_iff_gt.2 (Int.ofNat_lt.2 h)]
  cases a with
  | notANumber => exact absurd rfl ha
  | infinity s =>
    cases b with
    | notANumber => exact absurd rfl hb
    | infinity t => cases s <;> cases t <;> rfl
    | zero t => cases s <;> rfl
    | finite t m e h => cases s <;> cases t <;> rfl
  | zero s =>
    cases b with
    | notANumber => exact absurd rfl hb
    | infinity t => cases t <;> rfl
    | zero t => rfl
    | finite t m e h => cases t <;> rfl
  | finite s m e h =>
    cases b with
    | notANumber => exact absurd rfl hb
    | infinity t => cases s <;> cases t <;> rfl
    | zero t => cases s <;> rfl
    | finite t m' e' h' =>
      have hlex (e e' m m' : ℤ) (k : ℤ) : compare (toLex (k, toLex (e, m))) (toLex (k, toLex (e', m')))
          = (compare e e').then (compare m m') := by
        change (compare k k).then _ = _
        rw [compare_eq_iff_eq.2 rfl]
        rfl
      cases s <;> cases t
      · rw [key, key, hlex, hneg, hneg, hcast, ← Ordering.swap_then]
        rfl
      · rfl
      · rfl
      · rw [key, key, hlex, hcast]
        rfl

theorem compare_of_notANumber {a b : UnpackedFloat}
    (h : ¬ (a ≠ .notANumber ∧ b ≠ .notANumber)) : a.compare b = none := by
  rw [not_and_or, not_not, not_not] at h
  rcases h with rfl | rfl
  · rfl
  · cases a <;> rfl

theorem compare_eq_lt_iff {a b : UnpackedFloat} : a.compare b = some .lt ↔
    a ≠ .notANumber ∧ b ≠ .notANumber ∧ key a < key b := by
  by_cases h : a ≠ .notANumber ∧ b ≠ .notANumber
  · rw [compare_eq h.1 h.2, Option.some_inj, compare_lt_iff_lt]
    exact ⟨fun hlt => ⟨h.1, h.2, hlt⟩, fun hlt => hlt.2.2⟩
  · rw [compare_of_notANumber h]
    exact ⟨nofun, fun hlt => absurd ⟨hlt.1, hlt.2.1⟩ h⟩

theorem compare_eq_eq_iff {a b : UnpackedFloat} : a.compare b = some .eq ↔
    a ≠ .notANumber ∧ b ≠ .notANumber ∧ key a = key b := by
  by_cases h : a ≠ .notANumber ∧ b ≠ .notANumber
  · rw [compare_eq h.1 h.2, Option.some_inj, compare_eq_iff_eq]
    exact ⟨fun heq => ⟨h.1, h.2, heq⟩, fun heq => heq.2.2⟩
  · rw [compare_of_notANumber h]
    exact ⟨nofun, fun heq => absurd ⟨heq.1, heq.2.1⟩ h⟩

theorem lt_iff_key {x y : Float} : x < y ↔
    view x ≠ .notANumber ∧ view y ≠ .notANumber ∧ key (view x) < key (view y) :=
  lt_iff.trans compare_eq_lt_iff

theorem beq_iff_key {x y : Float} : x == y ↔
    view x ≠ .notANumber ∧ view y ≠ .notANumber ∧ key (view x) = key (view y) :=
  beq_iff_compare.trans compare_eq_eq_iff

theorem le_iff {x y : Float} : x ≤ y ↔ x < y ∨ x == y := by
  rw [lt_iff, beq_iff_compare]
  change (decide (x.toModel ≤ y.toModel) = true) ↔ _
  rw [decide_eq_true_iff]
  change ((view x).compare (view y)).any Ordering.isLE = true ↔ _
  cases (view x).compare (view y) with
  | none => simp
  | some o => cases o <;> simp

theorem number_iff {x : Float} : x == x ↔ view x ≠ .notANumber :=
  beq_iff_key.trans ⟨And.left, fun h => ⟨h, h, rfl⟩⟩

theorem key_le_infinity (a : UnpackedFloat) :
    key (.infinity .negative) ≤ key a ∧ key a ≤ key (.infinity .positive) := by
  rw [← not_lt, ← not_lt]
  cases a with
  | infinity s => cases s <;> exact ⟨by decide, by decide⟩
  | finite s m e h =>
    cases s <;> (rw [key, key, key, key_lt_iff, key_lt_iff]; omega)
  | zero s => cases s <;> exact ⟨by decide, by decide⟩
  | notANumber => exact ⟨by decide, by decide⟩

theorem neg_ne_notANumber {a : UnpackedFloat} (h : a ≠ .notANumber) : a.neg ≠ .notANumber := by
  cases a with
  | notANumber => exact absurd rfl h
  | _ => exact UnpackedFloat.noConfusion

instance : Scalar.Ordered Float where
  beq_symm h := by
    rw [beq_iff_key] at h ⊢
    exact ⟨h.2.1, h.1, h.2.2.symm⟩
  beq_trans h h' := by
    rw [beq_iff_key] at h h' ⊢
    exact ⟨h.1, h'.2.1, h.2.2.trans h'.2.2⟩
  lt_trans h h' := by
    rw [lt_iff_key] at h h' ⊢
    exact ⟨h.1, h'.2.1, h.2.2.trans h'.2.2⟩
  lt_asymm h h' := by
    rw [lt_iff_key] at h h'
    exact lt_asymm h.2.2 h'.2.2
  lt_congr hx hy h := by
    rw [beq_iff_key] at hx hy
    rw [lt_iff_key] at h ⊢
    exact ⟨hx.2.1, hy.2.1, hx.2.2 ▸ hy.2.2 ▸ h.2.2⟩
  numbers_of_lt h := by
    rw [number_iff, number_iff]
    rw [lt_iff_key] at h
    exact ⟨h.1, h.2.1⟩
  total hx hy := by
    rw [number_iff] at hx hy
    rw [lt_iff_key, beq_iff_key, lt_iff_key]
    rcases lt_trichotomy (key (view _)) (key (view _)) with h | h | h
    · exact Or.inl ⟨hx, hy, h⟩
    · exact Or.inr (Or.inl ⟨hx, hy, h⟩)
    · exact Or.inr (Or.inr ⟨hy, hx, h⟩)
  le_iff := le_iff
  neg_lt_neg h := by
    rw [lt_iff_key] at h ⊢
    rw [view_neg, view_neg]
    exact ⟨neg_ne_notANumber h.2.1, neg_ne_notANumber h.1, key_neg_lt h.2.2⟩
  neg_congr := Scalar.Lawful.neg_congr
  le_infinity h := by
    rw [number_iff] at h
    rw [le_iff, lt_iff_key, beq_iff_key, view_infinity]
    rcases (key_le_infinity (view _)).2.lt_or_eq with hlt | heq
    · exact Or.inl ⟨h, nofun, hlt⟩
    · exact Or.inr ⟨h, nofun, heq⟩
  neg_infinity_le h := by
    rw [number_iff] at h
    rw [le_iff, lt_iff_key, beq_iff_key, view_neg_infinity]
    rcases (key_le_infinity (view _)).1.lt_or_eq with hlt | heq
    · exact Or.inl ⟨nofun, h, hlt⟩
    · exact Or.inr ⟨nofun, h, heq⟩
  isFinite_zero := Scalar.Lawful.isFinite_zero
  isFinite_one := by decide +kernel
  neg_one_le_one := by decide +kernel

/-- Double-precision numbers with a sine that cannot leave `[-1, 1]`. -/
def Damped : Type := Float

/-- The sine, unless it were out of bounds. -/
def dampedSin (x : Float) : Float :=
  if -1 ≤ Float.sin x ∧ Float.sin x ≤ 1 then Float.sin x else 0

instance : Scalar Damped := { (inferInstance : Scalar Float) with sin := dampedSin }

instance : Scalar.Ordered Damped where
  beq_symm := Scalar.Ordered.beq_symm (α := Float)
  beq_trans := Scalar.Ordered.beq_trans (α := Float)
  lt_trans := Scalar.Ordered.lt_trans (α := Float)
  lt_asymm := Scalar.Ordered.lt_asymm (α := Float)
  lt_congr := Scalar.Ordered.lt_congr (α := Float)
  numbers_of_lt := Scalar.Ordered.numbers_of_lt (α := Float)
  total := Scalar.Ordered.total (α := Float)
  le_iff := Scalar.Ordered.le_iff (α := Float)
  neg_lt_neg := Scalar.Ordered.neg_lt_neg (α := Float)
  neg_congr := Scalar.Ordered.neg_congr (α := Float)
  le_infinity := Scalar.Ordered.le_infinity (α := Float)
  neg_infinity_le := Scalar.Ordered.neg_infinity_le (α := Float)
  isFinite_zero := Scalar.Ordered.isFinite_zero (α := Float)
  isFinite_one := Scalar.Ordered.isFinite_one (α := Float)
  neg_one_le_one := Scalar.Ordered.neg_one_le_one (α := Float)

theorem sineBounded_damped : Scalar.SineBounded Damped := by
  intro x _
  have hone : (Scalar.ofDecimal 1 0 : Float) = 1 := by decide +kernel
  change (-Scalar.ofDecimal 1 0 : Float) ≤ dampedSin x ∧ dampedSin x ≤ Scalar.ofDecimal 1 0
  rw [hone]
  unfold dampedSin
  split
  · assumption
  · exact ⟨by decide +kernel, by decide +kernel⟩

end ParameterSolver.Machine
