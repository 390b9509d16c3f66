import ParameterSolver.Proofs.Continuum.Number
import ParameterSolver.Proofs.Numbers.Maps
import ParameterSolver.Proofs.Numbers.Powers

/-! Powers of intervals of real numbers. Between the ends a power is monotone in either argument, so
that some corner lies below every power and some corner above it. What the corners do not say is
whether a power that is as small or as large as they are is reached: along an edge on which the power
is constant, at base one, at base zero or at exponent zero, it is reached even where the ends of the
edge are open. -/

namespace ParameterSolver

open Scalar Scalar.Reading

namespace Continuum

variable {a b c d e f : EReal} {x y : ℝ}

/-- The point of a power. -/
noncomputable def rpow (a e : EReal) : EReal := point (power a e)

theorem power_coe (hx : 0 ≤ x) (y : ℝ) : power x y =
    number (if x = 0 ∧ y < 0 then ⊤ else ((x ^ y : ℝ) : EReal)) := by
  unfold power
  by_cases hy : y = 0
  · subst hy
    simp
  by_cases hx1 : x = 1
  · subst hx1
    simp
  have hneg : ¬ (x < 0 ∧ ¬ ∃ n : ℤ, y = n) := fun h => h.1.not_ge hx
  simp only [EReal.coe_eq_zero, EReal.coe_eq_one, hy, hx1, or_self, if_false, EReal.coe_ne_top,
    EReal.coe_ne_bot, EReal.toReal_coe, hneg]
  split_ifs <;> rfl

theorem power_top (y : ℝ) :
    power ⊤ y = number (if y = 0 then 1 else if 0 < y then ⊤ else 0) := by
  have hone : (⊤ : EReal) ≠ 1 := nofun
  unfold power
  by_cases hy : y = 0
  · subst hy
    simp
  · simp only [EReal.coe_eq_zero, hy, hone, or_self, if_false, EReal.coe_ne_top, EReal.coe_ne_bot,
      if_true, EReal.toReal_coe]
    split_ifs with h <;> simp [h]

theorem power_top_right (ha : 0 ≤ a) :
    power a ⊤ = number (if a = 1 then 1 else if a < 1 then 0 else ⊤) := by
  have hneg : (-1 : EReal) < a :=
    lt_of_lt_of_le (by rw [← EReal.coe_one, ← EReal.coe_neg, EReal.coe_neg']; norm_num) ha
  have hzero : (⊤ : EReal) ≠ 0 := nofun
  unfold power
  by_cases h1 : a = 1
  · simp [h1]
  · simp only [hzero, h1, or_self, if_false, true_or, if_true, hneg.ne', hneg, true_and, iff_true]
    split_ifs <;> rfl

theorem power_bot_right (ha : 0 ≤ a) :
    power a ⊥ = number (if a = 1 then 1 else if a < 1 then ⊤ else 0) := by
  have hneg : (-1 : EReal) < a :=
    lt_of_lt_of_le (by rw [← EReal.coe_one, ← EReal.coe_neg, EReal.coe_neg']; norm_num) ha
  have hzero : (⊥ : EReal) ≠ 0 := nofun
  have htop : (⊥ : EReal) ≠ ⊤ := nofun
  unfold power
  by_cases h1 : a = 1
  · simp [h1]
  · simp only [hzero, h1, or_self, if_false, or_true, if_true, hneg.ne', hneg, true_and, htop,
      iff_false]
    split_ifs <;> simp_all

/-- A power of a number that is not negative is such a number. -/
theorem rpow_nonneg (ha : 0 ≤ a) (e : EReal) : 0 ≤ rpow a e ∧ power a e = number (rpow a e) := by
  have hof {v : EReal} (hv : 0 ≤ v) (h : power a e = number v) :
      0 ≤ rpow a e ∧ power a e = number (rpow a e) := by
    rw [rpow, h]
    exact ⟨hv, rfl⟩
  induction e with
  | bot => exact hof (by split_ifs <;> simp) (power_bot_right ha)
  | top => exact hof (by split_ifs <;> simp) (power_top_right ha)
  | coe y =>
    induction a with
    | bot => exact absurd ha (by simp)
    | top => exact hof (by split_ifs <;> simp) (power_top y)
    | coe x =>
      have hx : 0 ≤ x := EReal.coe_nonneg.1 ha
      refine hof ?_ (power_coe hx y)
      split_ifs
      · simp
      · exact EReal.coe_nonneg.2 (Real.rpow_nonneg hx y)

theorem rpow_coe (hx : 0 ≤ x) (h : x = 0 → 0 ≤ y) : rpow x y = ((x ^ y : ℝ) : EReal) := by
  rw [rpow, power_coe hx, if_neg fun h' => (h h'.1).not_gt h'.2]
  rfl

theorem rpow_zero_coe (hy : y < 0) : rpow 0 y = ⊤ := by
  rw [← EReal.coe_zero, rpow, power_coe le_rfl, if_pos ⟨rfl, hy⟩]
  rfl

theorem rpow_one_left (e : EReal) : rpow 1 e = 1 := by
  rw [rpow, power, if_pos (Or.inr rfl)]
  rfl

/-- A power keeps the order of the bases, or turns it around if the exponent is negative. -/
theorem rpow_le_rpow_left (ha : 0 ≤ a) (hab : a ≤ b) (hy : 0 ≤ y) : rpow a y ≤ rpow b y := by
  induction a with
  | bot => exact absurd ha (by simp)
  | top => rw [top_le_iff.1 hab]
  | coe x =>
    have hx : 0 ≤ x := EReal.coe_nonneg.1 ha
    rw [rpow_coe hx fun _ => hy]
    induction b with
    | bot => exact absurd hab (by simp)
    | top =>
      rw [rpow, power_top]
      rcases hy.lt_or_eq with hpos | rfl
      · rw [if_neg hpos.ne', if_pos hpos]
        exact le_top
      · simp [point]
    | coe x' =>
      have hle : x ≤ x' := EReal.coe_le_coe_iff.1 hab
      rw [rpow_coe (hx.trans hle) fun _ => hy, EReal.coe_le_coe_iff]
      exact Real.rpow_le_rpow hx hle hy

theorem rpow_le_rpow_left_of_neg (ha : 0 ≤ a) (hab : a ≤ b) (hy : y < 0) : rpow b y ≤ rpow a y := by
  rcases ha.lt_or_eq with hpos | rfl
  · induction b with
    | bot => exact absurd (hpos.trans_le hab) (by simp)
    | top =>
      have hzero : rpow ⊤ y = 0 := by rw [rpow, power_top, if_neg hy.ne, if_neg hy.not_gt]; rfl
      rw [hzero]
      exact (rpow_nonneg ha y).1
    | coe x' =>
      lift a to ℝ using ⟨(hab.trans_lt (EReal.coe_lt_top x')).ne, (EReal.bot_lt_zero.trans hpos).ne'⟩
        with x
      have hx : 0 < x := EReal.coe_pos.1 hpos
      have hle : x ≤ x' := EReal.coe_le_coe_iff.1 hab
      rw [rpow_coe hx.le fun h => absurd h hx.ne', rpow_coe (hx.le.trans hle) fun h =>
        absurd h (hx.trans_le hle).ne', EReal.coe_le_coe_iff]
      exact Real.rpow_le_rpow_of_nonpos hx hle hy.le
  · rw [rpow_zero_coe hy]
    exact le_top

/-- A power of a number from one on keeps the order of the exponents. -/
theorem rpow_le_rpow_right (ha : 1 ≤ a) (hef : e ≤ f) : rpow a e ≤ rpow a f := by
  have ha0 : 0 ≤ a := zero_le_one.trans ha
  rcases ha.lt_or_eq with hlt | rfl
  swap
  · rw [rpow_one_left, rpow_one_left]
  induction e with
  | bot =>
    rw [rpow, power_bot_right ha0, if_neg hlt.ne', if_neg hlt.not_gt]
    exact (rpow_nonneg ha0 f).1
  | top => rw [top_le_iff.1 hef]
  | coe y =>
    induction f with
    | bot => exact absurd hef (by simp)
    | top =>
      conv_rhs => rw [rpow, power_top_right ha0, if_neg hlt.ne', if_neg hlt.not_gt]
      exact le_top
    | coe y' =>
      have hle : y ≤ y' := EReal.coe_le_coe_iff.1 hef
      induction a with
      | bot => exact absurd ha0 (by simp)
      | top =>
        rw [rpow, rpow, power_top, power_top]
        rcases lt_trichotomy y 0 with hy | rfl | hy
        · rw [if_neg hy.ne, if_neg hy.not_gt]
          split_ifs <;> simp [point]
        · rw [if_pos rfl]
          rcases hle.lt_or_eq with hy' | rfl
          · rw [if_neg hy'.ne', if_pos hy']
            exact le_top
          · rw [if_pos rfl]
        · have hy' := hy.trans_le hle
          rw [if_neg hy'.ne', if_pos hy']
          exact le_top
      | coe x =>
        have hx : 1 < x := by exact_mod_cast hlt
        have hx0 : 0 < x := zero_lt_one.trans hx
        rw [rpow_coe hx0.le fun h => absurd h hx0.ne', rpow_coe hx0.le fun h => absurd h hx0.ne',
          EReal.coe_le_coe_iff]
        exact Real.rpow_le_rpow_of_exponent_le hx.le hle

/-- A power of a number up to one turns the order of the exponents around. -/
theorem rpow_le_rpow_right_of_le_one (ha : 0 ≤ a) (ha1 : a ≤ 1) (hef : e ≤ f) :
    rpow a f ≤ rpow a e := by
  rcases ha1.lt_or_eq with hlt | rfl
  swap
  · rw [rpow_one_left, rpow_one_left]
  induction f with
  | bot => rw [le_bot_iff.1 hef]
  | top =>
    conv_lhs => rw [rpow, power_top_right ha, if_neg hlt.ne, if_pos hlt]
    exact (rpow_nonneg ha e).1
  | coe y' =>
    induction e with
    | bot =>
      conv_rhs => rw [rpow, power_bot_right ha, if_neg hlt.ne, if_pos hlt]
      exact le_top
    | top => exact absurd hef (by simp)
    | coe y =>
      have hle : y ≤ y' := EReal.coe_le_coe_iff.1 hef
      obtain ⟨x, rfl⟩ : ∃ x : ℝ, a = x := ⟨_, (EReal.coe_toReal (hlt.trans (EReal.coe_lt_top 1)).ne
        (EReal.bot_lt_zero.trans_le ha).ne').symm⟩
      have hx : 0 ≤ x := EReal.coe_nonneg.1 ha
      rcases hx.lt_or_eq with hpos | rfl
      · rw [rpow_coe hx fun h => absurd h hpos.ne', rpow_coe hx fun h => absurd h hpos.ne',
          EReal.coe_le_coe_iff]
        exact Real.rpow_le_rpow_of_exponent_ge hpos (by exact_mod_cast ha1) hle
      · rcases lt_or_ge y 0 with hy | hy
        · rw [EReal.coe_zero, rpow_zero_coe hy]
          exact le_top
        · rw [rpow_coe le_rfl fun _ => hy, rpow_coe le_rfl fun _ => hy.trans hle,
            EReal.coe_le_coe_iff]
          rcases hy.lt_or_eq with hy | rfl
          · rw [Real.zero_rpow (hy.trans_le hle).ne', Real.zero_rpow hy.ne']
          · rw [Real.rpow_zero]
            rcases eq_or_ne y' 0 with rfl | hy'
            · rw [Real.rpow_zero]
            · rw [Real.zero_rpow hy']
              exact zero_le_one

/-- Some corner is no larger than a power between the ends, and some corner no smaller. -/
theorem exists_corner_le (ha : 0 ≤ a) (hax : a ≤ x) (hxb : x ≤ b) (hcy : c ≤ y) (hyd : y ≤ d) :
    (∃ e f, (e = a ∨ e = b) ∧ (f = c ∨ f = d) ∧ rpow e f ≤ rpow x y) ∧
      ∃ e f, (e = a ∨ e = b) ∧ (f = c ∨ f = d) ∧ rpow x y ≤ rpow e f := by
  have hx : (0 : EReal) ≤ x := ha.trans hax
  have hb : 0 ≤ b := hx.trans hxb
  have hside {e : EReal} (he : 0 ≤ e) : (∃ f, (f = c ∨ f = d) ∧ rpow e f ≤ rpow e y) ∧
      ∃ f, (f = c ∨ f = d) ∧ rpow e y ≤ rpow e f := by
    rcases le_total 1 e with h1 | h1
    · exact ⟨⟨c, Or.inl rfl, rpow_le_rpow_right h1 hcy⟩, ⟨d, Or.inr rfl, rpow_le_rpow_right h1 hyd⟩⟩
    · exact ⟨⟨d, Or.inr rfl, rpow_le_rpow_right_of_le_one he h1 hyd⟩,
        ⟨c, Or.inl rfl, rpow_le_rpow_right_of_le_one he h1 hcy⟩⟩
  have hedge : (∃ e, (e = a ∨ e = b) ∧ rpow e y ≤ rpow x y) ∧
      ∃ e, (e = a ∨ e = b) ∧ rpow x y ≤ rpow e y := by
    rcases le_or_gt 0 y with hy | hy
    · exact ⟨⟨a, Or.inl rfl, rpow_le_rpow_left ha hax hy⟩, ⟨b, Or.inr rfl, rpow_le_rpow_left hx hxb hy⟩⟩
    · exact ⟨⟨b, Or.inr rfl, rpow_le_rpow_left_of_neg hx hxb hy⟩,
        ⟨a, Or.inl rfl, rpow_le_rpow_left_of_neg ha hax hy⟩⟩
  have hend {e : EReal} (he : e = a ∨ e = b) : 0 ≤ e := he.elim (· ▸ ha) (· ▸ hb)
  obtain ⟨⟨e, he, hle⟩, e', he', hle'⟩ := hedge
  obtain ⟨f, hf, hfle⟩ := (hside (hend he)).1
  obtain ⟨f', hf', hfle'⟩ := (hside (hend he')).2
  exact ⟨⟨e, f, he, hf, hfle.trans hle⟩, ⟨e', f', he', hf', hle'.trans hfle'⟩⟩

end Continuum

end ParameterSolver
