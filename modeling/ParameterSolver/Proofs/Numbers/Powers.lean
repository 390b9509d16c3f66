import Mathlib.Analysis.SpecialFunctions.Pow.Real
import ParameterSolver.Proofs.Numbers.Inverses

/-! Integer powers of intervals, point by point, over numbers that do not round. A power keeps the
order on the whole line if it is odd, and in any case on the numbers that are not negative, on which
every number of that kind is a value. -/

namespace ParameterSolver

open Scalar Scalar.Ordered Scalar.Reading Scalar.Unrounded

variable {α : Type} [Scalar α] [Ordered α] [Reading α] [Unrounded α] {r p : ℝ} {n : ℕ}

namespace Interval

variable {i : Interval α} {b : Bound α} {x acc : α}

/-- Two numbers whose product is not one of zero and an infinity. -/
structure Multiplies (x y : α) : Prop where
  left : x == x
  right : y == y
  calm : (Scalar.isFinite x ∧ Scalar.isFinite y) ∨ (real x ≠ 0 ∧ real y ≠ 0)

omit [Ordered α] in
theorem Multiplies.spec {x y : α} (h : Multiplies x y) :
    x * y == x * y ∧ real (x * y) = real x * real y := Unrounded.mul h.left h.right h.calm

omit [Ordered α] [Unrounded α] in
theorem Multiplies.symm {x y : α} (h : Multiplies x y) : Multiplies y x :=
  ⟨h.right, h.left, h.calm.imp And.symm And.symm⟩

/-- Of three numbers that multiply in pairs, either all are finite or none is zero. -/
theorem Multiplies.mul {x y z : α} (h : Multiplies x y) (hx : Multiplies x z)
    (hy : Multiplies y z) : Multiplies (x * y) z := by
  obtain ⟨hnum, hreal⟩ := h.spec
  refine ⟨hnum, hx.right, ?_⟩
  by_cases hfin : Scalar.isFinite x ∧ Scalar.isFinite y ∧ Scalar.isFinite z
  · obtain ⟨r, hr⟩ := exists_real_of_isFinite hfin.1
    obtain ⟨s, hs⟩ := exists_real_of_isFinite hfin.2.1
    refine Or.inl ⟨(isFinite_iff_real hnum).2 ?_, hfin.2.2⟩
    rw [hreal, hr, hs, ← EReal.coe_mul]
    exact ⟨EReal.coe_ne_top _, EReal.coe_ne_bot _⟩
  · have hzero : (real x ≠ 0 ∧ real y ≠ 0) ∧ real z ≠ 0 := by
      have h1 := h.calm
      have h2 := hx.calm
      have h3 := hy.calm
      tauto
    exact Or.inr ⟨by rw [hreal]; exact mul_ne_zero hzero.1.1 hzero.1.2, hzero.2⟩

/-- Repeated squaring computes the power: no product of zero and an infinity comes up if none does
at the start. -/
theorem powNat_spec (h : Multiplies x acc) (hx : Multiplies x x) :
    powNat x n acc == powNat x n acc ∧ real (powNat x n acc) = real acc * real x ^ n := by
  induction n using Nat.strong_induction_on generalizing x acc with
  | _ n ih =>
    obtain ⟨acc', hacc', hcalm, hreal⟩ : ∃ acc', (if n % 2 == 1 then acc * x else acc) = acc' ∧
        Multiplies x acc' ∧ real acc' = real acc * real x ^ (n % 2) := by
      refine ⟨_, rfl, ?_⟩
      split_ifs with h2
      · rw [beq_iff_eq] at h2
        refine ⟨(h.symm.mul h.symm hx).symm, ?_⟩
        rw [h.symm.spec.2, h2, pow_one]
      · have h2' : n % 2 = 0 := by simpa using h2
        exact ⟨h, by rw [h2', pow_zero, mul_one]⟩
    have hsq : Multiplies (x * x) acc' := hx.mul hcalm hcalm
    have hsq' : Multiplies (x * x) (x * x) := hx.mul (hx.mul hx hx).symm (hx.mul hx hx).symm
    rw [powNat, hacc']
    split_ifs with hhalf
    · rw [show n % 2 = n by omega] at hreal
      exact ⟨hcalm.right, hreal⟩
    · obtain ⟨hnum, hpow⟩ := ih (n / 2) (by omega) hsq hsq'
      refine ⟨hnum, ?_⟩
      rw [hpow, hreal, hx.spec.2, ← sq, ← pow_mul, mul_assoc, ← pow_add, Nat.mod_add_div]

theorem raise_spec (hb : b.Placed) :
    (raise b n).Placed ∧ real (raise b n).value = real b.value ^ n := by
  have hone : Multiplies b.value 1 := by
    refine ⟨hb, beq_of_isFinite isFinite_one, ?_⟩
    by_cases h : real b.value = 0
    · exact Or.inl ⟨(isFinite_iff_real hb).2 (by simp [h]), isFinite_one⟩
    · exact Or.inr ⟨h, by simp [Unrounded.real_one]⟩
  have hself : Multiplies b.value b.value := by
    refine ⟨hb, hb, ?_⟩
    by_cases h : real b.value = 0
    · have hfin := (isFinite_iff_real hb).2 (by simp [h])
      exact Or.inl ⟨hfin, hfin⟩
    · exact Or.inr ⟨h, h⟩
  have hpow := powNat_spec (n := n) hone hself
  rw [Unrounded.real_one, one_mul] at hpow
  rw [Bound.Placed, raise, Scalar.powInt, if_neg (by omega), Int.natAbs_natCast]
  exact hpow

/-- A power that keeps the order on a part of the extended line keeps the sides of ends there. -/
theorem raise_iff {D : Set EReal} (hD : StrictMonoOn (fun e : EReal => e ^ n) D) (hb : b.Placed)
    (hbD : real b.value ∈ D) (hp : (p : EReal) ∈ D) :
    ((raise b n).Under (p ^ n) ↔ b.Under p) ∧ ((raise b n).Over (p ^ n) ↔ b.Over p) := by
  have hreal := (raise_spec (n := n) hb).2
  rw [Bound.Under, Bound.Over, hreal, EReal.coe_pow]
  have h1 : real b.value ^ n < (p : EReal) ^ n ↔ real b.value < p := hD.lt_iff_lt hbD hp
  have h2 : (p : EReal) ^ n < real b.value ^ n ↔ (p : EReal) < real b.value := hD.lt_iff_lt hp hbD
  have h3 : (p : EReal) ^ n = real b.value ^ n ↔ (p : EReal) = real b.value := hD.injOn.eq_iff hp hbD
  rw [h1, h2, h3]
  exact ⟨Iff.rfl, Iff.rfl⟩

omit [Scalar α] [Ordered α] [Reading α] [Unrounded α] in
theorem top_pow (hn : n ≠ 0) : (⊤ : EReal) ^ n = ⊤ := by
  induction n with
  | zero => exact absurd rfl hn
  | succ n ih =>
    rcases eq_or_ne n 0 with rfl | h
    · rw [zero_add, pow_one]
    · rw [pow_succ, ih h, EReal.top_mul_top]

theorem strictMonoOn_pow (hn : n ≠ 0) : StrictMonoOn (fun e : EReal => e ^ n) (Set.Ici 0) := by
  intro e he e' he' hlt
  change e ^ n < e' ^ n
  lift e to ℝ using ⟨hlt.ne_top, (EReal.bot_lt_zero.trans_le he).ne'⟩
  rcases eq_or_ne e' ⊤ with rfl | htop
  · rw [top_pow hn, ← EReal.coe_pow]
    exact EReal.coe_lt_top _
  · lift e' to ℝ using ⟨htop, hlt.ne_bot⟩
    rw [← EReal.coe_pow, ← EReal.coe_pow, EReal.coe_lt_coe_iff]
    exact pow_lt_pow_left₀ (EReal.coe_lt_coe_iff.1 hlt) (EReal.coe_nonneg.1 he) hn

theorem strictMonoOn_pow_of_odd (hn : Odd n) :
    StrictMonoOn (fun e : EReal => e ^ n) Set.univ := by
  intro e _ e' _ hlt
  have hbot : (⊥ : EReal) ^ n = ⊥ := by
    rw [← EReal.neg_top, hn.neg_pow, top_pow hn.pos.ne']
  change e ^ n < e' ^ n
  rcases eq_or_ne e ⊥ with rfl | he
  · rw [hbot, bot_lt_iff_ne_bot]
    rcases eq_or_ne e' ⊤ with rfl | htop
    · rw [top_pow hn.pos.ne']
      nofun
    · lift e' to ℝ using ⟨htop, hlt.ne'⟩
      rw [← EReal.coe_pow]
      exact EReal.coe_ne_bot _
  · lift e to ℝ using ⟨hlt.ne_top, he⟩
    rcases eq_or_ne e' ⊤ with rfl | htop
    · rw [top_pow hn.pos.ne', ← EReal.coe_pow]
      exact EReal.coe_lt_top _
    · lift e' to ℝ using ⟨htop, hlt.ne_bot⟩
      rw [← EReal.coe_pow, ← EReal.coe_pow, EReal.coe_lt_coe_iff]
      exact hn.strictMono_pow (EReal.coe_lt_coe_iff.1 hlt)

/-- An even power does not see the sign. -/
theorem raise_neg (hn : Even n) (hb : b.Placed) :
    ((raise b.neg n).Under r ↔ (raise b n).Under r) ∧
      ((raise b.neg n).Over r ↔ (raise b n).Over r) := by
  have hreal : real (raise b.neg n).value = real (raise b n).value := by
    rw [(raise_spec (Bound.placed_neg hb)).2, (raise_spec hb).2, Bound.neg, Unrounded.real_neg hb,
      hn.neg_pow]
  rw [Bound.Under, Bound.Over, hreal]
  exact ⟨Iff.rfl, Iff.rfl⟩

omit [Scalar α] [Ordered α] [Reading α] [Unrounded α] in
theorem exists_pow_eq (hn : n ≠ 0) (hr : 0 ≤ r) : ∃ p : ℝ, 0 ≤ p ∧ p ^ n = r :=
  ⟨r ^ ((n : ℝ)⁻¹), Real.rpow_nonneg hr _, Real.rpow_inv_natCast_pow hr hn⟩

omit [Scalar α] [Ordered α] [Reading α] [Unrounded α] in
theorem exists_pow_eq_of_odd (hn : Odd n) (r : ℝ) : ∃ p : ℝ, p ^ n = r := by
  rcases le_total 0 r with hr | hr
  · obtain ⟨p, -, hp⟩ := exists_pow_eq hn.pos.ne' hr
    exact ⟨p, hp⟩
  · obtain ⟨p, -, hp⟩ := exists_pow_eq hn.pos.ne' (neg_nonneg.2 hr)
    exact ⟨-p, by rw [hn.neg_pow, hp, neg_neg]⟩

/-- Where the power keeps the order, the powers are those between the powers of the ends. -/
theorem mem_raised {D : Set EReal} (hD : StrictMonoOn (fun e : EReal => e ^ n) D) (hi : i.Proper)
    (hends : real i.lo.value ∈ D ∧ real i.hi.value ∈ D) (hpoints : ∀ p ∈ i.points, (p : EReal) ∈ D)
    (hsurj : ∀ r, (raise i.lo n).Under r → ∃ p : ℝ, (p : EReal) ∈ D ∧ p ^ n = r) :
    (∃ k ∈ ofBounds? (raise i.lo n) (raise i.hi n), r ∈ k.points) ↔ ∃ p ∈ i.points, p ^ n = r := by
  rw [mem_ofBounds?_points (raise_spec hi.lo).1 (raise_spec hi.hi).1]
  constructor
  · rintro ⟨h, h'⟩
    obtain ⟨p, hp, rfl⟩ := hsurj r h
    exact ⟨p, ⟨(raise_iff hD hi.lo hends.1 hp).1.1 h, (raise_iff hD hi.hi hends.2 hp).2.1 h'⟩, rfl⟩
  · rintro ⟨p, hp, rfl⟩
    exact ⟨(raise_iff hD hi.lo hends.1 (hpoints p hp)).1.2 hp.1,
      (raise_iff hD hi.hi hends.2 (hpoints p hp)).2.2 hp.2⟩

theorem mem_raised_of_nonneg (hn : n ≠ 0) (hi : i.Proper) (h : 0 ≤ real i.lo.value) :
    (∃ k ∈ ofBounds? (raise i.lo n) (raise i.hi n), r ∈ k.points) ↔ ∃ p ∈ i.points, p ^ n = r := by
  refine mem_raised (strictMonoOn_pow hn) hi ⟨h, h.trans hi.lo_le_hi⟩
    (fun p hp => h.trans (Bound.Under.le hp.1)) fun r hr => ?_
  have hr0 := hr.le
  rw [(raise_spec hi.lo).2] at hr0
  have hzero := (strictMonoOn_pow hn).monotoneOn (Set.self_mem_Ici (a := (0 : EReal))) h h
  rw [zero_pow hn] at hzero
  obtain ⟨p, hp, hpr⟩ := exists_pow_eq hn (EReal.coe_nonneg.1 (hzero.trans hr0))
  exact ⟨p, EReal.coe_nonneg.2 hp, hpr⟩

theorem mem_raised_of_straddling (hn : Even n) (hn0 : n ≠ 0) (hi : i.Proper)
    (hlo : real i.lo.value < 0) (hhi : 0 < real i.hi.value) :
    (∃ k ∈ ofBounds? ⟨0, true⟩ ((raise i.lo n).highest (raise i.hi n)), r ∈ k.points) ↔
      ∃ p ∈ i.points, p ^ n = r := by
  have hzero : (⟨0, true⟩ : Bound α).Placed := beq_of_isFinite isFinite_zero
  have hlo' := (raise_spec (n := n) hi.lo).1
  have hhi' := (raise_spec (n := n) hi.hi).1
  have hneg := Bound.placed_neg hi.lo
  have hneg0 : (0 : EReal) ≤ real i.lo.neg.value := by
    rw [Bound.neg, Unrounded.real_neg hi.lo]
    exact EReal.neg_nonneg.2 hlo.le
  have hraise {p : ℝ} (hp : 0 ≤ p) :
      ((raise i.lo n).highest (raise i.hi n)).Over (p ^ n) ↔ i.lo.Under (-p) ∨ i.hi.Over p := by
    have hp' : (p : EReal) ∈ Set.Ici 0 := EReal.coe_nonneg.2 hp
    rw [Bound.over_highest hlo' hhi', ← (raise_neg hn hi.lo).2,
      (raise_iff (strictMonoOn_pow hn0) hneg hneg0 hp').2, Bound.over_neg hi.lo,
      (raise_iff (strictMonoOn_pow hn0) hi.hi hhi.le hp').2]
  rw [mem_ofBounds?_points hzero (Bound.placed_highest hlo' hhi'), Bound.under_zero]
  constructor
  · rintro ⟨h, h'⟩
    obtain ⟨p, hp, rfl⟩ := exists_pow_eq hn0 (h.elim le_of_lt fun h => h.1.ge)
    rcases (hraise hp).1 h' with hmem | hmem
    · refine ⟨-p, ⟨hmem, Or.inl (lt_of_le_of_lt ?_ hhi)⟩, hn.neg_pow p⟩
      exact EReal.coe_nonpos.2 (neg_nonpos.2 hp)
    · exact ⟨p, ⟨Or.inl (hlo.trans_le (EReal.coe_nonneg.2 hp)), hmem⟩, rfl⟩
  · rintro ⟨p, hp, rfl⟩
    refine ⟨(hn.pow_nonneg p).lt_or_eq.imp_right fun h => ⟨h.symm, rfl⟩, ?_⟩
    rcases le_total 0 p with h | h
    · exact (hraise h).2 (Or.inr hp.2)
    · rw [← hn.neg_pow]
      exact (hraise (neg_nonneg.2 h)).2 (Or.inl (by rw [neg_neg]; exact hp.1))

/-- The positive powers of an interval are those of its elements. -/
theorem mem_powPositive?_points (hn : n ≠ 0) (hi : i.Proper) :
    (∃ k ∈ i.powPositive? n, r ∈ k.points) ↔ ∃ p ∈ i.points, p ^ n = r := by
  unfold powPositive?
  split_ifs with hodd hneg
  · rw [Bool.or_eq_true, decide_eq_true_eq, zero_le_iff hi.lo, beq_iff_eq] at hodd
    rcases hodd with hodd | h
    · have hn' : Odd n := Nat.odd_iff.2 hodd
      exact mem_raised (strictMonoOn_pow_of_odd hn') hi ⟨trivial, trivial⟩ (fun _ _ => trivial)
        fun r _ => (exists_pow_eq_of_odd hn' r).imp fun p hp => ⟨trivial, hp⟩
    · exact mem_raised_of_nonneg hn hi h
  all_goals
    rw [Bool.or_eq_true, decide_eq_true_eq, zero_le_iff hi.lo, beq_iff_eq, not_or, not_le] at hodd
    rw [le_zero_iff hi.hi] at hneg
    have heven : Even n := Nat.not_odd_iff_even.1 fun h => hodd.1 (Nat.odd_iff.1 h)
  · -- the powers of the negated interval, which are the same
    have hneg0 : 0 ≤ real i.neg.lo.value := by
      rw [neg, Bound.neg, Unrounded.real_neg hi.hi]
      exact EReal.neg_nonneg.2 hneg
    have hraised := mem_raised_of_nonneg (r := r) hn hi.neg hneg0
    rw [mem_ofBounds?_points (raise_spec hi.neg.lo).1 (raise_spec hi.neg.hi).1, neg,
      (raise_neg heven hi.hi).1, (raise_neg heven hi.lo).2] at hraised
    rw [mem_ofBounds?_points (raise_spec hi.hi).1 (raise_spec hi.lo).1, hraised]
    constructor
    · rintro ⟨p, hp, rfl⟩
      exact ⟨-p, (mem_neg_points hi).1 hp, heven.neg_pow p⟩
    · rintro ⟨p, hp, rfl⟩
      exact ⟨-p, neg_mem_neg hi hp, heven.neg_pow p⟩
  · exact mem_raised_of_straddling heven hn hi hodd.2 (not_le.1 hneg)

/-- The pieces of a power hold the powers of the elements, without zero if the power is negative. -/
theorem mem_powInt_points {n : ℤ} (hi : i.Proper) :
    (∃ k ∈ i.powInt n, r ∈ k.points) ↔ ∃ p ∈ i.points, (n < 0 → p ≠ 0) ∧ p ^ n = r := by
  have hpositive (hn : n ≠ 0) (r : ℝ) : (∃ k ∈ (i.powPositive? n.natAbs).toList, r ∈ k.points) ↔
      ∃ p ∈ i.points, p ^ n.natAbs = r := by
    simp only [Option.mem_toList]
    exact mem_powPositive?_points (Int.natAbs_ne_zero.2 hn) hi
  unfold powInt
  split_ifs with hzero hneg
  · subst hzero
    have hone : (⟨1, true⟩ : Bound α).Placed := beq_of_isFinite isFinite_one
    have hreal : real (⟨1, true⟩ : Bound α).value = ((1 : ℝ) : EReal) := Unrounded.real_one
    rw [singleton?, closed?, mem_toList_points hone hone, Bound.under_coe hreal,
      Bound.over_coe hreal]
    obtain ⟨p, hp⟩ := hi.exists_point
    simp only [zpow_zero]
    constructor
    · rintro ⟨h | h, h' | h'⟩
      · exact absurd h h'.not_gt
      · exact ⟨p, hp, nofun, h'.1.symm⟩
      · exact ⟨p, hp, nofun, h.1.symm⟩
      · exact ⟨p, hp, nofun, h.1.symm⟩
    · rintro ⟨-, -, -, rfl⟩
      exact ⟨Or.inr ⟨rfl, trivial⟩, Or.inr ⟨rfl, trivial⟩⟩
  · have hn : n = -(n.natAbs : ℤ) := by omega
    have hpow (p : ℝ) : p ^ n = (p ^ n.natAbs)⁻¹ := by
      rw [hn, zpow_neg, zpow_natCast, Int.natAbs_neg, Int.natAbs_natCast]
    simp only [List.mem_flatMap]
    constructor
    · rintro ⟨j, ⟨k, hk, hj⟩, hr⟩
      have hk' := proper_of_powPositive? (Option.mem_toList.1 hk)
      obtain ⟨hr0, hr'⟩ := (mem_invert_points hk').1 ⟨j, hj, hr⟩
      obtain ⟨p, hp, hpr⟩ := (hpositive hzero r⁻¹).1 ⟨k, hk, hr'⟩
      refine ⟨p, hp, fun _ hp0 => ?_, by rw [hpow, hpr, inv_inv]⟩
      rw [hp0, zero_pow (Int.natAbs_ne_zero.2 hzero)] at hpr
      exact hr0 (inv_eq_zero.1 hpr.symm)
    · rintro ⟨p, hp, hp0, rfl⟩
      obtain ⟨k, hk, hkr⟩ := (hpositive hzero (p ^ n.natAbs)).2 ⟨p, hp, rfl⟩
      have hk' := proper_of_powPositive? (Option.mem_toList.1 hk)
      obtain ⟨j, hj, hjr⟩ := (mem_invert_points (r := p ^ n) hk').2
        ⟨zpow_ne_zero n (hp0 hneg), by rwa [hpow, inv_inv]⟩
      exact ⟨j, ⟨k, hk, hj⟩, hjr⟩
  · have hn : n = (n.natAbs : ℤ) := by omega
    rw [hpositive hzero]
    refine exists_congr fun p => and_congr_right fun _ => ?_
    rw [and_iff_right fun h => absurd h hneg]
    conv_rhs => rw [hn, zpow_natCast]

theorem canonical_powInt {n : ℤ} : (⟨i.powInt n⟩ : Numbers α).Canonical := by
  refine Numbers.canonical_of_spaced (fun _ => proper_of_powInt) ?_
  simp only [powInt]
  split_ifs
  · exact spaced_toList _
  · cases hk : i.powPositive? n.natAbs with
    | none => exact List.Pairwise.nil
    | some k =>
      rw [Option.toList_some, List.flatMap_singleton]
      exact (canonical_invert (proper_of_powPositive? hk)).spaced
  · exact spaced_toList _

end Interval

end ParameterSolver
