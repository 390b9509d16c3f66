import ParameterSolver.Proofs.Continuum.Power

/-! Powers of sets of real numbers. An exponent that is a single integer gives the powers themselves.
For other exponents a power of a base that is not negative is in the result unless it is the least or
the greatest one and no ends of the two intervals reach it; what is lost are powers that do not depend
on one of the arguments, of one, of zero and with exponent zero. -/

namespace ParameterSolver

open Scalar Scalar.Ordered Scalar.Reading Continuum

variable {x y v : ℝ} {n : ℤ} {S : Set ℝ}

/-- The power `x ^ y` has a value. -/
def HasPower (x y : ℝ) : Prop :=
  0 < x ∨ (x = 0 ∧ 0 < y) ∨ ((∃ n : ℤ, y = n) ∧ x ≠ 0) ∨ y = 0

theorem HasPower.rpow_eq (h : HasPower x y) (hx : 0 ≤ x) : rpow x y = ((x ^ y : ℝ) : EReal) := by
  refine rpow_coe hx fun hx0 => ?_
  rcases h with h | h | h | h
  · exact absurd hx0 h.ne'
  · exact h.2.le
  · exact absurd hx0 h.2
  · exact h.ge

/-- The least or the greatest element. -/
def IsExtreme (S : Set ℝ) (r : ℝ) : Prop := IsLeast S r ∨ IsGreatest S r

theorem exists_lt_of_not_isLeast (h : v ∈ S) (hv : ¬ IsLeast S v) : ∃ w ∈ S, w < v := by
  by_contra hno
  exact hv ⟨h, fun w hw => not_lt.1 fun hlt => hno ⟨w, hw, hlt⟩⟩

theorem exists_gt_of_not_isGreatest (h : v ∈ S) (hv : ¬ IsGreatest S v) : ∃ w ∈ S, v < w := by
  by_contra hno
  exact hv ⟨h, fun w hw => not_lt.1 fun hlt => hno ⟨w, hw, hlt⟩⟩

namespace Interval

variable {i j k : Interval Continuum} {a b : Bound Continuum}

/-- The powers of the elements that are not negative. -/
def powers (i j : Interval Continuum) : Set ℝ :=
  {v | ∃ x ∈ i.points, ∃ y ∈ j.points, 0 ≤ x ∧ HasPower x y ∧ x ^ y = v}

/-- The value is a power of an extreme base and an extreme exponent, both of them elements. -/
def IsCorner (i j : Interval Continuum) (v : ℝ) : Prop :=
  ∃ x y, IsExtreme (i.points ∩ Set.Ici 0) x ∧ IsExtreme j.points y ∧ HasPower x y ∧ x ^ y = v

theorem value_eq (hb : b.Placed) : b.value = number (real b.value) := by
  unfold Bound.Placed at hb
  cases h : b.value with
  | nan => simp [h] at hb
  | number e => rfl

theorem exists_powCorner_eq (ha : a.Placed) (hb : b.Placed) (h0 : 0 ≤ real a.value) :
    ∃ e : Bound Continuum, powCorner a b = e.normalized ∧ e.Placed ∧
      real e.value = rpow (real a.value) (real b.value) ∧ e.closed = (a.closed && b.closed) := by
  have hpow : Scalar.pow a.value b.value = number (rpow (real a.value) (real b.value)) := by
    rw [← (rpow_nonneg h0 (real b.value)).2, value_eq ha, value_eq hb]
    rfl
  refine ⟨_, rfl, ?_, ?_, rfl⟩
  · rw [Bound.Placed, hpow]
    exact Continuum.beq_iff.2 ⟨rfl, Continuum.number_ne_nan⟩
  · rw [hpow, real_number]

theorem placed_powCorner (ha : a.Placed) (hb : b.Placed) (h0 : 0 ≤ real a.value) :
    (powCorner a b).Placed := by
  obtain ⟨e, he, hplaced, -⟩ := exists_powCorner_eq ha hb h0
  exact he ▸ Bound.placed_normalized hplaced

theorem under_powCorner (ha : a.Placed) (hb : b.Placed) (h0 : 0 ≤ real a.value) :
    (powCorner a b).Under v ↔ rpow (real a.value) (real b.value) < v ∨
      ((v : EReal) = rpow (real a.value) (real b.value) ∧ a.closed ∧ b.closed) := by
  obtain ⟨e, he, hplaced, hreal, hclosed⟩ := exists_powCorner_eq ha hb h0
  rw [he, Bound.under_normalized hplaced, Bound.Under, hreal, hclosed, Bool.and_eq_true]

theorem over_powCorner (ha : a.Placed) (hb : b.Placed) (h0 : 0 ≤ real a.value) :
    (powCorner a b).Over v ↔ v < rpow (real a.value) (real b.value) ∨
      ((v : EReal) = rpow (real a.value) (real b.value) ∧ a.closed ∧ b.closed) := by
  obtain ⟨e, he, hplaced, hreal, hclosed⟩ := exists_powCorner_eq ha hb h0
  rw [he, Bound.over_normalized hplaced, Bound.Over, hreal, hclosed, Bool.and_eq_true]

/-- The part of a base that is not negative. -/
theorem exists_base (hi : i.Proper) (hx : x ∈ i.points) (hx0 : 0 ≤ x) :
    ∃ k, (atLeast? 0).bind i.inter? = some k ∧ k.Proper ∧ k.points = i.points ∩ Set.Ici 0 := by
  have hzero : (⟨0, true⟩ : Bound Continuum).Placed := beq_of_isFinite isFinite_zero
  have htop : (⟨infinity, false⟩ : Bound Continuum).Placed := number_infinity
  have hhalf (r : ℝ) : (∃ k ∈ (atLeast? 0 : Option (Interval Continuum)), r ∈ k.points) ↔ 0 ≤ r := by
    rw [atLeast?, mem_ofBounds?_points hzero htop, Bound.under_zero, Bound.Over, real_infinity]
    refine ⟨fun h => h.1.elim le_of_lt fun h => h.1.ge, fun h => ⟨?_, Or.inl (EReal.coe_lt_top r)⟩⟩
    exact h.lt_or_eq.imp_right fun h => ⟨h.symm, rfl⟩
  obtain ⟨half, hhalf', hxhalf⟩ := (hhalf x).2 hx0
  have hproper : half.Proper := proper_of_ofBounds? hhalf'
  have hmem (r : ℝ) : r ∈ half.points ↔ 0 ≤ r := by
    rw [← hhalf r]
    refine ⟨fun h => ⟨half, hhalf', h⟩, ?_⟩
    rintro ⟨k, hk, h⟩
    rw [Option.mem_def, hhalf'] at hk
    exact Option.some.inj hk ▸ h
  have hinter (r : ℝ) := mem_inter?_points (r := r) hi hproper
  obtain ⟨k, hk, -⟩ := (hinter x).2 ⟨hx, hxhalf⟩
  refine ⟨k, by rw [hhalf', Option.bind_some, hk], proper_of_inter? hk, ?_⟩
  ext r
  rw [Set.mem_inter_iff, Set.mem_Ici, ← hmem, ← hinter]
  refine ⟨fun h => ⟨k, hk, h⟩, ?_⟩
  rintro ⟨k', hk', h⟩
  rw [Option.mem_def, hk] at hk'
  exact Option.some.inj hk' ▸ h

/-- An extreme element of an interval is at a closed end. -/
theorem exists_end (h : IsExtreme k.points x) :
    ∃ a, IsEnd a k ∧ a.closed ∧ real a.value = x := by
  rcases h with ⟨hx, hleast⟩ | ⟨hx, hgreatest⟩
  · rcases hx.1 with hlt | ⟨heq, hclosed⟩
    · obtain ⟨r, hr, hrx⟩ := EReal.lt_iff_exists_real_btwn.1 hlt
      have hrx' := EReal.coe_lt_coe_iff.1 hrx
      exact absurd (hleast ⟨Or.inl hr, Bound.Over.mono hx.2 hrx'.le⟩) hrx'.not_ge
    · exact ⟨k.lo, Or.inl rfl, hclosed, heq.symm⟩
  · rcases hx.2 with hlt | ⟨heq, hclosed⟩
    · obtain ⟨r, hxr, hr⟩ := EReal.lt_iff_exists_real_btwn.1 hlt
      have hxr' := EReal.coe_lt_coe_iff.1 hxr
      exact absurd (hgreatest ⟨Bound.Under.mono hx.1 hxr'.le, Or.inl hr⟩) hxr'.not_ge
    · exact ⟨k.hi, Or.inr rfl, hclosed, heq.symm⟩

/-- The corners of the powers. -/
noncomputable def corners (k j : Interval Continuum) : List (Bound Continuum) :=
  [powCorner k.lo j.lo, powCorner k.lo j.hi, powCorner k.hi j.lo, powCorner k.hi j.hi]

section Corners

variable (hk : k.Proper) (hj : j.Proper) (hnonneg : k.points ⊆ Set.Ici 0)

include hk hnonneg

theorem nonneg_of_isEnd (ha : IsEnd a k) : 0 ≤ real a.value := by
  have hlo : 0 ≤ real k.lo.value := by
    by_contra hlt
    obtain ⟨p, hp⟩ := hk.exists_point
    obtain ⟨r, hr, hr0⟩ := EReal.lt_iff_exists_real_btwn.1 (not_le.1 hlt)
    have hr0' : r < 0 := EReal.coe_neg'.1 hr0
    have hrk : r ∈ k.points := ⟨Or.inl hr, Bound.Over.mono hp.2 (hr0'.le.trans (hnonneg hp))⟩
    exact hr0'.not_ge (hnonneg hrk)
  rcases ha with rfl | rfl
  · exact hlo
  · exact hlo.trans hk.lo_le_hi

omit hk hnonneg in
theorem mem_corners (ha : IsEnd a k) (hb : IsEnd b j) : powCorner a b ∈ corners k j := by
  rcases ha with rfl | rfl <;> rcases hb with rfl | rfl <;> simp [corners]

include hj

theorem placed_corners : ∀ e ∈ corners k j, e.Placed := by
  have hplaced {a b : Bound Continuum} (ha : IsEnd a k) (hb : IsEnd b j) :
      (powCorner a b).Placed :=
    placed_powCorner (ha.placed hk) (hb.placed hj) (nonneg_of_isEnd hk hnonneg ha)
  simp only [corners, List.forall_mem_cons, List.not_mem_nil, false_imp_iff, implies_true, and_true]
  exact ⟨hplaced (Or.inl rfl) (Or.inl rfl), hplaced (Or.inl rfl) (Or.inr rfl),
    hplaced (Or.inr rfl) (Or.inl rfl), hplaced (Or.inr rfl) (Or.inr rfl)⟩

omit hj in
/-- Some corner is no larger than a power, and some corner no smaller. -/
theorem exists_corner (hx : x ∈ k.points) (hy : y ∈ j.points) (h : HasPower x y) :
    (∃ a b, IsEnd a k ∧ IsEnd b j ∧ rpow (real a.value) (real b.value) ≤ (x ^ y : ℝ)) ∧
      ∃ a b, IsEnd a k ∧ IsEnd b j ∧ ((x ^ y : ℝ) : EReal) ≤ rpow (real a.value) (real b.value) := by
  have hlo := nonneg_of_isEnd hk hnonneg (Or.inl rfl)
  have hcorner := exists_corner_le hlo (Bound.Under.le hx.1) (Bound.Over.le hx.2)
    (Bound.Under.le hy.1) (Bound.Over.le hy.2)
  rw [h.rpow_eq (hnonneg hx)] at hcorner
  have hend {i : Interval Continuum} {e : EReal} (he : e = real i.lo.value ∨ e = real i.hi.value) :
      ∃ a, IsEnd a i ∧ real a.value = e :=
    he.elim (fun h => ⟨i.lo, Or.inl rfl, h.symm⟩) fun h => ⟨i.hi, Or.inr rfl, h.symm⟩
  obtain ⟨⟨e, f, he, hf, hle⟩, e', f', he', hf', hle'⟩ := hcorner
  obtain ⟨a, ha, rfl⟩ := hend he
  obtain ⟨b, hb, rfl⟩ := hend hf
  obtain ⟨a', ha', rfl⟩ := hend he'
  obtain ⟨b', hb', rfl⟩ := hend hf'
  exact ⟨⟨a, b, ha, hb, hle⟩, a', b', ha', hb', hle'⟩

/-- A power that is not extreme lies between the corners. -/
theorem mem_corners_of_not_isExtreme (hv : v ∈ k.powers j) (h : ¬ IsExtreme (k.powers j) v) :
    (∃ e ∈ corners k j, e.Under v) ∧ ∃ e ∈ corners k j, e.Over v := by
  obtain ⟨_, ⟨x, hx, y, hy, -, hdef, rfl⟩, hlt⟩ :=
    exists_lt_of_not_isLeast hv fun hv => h (Or.inl hv)
  obtain ⟨_, ⟨x', hx', y', hy', -, hdef', rfl⟩, hgt⟩ :=
    exists_gt_of_not_isGreatest hv fun hv => h (Or.inr hv)
  obtain ⟨a, b, ha, hb, hle⟩ := (exists_corner hk hnonneg hx hy hdef).1
  obtain ⟨a', b', ha', hb', hle'⟩ := (exists_corner hk hnonneg hx' hy' hdef').2
  refine ⟨⟨_, mem_corners ha hb, (under_powCorner (ha.placed hk) (hb.placed hj)
    (nonneg_of_isEnd hk hnonneg ha)).2 (Or.inl ?_)⟩, _, mem_corners ha' hb',
      (over_powCorner (ha'.placed hk) (hb'.placed hj) (nonneg_of_isEnd hk hnonneg ha')).2
        (Or.inl ?_)⟩
  · exact hle.trans_lt (EReal.coe_lt_coe_iff.2 hlt)
  · exact (EReal.coe_lt_coe_iff.2 hgt).trans_le hle'

/-- A power of extreme elements is at a closed corner. -/
theorem mem_corners_of_isExtreme (hx : IsExtreme k.points x) (hy : IsExtreme j.points y)
    (h : HasPower x y) :
    (∃ e ∈ corners k j, e.Under (x ^ y)) ∧ ∃ e ∈ corners k j, e.Over (x ^ y) := by
  obtain ⟨a, ha, hca, hax⟩ := exists_end hx
  obtain ⟨b, hb, hcb, hby⟩ := exists_end hy
  have hx0 : 0 ≤ x := hnonneg (hx.elim (·.1) (·.1))
  have hvalue : ((x ^ y : ℝ) : EReal) = rpow (real a.value) (real b.value) := by
    rw [hax, hby, h.rpow_eq hx0]
  have hcorner := nonneg_of_isEnd hk hnonneg ha
  exact ⟨⟨_, mem_corners ha hb, (under_powCorner (ha.placed hk) (hb.placed hj) hcorner).2
      (Or.inr ⟨hvalue, hca, hcb⟩)⟩, _, mem_corners ha hb,
    (over_powCorner (ha.placed hk) (hb.placed hj) hcorner).2 (Or.inr ⟨hvalue, hca, hcb⟩)⟩

end Corners

theorem not_isExtreme {w w' : ℝ} (hw : w ∈ S) (hw' : w' ∈ S) (hlt : w < v) (hgt : v < w') :
    ¬ IsExtreme S v := by
  rintro (h | h)
  · exact hlt.not_ge (h.2 hw)
  · exact hgt.not_ge (h.2 hw')

/-- Away from base zero, base one and exponent zero a power changes with either argument, so that it
is extreme only if both are. -/
theorem kept_of_ne (hx : x ∈ i.points) (hy : y ∈ j.points) (hx0 : 0 < x) (hx1 : x ≠ 1)
    (hy0 : y ≠ 0) : ¬ IsExtreme (i.powers j) (x ^ y) ∨ i.IsCorner j (x ^ y) := by
  have hpower {x' y' : ℝ} (hx' : x' ∈ i.points) (hy' : y' ∈ j.points) (h : 0 < x') :
      x' ^ y' ∈ i.powers j := ⟨x', hx', y', hy', h.le, Or.inl h, rfl⟩
  by_cases hxe : IsExtreme (i.points ∩ Set.Ici 0) x
  · by_cases hye : IsExtreme j.points y
    · exact Or.inr ⟨x, y, hxe, hye, Or.inl hx0, rfl⟩
    · obtain ⟨y₁, hy₁, hlt⟩ := exists_lt_of_not_isLeast hy fun h => hye (Or.inl h)
      obtain ⟨y₂, hy₂, hgt⟩ := exists_gt_of_not_isGreatest hy fun h => hye (Or.inr h)
      rcases lt_or_gt_of_ne hx1 with h1 | h1
      · exact Or.inl (not_isExtreme (hpower hx hy₂ hx0) (hpower hx hy₁ hx0)
          (Real.rpow_lt_rpow_of_exponent_gt hx0 h1 hgt) (Real.rpow_lt_rpow_of_exponent_gt hx0 h1 hlt))
      · exact Or.inl (not_isExtreme (hpower hx hy₁ hx0) (hpower hx hy₂ hx0)
          (Real.rpow_lt_rpow_of_exponent_lt h1 hlt) (Real.rpow_lt_rpow_of_exponent_lt h1 hgt))
  · have hxS : x ∈ i.points ∩ Set.Ici 0 := ⟨hx, hx0.le⟩
    obtain ⟨x₁, hx₁, hlt⟩ := exists_lt_of_not_isLeast hxS fun h => hxe (Or.inl h)
    obtain ⟨x₂, hx₂, hgt⟩ := exists_gt_of_not_isGreatest hxS fun h => hxe (Or.inr h)
    -- a smaller base that is not zero
    have hx₁0 : 0 ≤ x₁ := hx₁.2
    have hmid : (x₁ + x) / 2 ∈ i.points :=
      i.ordConnected_points.out hx₁.1 hx ⟨by linarith, by linarith⟩
    have hmid0 : 0 < (x₁ + x) / 2 := by linarith
    have hmid' : (x₁ + x) / 2 < x := by linarith
    rcases lt_or_gt_of_ne hy0 with h0 | h0
    · exact Or.inl (not_isExtreme (hpower hx₂.1 hy (hx0.trans hgt)) (hpower hmid hy hmid0)
        (Real.rpow_lt_rpow_of_neg hx0 hgt h0) (Real.rpow_lt_rpow_of_neg hmid0 hmid' h0))
    · exact Or.inl (not_isExtreme (hpower hmid hy hmid0) (hpower hx₂.1 hy (hx0.trans hgt))
        (Real.rpow_lt_rpow hmid0.le hmid' h0) (Real.rpow_lt_rpow hx0.le hgt h0))

open Classical in
theorem toInt?_number_iff {e : EReal} :
    Scalar.toInt? (number e) = some n ↔ e = ((n : ℝ) : EReal) := by
  change (if h : ∃ n : ℤ, e = ((n : ℝ) : EReal) then some h.choose else none) = some n ↔ _
  constructor
  · intro h
    split_ifs at h with hex
    rw [← Option.some.inj h]
    exact hex.choose_spec
  · intro h
    have hex : ∃ n : ℤ, e = ((n : ℝ) : EReal) := ⟨n, h⟩
    have heq := hex.choose_spec.symm.trans h
    rw [EReal.coe_eq_coe_iff, Int.cast_inj] at heq
    rw [dif_pos hex, heq]

/-- An interval is taken for an integer if that is its only element and not too large. -/
theorem integer?_eq_some_iff (hj : j.Proper) :
    j.integer? = some n ↔ j.points = {(n : ℝ)} ∧ n.natAbs < 2147483647 := by
  have hone : j.isSingleton ∧ real j.lo.value = ((n : ℝ) : EReal) ↔ j.points = {(n : ℝ)} := by
    have hends (h : j.isSingleton) : real j.lo.value = real j.hi.value :=
      congrArg real (Continuum.beq_iff.1 h).1
    constructor
    · rintro ⟨h, hlo⟩
      have hmem {r : ℝ} (hr : r ∈ j.points) : r = n := by
        have h1 := Bound.Under.le hr.1
        have h2 := Bound.Over.le hr.2
        rw [hlo] at h1
        rw [← hends h, hlo] at h2
        exact (EReal.coe_le_coe_iff.1 h2).antisymm (EReal.coe_le_coe_iff.1 h1)
      obtain ⟨r, hr⟩ := hj.exists_point
      exact Set.eq_singleton_iff_unique_mem.2 ⟨hmem hr ▸ hr, fun _ => hmem⟩
    · intro h
      have hn : (n : ℝ) ∈ j.points := h ▸ rfl
      have hsingle := (isSingleton_iff hj).2 ⟨n, hn, fun r hr => by rw [h] at hr; exact hr⟩
      exact ⟨hsingle, (Bound.Under.le hn.1).antisymm (hends hsingle ▸ Bound.Over.le hn.2)⟩
  rw [← hone, integer?, value_eq hj.lo]
  split_ifs with h
  · rw [Option.filter_eq_some_iff, toInt?_number_iff, decide_eq_true_eq]
    simp [h]
  · simp [h]

/-- A power of elements of two intervals is in the result if the exponent is a single integer, or if
the base is not negative and the power is not extreme or one of extreme elements. -/
theorem mem_pow_points (hi : i.Proper) (hj : j.Proper) (hx : x ∈ i.points) (hy : y ∈ j.points)
    (hdef : HasPower x y) (h : (∃ n : ℤ, n.natAbs < 2147483647 ∧ j.points = {(n : ℝ)}) ∨
      (0 ≤ x ∧ (¬ IsExtreme (i.powers j) (x ^ y) ∨ i.IsCorner j (x ^ y)))) :
    ∃ k ∈ i.pow j, x ^ y ∈ k.points := by
  cases hint : j.integer? with
  | some n =>
    have hyn : y = n := by
      rw [((integer?_eq_some_iff hj).1 hint).1] at hy
      exact hy
    simp only [pow, hint]
    subst hyn
    refine (mem_powInt_points hi).2 ⟨x, hx, fun hn hx0 => ?_, (Real.rpow_intCast x n).symm⟩
    have hn' : (n : ℝ) < 0 := by exact_mod_cast hn
    rcases hdef with h | h | h | h
    · exact h.ne' hx0
    · exact h.2.not_gt hn'
    · exact h.2 hx0
    · exact hn'.ne h
  | none =>
    obtain ⟨n, hn, hpoints⟩ | ⟨hx0, hkept⟩ := h
    · rw [(integer?_eq_some_iff hj).2 ⟨hpoints, hn⟩] at hint
      cases hint
    · obtain ⟨k, hbase, hk, hpoints⟩ := exists_base hi hx hx0
      have hnonneg : k.points ⊆ Set.Ici 0 := hpoints ▸ Set.inter_subset_right
      have hpowers : k.powers j = i.powers j := by
        ext v
        rw [powers, powers, hpoints]
        exact ⟨fun ⟨x, hx, h⟩ => ⟨x, hx.1, h⟩, fun ⟨x, hx, y, hy, h0, h⟩ => ⟨x, ⟨hx, h0⟩, y, hy, h0, h⟩⟩
      simp only [pow, hint, hbase, Option.mem_toList]
      refine (mem_ofCorners?_points (placed_corners hk hj hnonneg)).2 ?_
      rcases hkept with hextreme | ⟨x', y', hx', hy', hdef', heq⟩
      · rw [← hpowers] at hextreme
        refine mem_corners_of_not_isExtreme hk hj hnonneg ?_ hextreme
        exact ⟨x, hpoints ▸ ⟨hx, hx0⟩, y, hy, hx0, hdef, rfl⟩
      · rw [← heq]
        exact mem_corners_of_isExtreme hk hj hnonneg (hpoints ▸ hx') hy' hdef'

/-- The powers of one are one whatever the exponent, but an open range of exponents leaves no corner
closed: nothing is left. -/
theorem pow_eq_nil_of_one (hi : i.Proper) (hj : j.Proper) (hone : i.points = {1})
    (hlo : j.lo.closed = false) (hhi : j.hi.closed = false) : i.pow j = [] := by
  have hint : j.integer? = none := by
    refine Option.eq_none_iff_forall_ne_some.2 fun n hn => ?_
    have hpoints := ((integer?_eq_some_iff hj).1 hn).1
    have hextreme : IsExtreme j.points n := Or.inl (by rw [hpoints]; exact isLeast_singleton)
    obtain ⟨a, rfl | rfl, hclosed, -⟩ := exists_end hextreme
    · exact absurd hclosed (by simp [hlo])
    · exact absurd hclosed (by simp [hhi])
  have hmem : (1 : ℝ) ∈ i.points := hone ▸ rfl
  obtain ⟨k, hbase, hk, hpoints⟩ := exists_base hi hmem zero_le_one
  have hnonneg : k.points ⊆ Set.Ici 0 := hpoints ▸ Set.inter_subset_right
  have hk1 {r : ℝ} (hr : r ∈ k.points) : r = 1 := by
    rw [hpoints, hone] at hr
    exact hr.1
  have hends {a : Bound Continuum} (ha : IsEnd a k) : real a.value = 1 := by
    have h1 : (1 : ℝ) ∈ k.points := hpoints ▸ ⟨hmem, Set.mem_Ici.2 zero_le_one⟩
    have hsingle := (isSingleton_iff hk).2 ⟨1, h1, fun r => hk1⟩
    have heq : real k.lo.value = real k.hi.value := congrArg real (Continuum.beq_iff.1 hsingle).1
    have hlo1 := (Bound.Under.le h1.1).antisymm (heq ▸ Bound.Over.le h1.2)
    rcases ha with rfl | rfl
    · exact hlo1
    · exact heq ▸ hlo1
  have hopen {b : Bound Continuum} (hb : IsEnd b j) : b.closed = false := by
    rcases hb with rfl | rfl
    · exact hlo
    · exact hhi
  have hcorner : ∀ e ∈ corners k j, ∀ r : ℝ, (e.Under r → 1 < r) ∧ (e.Over r → r < 1) := by
    have hcorner {a b : Bound Continuum} (ha : IsEnd a k) (hb : IsEnd b j) (r : ℝ) :
        ((powCorner a b).Under r → 1 < r) ∧ ((powCorner a b).Over r → r < 1) := by
      rw [under_powCorner (ha.placed hk) (hb.placed hj) (nonneg_of_isEnd hk hnonneg ha),
        over_powCorner (ha.placed hk) (hb.placed hj) (nonneg_of_isEnd hk hnonneg ha), hends ha,
        rpow_one_left, hopen hb, ← EReal.coe_one, EReal.coe_lt_coe_iff, EReal.coe_lt_coe_iff]
      simp
    simp only [corners, List.forall_mem_cons, List.not_mem_nil, false_imp_iff, implies_true, and_true]
    exact ⟨hcorner (Or.inl rfl) (Or.inl rfl), hcorner (Or.inl rfl) (Or.inr rfl),
      hcorner (Or.inr rfl) (Or.inl rfl), hcorner (Or.inr rfl) (Or.inr rfl)⟩
  simp only [pow, hint, hbase]
  refine List.eq_nil_iff_forall_not_mem.2 fun k' hk' => ?_
  have hk'' := Option.mem_toList.1 hk'
  obtain ⟨r, hr⟩ := (proper_of_ofBounds? hk'').exists_point
  obtain ⟨⟨e, he, hunder⟩, e', he', hover⟩ :=
    (mem_ofCorners?_points (placed_corners hk hj hnonneg)).1 ⟨k', hk'', hr⟩
  exact lt_asymm ((hcorner e he r).1 hunder) ((hcorner e' he' r).2 hover)

end Interval

namespace Numbers

/-- Powers are over-approximated away from their extremes. Whatever the ends of two sets and however
many intervals they have, the power of a positive base other than one with an exponent other than
zero is in the power of the sets. So is every power that two intervals that are combined give with a
single integer for the exponent, or with a base that is not negative, as long as it is not the least
or the greatest power of the two, or is one of extreme elements. -/
theorem rpow_mem_pow {s t : Numbers Continuum} (hs : s.Made) (ht : t.Made) (hx : x ∈ s.points)
    (hy : y ∈ t.points) (hdef : HasPower x y)
    (h : (0 < x ∧ x ≠ 1 ∧ y ≠ 0) ∨ ∃ i j, Combined s t i j ∧ x ∈ i.points ∧ y ∈ j.points ∧
      ((∃ n : ℤ, n.natAbs < 2147483647 ∧ j.points = {(n : ℝ)}) ∨
        (0 ≤ x ∧ (¬ IsExtreme (i.powers j) (x ^ y) ∨ i.IsCorner j (x ^ y))))) :
    x ^ y ∈ (s.pow t).points ∧ (s.pow t).isEmpty = false := by
  have hs' := hs.canonical sineBounded
  have ht' := ht.canonical sineBounded
  have hmem : x ^ y ∈ (s.pow t).points := by
    refine (mem_pairwise_points fun _ _ _ => Interval.proper_of_pow).2 ?_
    rcases h with ⟨hx0, hx1, hy0⟩ | ⟨i, j, hij, hx, hy, h⟩
    · obtain ⟨i, j, hij, hx, hy⟩ := exists_combined hs' ht' hx hy
      obtain ⟨hi, hj⟩ := hij.proper hs' ht'
      exact ⟨i, j, hij, Interval.mem_pow_points hi hj hx hy hdef
        (Or.inr ⟨hx0.le, Interval.kept_of_ne hx hy hx0 hx1 hy0⟩)⟩
    · obtain ⟨hi, hj⟩ := hij.proper hs' ht'
      exact ⟨i, j, hij, Interval.mem_pow_points hi hj hx hy hdef h⟩
  refine ⟨hmem, Bool.eq_false_iff.2 fun hempty => ?_⟩
  rw [isEmpty_iff_points canonical_pow] at hempty
  rw [hempty] at hmem
  exact hmem

/-- The square roots and cubes of all numbers: nothing is lost between open, infinite ranges. -/
theorem rpow_mem_pow_unbounded : (unbounded : Numbers Continuum).Made ∧
    (2 : ℝ) ∈ (unbounded : Numbers Continuum).points ∧ HasPower 2 3 ∧
      (2 : ℝ) ^ (3 : ℝ) ∈ ((unbounded : Numbers Continuum).pow unbounded).points := by
  have hmem (r : ℝ) : r ∈ (unbounded : Numbers Continuum).points :=
    ⟨.unbounded, List.mem_singleton.2 rfl, Or.inl (EReal.bot_lt_coe r), Or.inl (EReal.coe_lt_top r)⟩
  have hdef : HasPower 2 3 := Or.inl (by norm_num)
  exact ⟨.unbounded, hmem 2, hdef, (rpow_mem_pow .unbounded .unbounded (hmem 2) (hmem 3) hdef
    (Or.inl ⟨by norm_num, by norm_num, by norm_num⟩)).1⟩

/-- One has powers with every exponent between two and three, and they are all lost. -/
theorem pow_one_isEmpty : (singleton 1 : Numbers Continuum).Made ∧
    (ofInterval? (Interval.open? 2 3) : Numbers Continuum).Made ∧
      (1 : ℝ) ∈ (singleton 1 : Numbers Continuum).points ∧
        (5 / 2 : ℝ) ∈ (ofInterval? (Interval.open? 2 3) : Numbers Continuum).points ∧
          HasPower 1 (5 / 2) ∧
            ((singleton 1 : Numbers Continuum).pow (ofInterval? (Interval.open? 2 3))).points = ∅ := by
  have hplaced (x : Continuum) (c : Bool) (hx : Scalar.isFinite x) :
      (⟨x, c⟩ : Bound Continuum).Placed := beq_of_isFinite hx
  have hfin (n : ℕ) [n.AtLeastTwo] : Scalar.isFinite (OfNat.ofNat n : Continuum) :=
    isFinite_iff.2 ⟨n, ofNat_eq n⟩
  have hreal (n : ℕ) [n.AtLeastTwo] : real (OfNat.ofNat n : Continuum) = ((n : ℝ) : EReal) := by
    rw [ofNat_eq, real_number]
  have hone (r : ℝ) : (∃ k ∈ (Interval.singleton? 1 : Option (Interval Continuum)), r ∈ k.points) ↔
      r = 1 := by
    have h1 : (⟨1, true⟩ : Bound Continuum).Placed := hplaced 1 true isFinite_one
    have hreal1 : real (⟨1, true⟩ : Bound Continuum).value = ((1 : ℝ) : EReal) := Unrounded.real_one
    rw [Interval.singleton?, Interval.closed?, Interval.mem_ofBounds?_points h1 h1,
      Bound.under_coe hreal1, Bound.over_coe hreal1]
    simp only [and_true]
    constructor
    · rintro ⟨h | h, h' | h'⟩
      · exact absurd h h'.not_gt
      · exact h'
      · exact h
      · exact h
    · exact fun h => ⟨Or.inr h, Or.inr h⟩
  have htwo : (∃ k ∈ (Interval.open? 2 3 : Option (Interval Continuum)), (5 / 2 : ℝ) ∈ k.points) := by
    rw [Interval.open?, Interval.mem_ofBounds?_points (hplaced 2 false (hfin 2))
      (hplaced 3 false (hfin 3)), Bound.under_coe (hreal 2), Bound.over_coe (hreal 3)]
    norm_num
  obtain ⟨i, hi, hi1⟩ := (hone 1).2 rfl
  obtain ⟨j, hj, hj2⟩ := htwo
  have hi' := Interval.proper_of_ofBounds? hi
  have hj' := Interval.proper_of_ofBounds? hj
  have hpoints : i.points = {1} := Set.eq_singleton_iff_unique_mem.2
    ⟨hi1, fun r hr => (hone r).1 ⟨i, hi, hr⟩⟩
  obtain ⟨-, -, -, -, -, hends⟩ := Interval.mem_ofBounds?_iff.1 hj
  have hopen (x : Continuum) : (⟨x, false⟩ : Bound Continuum).normalized.closed = false := by
    rw [Bound.normalized]
    split_ifs <;> rfl
  have hnil := Interval.pow_eq_nil_of_one hi' hj' hpoints (hends ▸ hopen 2) (hends ▸ hopen 3)
  have hs : (singleton 1 : Numbers Continuum) = ⟨[i]⟩ := by rw [singleton, ofInterval?, hi]; rfl
  have ht : (ofInterval? (Interval.open? 2 3) : Numbers Continuum) = ⟨[j]⟩ := by
    rw [ofInterval?, hj]
    rfl
  rw [ht]
  refine ⟨.singleton 1, .ofInterval (.ofBounds hj), hs ▸ ⟨i, List.mem_singleton.2 rfl, hi1⟩,
    ⟨j, List.mem_singleton.2 rfl, hj2⟩, Or.inl one_pos, ?_⟩
  rw [hs]
  refine Set.eq_empty_iff_forall_notMem.2 fun r hr => ?_
  obtain ⟨i', j', hij, k, hk, -⟩ := (mem_pairwise_points fun _ _ _ => Interval.proper_of_pow).1 hr
  simp only [Combined, List.length_singleton, List.mem_singleton] at hij
  rw [if_pos (by decide)] at hij
  rw [hij.1, hij.2, hnil] at hk
  exact List.not_mem_nil hk

end Numbers

end ParameterSolver
