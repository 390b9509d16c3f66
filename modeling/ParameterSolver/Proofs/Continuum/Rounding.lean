import ParameterSolver.Proofs.Continuum.Exponents

/-! Rounding of sets of real numbers to integers, halves upwards. An integer is what some element of
an interval rounds to if the half below it lies below the upper end and the half above it above the
lower end: so much the two ends that are rounded say of it. The integers between them are listed one
by one as long as there are few, and then rounding gives exactly what the elements round to. -/

namespace ParameterSolver

open Scalar Scalar.Ordered Scalar.Reading Continuum

variable {p r : ℝ} {n m : ℤ}

/-- The nearest integer; a half goes up. -/
noncomputable def rounded (p : ℝ) : ℤ := round p

theorem rounded_eq_floor (p : ℝ) : rounded p = ⌊p + 1 / 2⌋ := round_eq p

theorem rounded_eq_iff : rounded p = n ↔ (n : ℝ) - 1 / 2 ≤ p ∧ p < n + 1 / 2 := by
  rw [rounded_eq_floor, Int.floor_eq_iff]
  constructor
  · exact fun h => ⟨by linarith [h.1], by linarith [h.2]⟩
  · exact fun h => ⟨by linarith [h.1], by linarith [h.2]⟩

namespace Continuum

theorem half_eq : (0.5 : Continuum) = number ((1 / 2 : ℝ) : EReal) := by
  change number ((((5 : ℕ) : ℤ) * 10 ^ (-((1 : ℕ) : ℤ)) : ℝ) : EReal) = _
  norm_num

theorem number_add_real (a b : ℝ) : number a + number b = number ((a + b : ℝ) : EReal) := by
  rw [number_add_number, add, if_neg (by simp), EReal.coe_add]

theorem number_sub_real (a b : ℝ) : number a - number b = number ((a - b : ℝ) : EReal) := by
  change number a + -number b = _
  rw [neg_number, ← EReal.coe_neg, number_add_real, sub_eq_add_neg]

theorem roundHalfUp_real (x : ℝ) : roundHalfUp (number x) = number ((rounded x : ℝ) : EReal) := by
  rw [roundHalfUp, half_eq, number_add_real]
  change onReals (fun r => ⌊r⌋) ((x + 1 / 2 : ℝ) : EReal) = _
  rw [onReals, if_neg (not_or.2 ⟨EReal.coe_ne_top _, EReal.coe_ne_bot _⟩), EReal.toReal_coe,
    rounded_eq_floor]

theorem roundHalfUp_infinite {e : EReal} (h : e = ⊤ ∨ e = ⊥) :
    roundHalfUp (number e) = number e := by
  have hadd : number e + number ((1 / 2 : ℝ) : EReal) = number e := by
    rw [number_add_number, add, if_neg (by simp)]
    rcases h with rfl | rfl
    · rw [EReal.top_add_coe]
    · rw [EReal.bot_add]
  rw [roundHalfUp, half_eq, hadd]
  exact if_pos h

end Continuum

namespace Interval

variable {i : Interval Continuum}

/-- The lower end rounds to the least integer that lies less than a half below an element. -/
theorem exists_roundedLo (hi : i.Proper) :
    ∃ a : EReal, roundHalfUp i.lo.value = number a ∧ (a = ⊥ ∨ ∃ m : ℤ, a = ((m : ℝ) : EReal)) ∧
      ∀ n : ℤ, a ≤ ((n : ℝ) : EReal) ↔ real i.lo.value < ((n + 1 / 2 : ℝ) : EReal) := by
  rw [value_eq hi.lo, real_number]
  have htop := hi.lo_ne_top
  generalize real i.lo.value = e at htop ⊢
  induction e with
  | top => exact absurd rfl htop
  | bot => exact ⟨⊥, roundHalfUp_infinite (Or.inr rfl), Or.inl rfl, fun n => by simp⟩
  | coe x =>
    refine ⟨_, roundHalfUp_real x, Or.inr ⟨_, rfl⟩, fun n => ?_⟩
    rw [EReal.coe_le_coe_iff, EReal.coe_lt_coe_iff, Int.cast_le, rounded_eq_floor, ← Int.lt_add_one_iff,
      Int.floor_lt]
    push_cast
    constructor <;> intro h <;> linarith

/-- Where the rounded elements stop. -/
noncomputable def roundedHi (i : Interval Continuum) : Continuum :=
  if !i.hi.closed && Scalar.isFinite i.hi.value && (Scalar.toInt? (i.hi.value + 0.5)).isSome then
    roundHalfUp i.hi.value - 1
  else roundHalfUp i.hi.value

/-- The elements are real numbers. -/
theorem mem_iff_real (hi : i.Proper) {x : Continuum} :
    x ∈ i ↔ ∃ r : ℝ, x = number r ∧ r ∈ i.points := by
  cases x with
  | nan =>
    refine iff_of_false (fun h => ?_) (fun ⟨r, hr, _⟩ => by cases hr)
    simpa using number_of_mem h
  | number e =>
    have hmem : number e ∈ i ↔ (real i.lo.value < e ∨ (e = real i.lo.value ∧ i.lo.closed)) ∧
        (e < real i.hi.value ∨ (e = real i.hi.value ∧ i.hi.closed)) := by
      change i.contains (number e) = true ↔ _
      rw [contains, value_eq hi.lo, value_eq hi.hi]
      simp
    -- an infinite end is open
    have hinf : e = ⊤ ∨ e = ⊥ → number e ∉ i := by
      intro he h
      have hx : isInfinite (number e) := by
        rcases he with rfl | rfl <;> simp [isInfinite]
      obtain ⟨hlo, hhi⟩ := hmem.1 h
      have hopen (c : Bound Continuum) (hc : c.Placed) (h : e = real c.value) :
          isInfinite c.value := by
        rw [value_eq hc, ← h]
        exact hx
      rcases he with rfl | rfl
      · obtain ⟨heq, hclosed⟩ := hhi.resolve_left not_top_lt
        simp [hi.hiOpen (hopen _ hi.hi heq)] at hclosed
      · obtain ⟨heq, hclosed⟩ := hlo.resolve_left not_lt_bot
        simp [hi.loOpen (hopen _ hi.lo heq)] at hclosed
    constructor
    · intro h
      have he : ((e.toReal : ℝ) : EReal) = e :=
        EReal.coe_toReal (fun he => hinf (Or.inl he) h) fun he => hinf (Or.inr he) h
      rw [← he] at h hmem ⊢
      exact ⟨e.toReal, rfl, hmem.1 h⟩
    · rintro ⟨r, hr, hpoint⟩
      cases hr
      exact hmem.2 hpoint

theorem isSome_toInt?_iff {x : ℝ} : (Scalar.toInt? (number x)).isSome ↔ ∃ m : ℤ, x = m := by
  simp only [Option.isSome_iff_exists, toInt?_number_iff, EReal.coe_eq_coe_iff]

/-- The upper end rounds to the greatest integer whose lower half the interval reaches; an open end at
a half is not reached. -/
theorem exists_roundedHi (hi : i.Proper) :
    ∃ b : EReal, i.roundedHi = number b ∧ (b = ⊤ ∨ ∃ m : ℤ, b = ((m : ℝ) : EReal)) ∧
      ∀ n : ℤ, ((n : ℝ) : EReal) ≤ b ↔ i.hi.Over (n - 1 / 2) := by
  have hvalue := value_eq hi.hi
  have hbot := hi.hi_ne_bot
  unfold Bound.Over roundedHi
  rw [hvalue, real_number]
  generalize real i.hi.value = e at hbot ⊢
  induction e with
  | bot => exact absurd rfl hbot
  | top =>
    refine ⟨⊤, ?_, Or.inl rfl, fun n => iff_of_true le_top (Or.inl (EReal.coe_lt_top _))⟩
    have hinf : Scalar.isFinite (number ⊤) = false := by
      simp [← Bool.not_eq_true]
    rw [hinf, Bool.and_false, Bool.false_and, if_neg Bool.false_ne_true,
      roundHalfUp_infinite (Or.inl rfl)]
  | coe x =>
    have hfin : Scalar.isFinite (number x) = true := isFinite_iff.2 ⟨x, rfl⟩
    have hopen : (!i.hi.closed && Scalar.isFinite (number x) &&
        (Scalar.toInt? (number (x : EReal) + 0.5)).isSome) = true ↔
          i.hi.closed = false ∧ ∃ m : ℤ, x + 1 / 2 = m := by
      rw [hfin, Bool.and_true, half_eq, number_add_real, Bool.and_eq_true, Bool.not_eq_true',
        isSome_toInt?_iff]
    simp only [EReal.coe_lt_coe_iff, EReal.coe_eq_coe_iff, roundHalfUp_real]
    have hone : number ((rounded x : ℝ) : EReal) - 1 = number (((rounded x - 1 : ℤ) : ℝ) : EReal) := by
      rw [one_eq, ← EReal.coe_one, number_sub_real]
      push_cast
      rfl
    have hle (n : ℤ) : n ≤ rounded x ↔ (n : ℝ) - 1 / 2 ≤ x := by
      rw [rounded_eq_floor, Int.le_floor]
      constructor <;> intro h <;> linarith
    split_ifs with h
    · obtain ⟨hclosed, m, hm⟩ := hopen.1 h
      have hx : rounded x = m := by rw [rounded_eq_floor, hm, Int.floor_intCast]
      refine ⟨_, hone, Or.inr ⟨_, rfl⟩, fun n => ?_⟩
      have hlt : n ≤ m - 1 ↔ (n : ℝ) < m := by rw [Int.le_sub_one_iff, Int.cast_lt]
      rw [EReal.coe_le_coe_iff, Int.cast_le, hx, hlt, ← hm]
      simp only [hclosed, Bool.false_eq_true, and_false, or_false]
      constructor <;> intro h <;> linarith
    · refine ⟨_, rfl, Or.inr ⟨_, rfl⟩, fun n => ?_⟩
      rw [EReal.coe_le_coe_iff, Int.cast_le, hle, le_iff_lt_or_eq]
      refine or_congr_right ⟨fun heq => ⟨heq, ?_⟩, And.left⟩
      -- an end at a half is closed
      refine by_contra fun hclosed => h (hopen.2 ⟨Bool.eq_false_iff.2 hclosed, n, ?_⟩)
      linarith

/-- An integer is what some element rounds to if the halves around it lie between the ends. -/
theorem exists_rounded_eq_iff (hi : i.Proper) :
    (∃ p ∈ i.points, rounded p = n) ↔
      real i.lo.value < ((n + 1 / 2 : ℝ) : EReal) ∧ i.hi.Over (n - 1 / 2) := by
  constructor
  · rintro ⟨p, hp, hn⟩
    obtain ⟨hle, hlt⟩ := rounded_eq_iff.1 hn
    exact ⟨(Bound.Under.le hp.1).trans_lt (EReal.coe_lt_coe_iff.2 hlt), Bound.Over.mono hp.2 hle⟩
  · rintro ⟨hlo, hhi⟩
    obtain ⟨q, hloq, hq⟩ := EReal.lt_iff_exists_real_btwn.1 hlo
    obtain ⟨s, hs, hsq⟩ := hi.touches.1.exists_le (Or.inl hloq)
    obtain ⟨t, ht, hnt⟩ := hi.touches.2.exists_ge hhi
    have hsn : s < n + 1 / 2 := hsq.trans_lt (EReal.coe_lt_coe_iff.1 hq)
    by_cases h : (n : ℝ) - 1 / 2 ≤ s
    · exact ⟨s, hs, rounded_eq_iff.2 ⟨h, hsn⟩⟩
    · refine ⟨n - 1 / 2, i.ordConnected_points.out hs ht ⟨(not_le.1 h).le, hnt⟩, ?_⟩
      exact rounded_eq_iff.2 ⟨le_rfl, by linarith⟩

/-- The elements round to the integers between the two rounded ends. -/
theorem roundRange?_eq (hi : i.Proper) :
    ∃ a b : EReal, i.roundRange? = some (number a, number b) ∧
      (a = ⊥ ∨ ∃ m : ℤ, a = ((m : ℝ) : EReal)) ∧ (b = ⊤ ∨ ∃ m : ℤ, b = ((m : ℝ) : EReal)) ∧
      ∀ n : ℤ, n ∈ rounded '' i.points ↔ a ≤ ((n : ℝ) : EReal) ∧ ((n : ℝ) : EReal) ≤ b := by
  obtain ⟨a, ha, hacases, hale⟩ := exists_roundedLo hi
  obtain ⟨b, hb, hbcases, hleb⟩ := exists_roundedHi hi
  have hmem (n : ℤ) : n ∈ rounded '' i.points ↔ a ≤ ((n : ℝ) : EReal) ∧ ((n : ℝ) : EReal) ≤ b := by
    rw [hale, hleb]
    exact exists_rounded_eq_iff hi
  obtain ⟨p, hp⟩ := hi.exists_point
  have hab := (hmem (rounded p)).1 ⟨p, hp, rfl⟩
  have hle : number a ≤ number b := by
    rw [Continuum.le_iff, number_lt_number]
    exact (hab.1.trans hab.2).lt_or_eq.imp_right fun h => ⟨congrArg number h, number_ne_nan⟩
  refine ⟨a, b, ?_, hacases, hbcases, hmem⟩
  have hrange : i.roundRange? = if roundHalfUp i.lo.value ≤ i.roundedHi then
      some (roundHalfUp i.lo.value, i.roundedHi) else none := rfl
  rw [hrange, ha, hb, if_pos hle]

end Interval

namespace Numbers

variable {i : Interval Continuum} {s : Numbers Continuum}

theorem mem_closed?_points {a b : EReal} :
    (∃ k ∈ Interval.closed? (number a) (number b), r ∈ k.points) ↔ a ≤ r ∧ (r : EReal) ≤ b := by
  have hplaced (e : EReal) : (⟨number e, true⟩ : Bound Continuum).Placed :=
    Continuum.beq_iff.2 ⟨rfl, number_ne_nan⟩
  rw [Interval.closed?, Interval.mem_ofBounds?_points (hplaced a) (hplaced b), Bound.Under,
    Bound.Over, real_number, real_number, and_iff_left rfl, and_iff_left rfl, le_iff_lt_or_eq,
    le_iff_lt_or_eq, @eq_comm _ a]

/-- The integers between two are listed one by one. -/
theorem mem_singletons_points {k : ℕ} :
    (∃ j ∈ (List.range (k + 1)).filterMap fun c : ℕ =>
        Interval.singleton? (number ((m : ℝ) : EReal) + ofDecimal c 0), r ∈ j.points) ↔
      ∃ n : ℤ, (m ≤ n ∧ n ≤ m + k) ∧ (n : ℝ) = r := by
  have hvalue (c : ℕ) : number ((m : ℝ) : EReal) + ofDecimal (c : ℤ) 0
      = number (((m + c : ℤ) : ℝ) : EReal) := by
    have hc : (ofDecimal (c : ℤ) 0 : Continuum) = number ((c : ℝ) : EReal) := by
      change number ((((c : ℤ) : ℝ) * 10 ^ (0 : ℤ) : ℝ) : EReal) = _
      simp
    rw [hc, number_add_real]
    push_cast
    rfl
  have hpoint (c : ℕ) : (∃ j ∈ Interval.singleton? (number ((m : ℝ) : EReal) + ofDecimal (c : ℤ) 0),
      r ∈ j.points) ↔ ((m + c : ℤ) : ℝ) = r := by
    rw [hvalue, Interval.singleton?, mem_closed?_points, EReal.coe_le_coe_iff, EReal.coe_le_coe_iff,
      le_antisymm_iff]
  constructor
  · rintro ⟨j, hj, hr⟩
    obtain ⟨c, hc, hj⟩ := List.mem_filterMap.1 hj
    have hlt := List.mem_range.1 hc
    exact ⟨m + c, by omega, (hpoint c).1 ⟨j, hj, hr⟩⟩
  · rintro ⟨n, ⟨hmn, hnk⟩, hr⟩
    obtain ⟨c, rfl⟩ := Int.le.dest hmn
    obtain ⟨j, hj, hr⟩ := (hpoint c).2 hr
    exact ⟨j, List.mem_filterMap.2 ⟨c, List.mem_range.2 (by omega), hj⟩, hr⟩

theorem toInt?_integer : Scalar.toInt? (number ((m : ℝ) : EReal)) = some m :=
  Interval.toInt?_number_iff.2 rfl

/-- Too many integers lie between two ends, one of which may be infinite. -/
theorem lt_encard_of_not_near {S : Set ℤ} {a b : EReal}
    (ha : a = ⊥ ∨ ∃ m : ℤ, a = ((m : ℝ) : EReal)) (hb : b = ⊤ ∨ ∃ m : ℤ, b = ((m : ℝ) : EReal))
    (hS : ∀ n : ℤ, n ∈ S ↔ a ≤ ((n : ℝ) : EReal) ∧ ((n : ℝ) : EReal) ≤ b)
    (hfar : ∀ m l : ℤ, a = ((m : ℝ) : EReal) → b = ((l : ℝ) : EReal) → m + 64 ≤ l) :
    64 < S.encard := by
  -- wherever the ends are, there are 65 integers in a row
  obtain ⟨c, hc⟩ : ∃ c : ℤ, Set.Icc c (c + 64) ⊆ S := by
    have hmono {x y : ℤ} (h : x ≤ y) : ((x : ℝ) : EReal) ≤ ((y : ℝ) : EReal) :=
      EReal.coe_le_coe_iff.2 (Int.cast_le.2 h)
    rcases ha with rfl | ⟨m, rfl⟩
    · rcases hb with rfl | ⟨l, rfl⟩
      · exact ⟨0, fun n _ => (hS n).2 ⟨bot_le, le_top⟩⟩
      · exact ⟨l - 64, fun n hn => (hS n).2 ⟨bot_le, hmono (by have := hn.2; omega)⟩⟩
    · rcases hb with rfl | ⟨l, rfl⟩
      · exact ⟨m, fun n hn => (hS n).2 ⟨hmono hn.1, le_top⟩⟩
      · have hml := hfar m l rfl rfl
        exact ⟨m, fun n hn => (hS n).2 ⟨hmono hn.1, hmono (by have := hn.2; omega)⟩⟩
  have hcard : (Set.Icc c (c + 64)).encard = 65 := by
    rw [← Finset.coe_Icc, Set.encard_coe_eq_coe_finsetCard, Int.card_Icc,
      show (c + 64 + 1 - c).toNat = 65 by omega]
    rfl
  calc (64 : ℕ∞) < 65 := by decide
    _ = (Set.Icc c (c + 64)).encard := hcard.symm
    _ ≤ S.encard := Set.encard_le_encard hc

/-- Rounding an interval gives what its elements round to, and nothing else if that are at most 64
integers. -/
theorem roundInterval_points (hi : i.Proper) :
    (∀ p ∈ i.points, ∃ k ∈ roundInterval i, (rounded p : ℝ) ∈ k.points) ∧
      ((rounded '' i.points).encard ≤ 64 → ∀ r : ℝ, (∃ k ∈ roundInterval i, r ∈ k.points) →
        ∃ p ∈ i.points, (rounded p : ℝ) = r) := by
  obtain ⟨a, b, hrange, ha, hb, hmem⟩ := Interval.roundRange?_eq hi
  have himage (p : ℝ) (hp : p ∈ i.points) := (hmem (rounded p)).1 ⟨p, hp, rfl⟩
  unfold roundInterval
  rw [hrange]
  dsimp only
  by_cases hnear : ∃ m l : ℤ, a = ((m : ℝ) : EReal) ∧ b = ((l : ℝ) : EReal) ∧ l < m + 64
  · obtain ⟨m, l, rfl, rfl, hlm⟩ := hnear
    obtain ⟨q, hq⟩ := hi.exists_point
    have hml : m ≤ l := by
      have h := (himage q hq).1.trans (himage q hq).2
      exact Int.cast_le.1 (EReal.coe_le_coe_iff.1 h)
    have hsub : number ((l : ℝ) : EReal) - number ((m : ℝ) : EReal)
        = number (((l - m : ℤ) : ℝ) : EReal) := by
      rw [number_sub_real]
      push_cast
      rfl
    have hfin (x : ℝ) : Scalar.isFinite (number (x : EReal)) = true := isFinite_iff.2 ⟨x, rfl⟩
    have hfew : number (((l - m : ℤ) : ℝ) : EReal) < 64 := by
      rw [ofNat_eq, number_lt_number, EReal.coe_lt_coe_iff]
      exact_mod_cast (by omega : l - m < 64)
    rw [hsub, hfin, hfin, Bool.true_and, Bool.true_and, decide_eq_true hfew, if_pos rfl, toInt?_integer,
      Option.getD_some]
    have hlast : m + ((l - m).toNat : ℤ) = l := by omega
    have hmem' (n : ℤ) : n ∈ rounded '' i.points ↔ m ≤ n ∧ n ≤ l := by
      rw [hmem, EReal.coe_le_coe_iff, EReal.coe_le_coe_iff, Int.cast_le, Int.cast_le]
    refine ⟨fun p hp => mem_singletons_points.2 ⟨rounded p, ?_, rfl⟩, fun _ r hr => ?_⟩
    · rw [hlast]
      exact (hmem' _).1 ⟨p, hp, rfl⟩
    · obtain ⟨n, hn, rfl⟩ := mem_singletons_points.1 hr
      rw [hlast] at hn
      obtain ⟨p, hp, hpn⟩ := (hmem' n).2 hn
      exact ⟨p, hp, congrArg _ hpn⟩
  · have hfar (m l : ℤ) (hm : a = ((m : ℝ) : EReal)) (hl : b = ((l : ℝ) : EReal)) : m + 64 ≤ l :=
      not_lt.1 fun h => hnear ⟨m, l, hm, hl, h⟩
    have hmany : ¬ (Scalar.isFinite (number a) && Scalar.isFinite (number b) &&
        decide (number b - number a < 64)) = true := by
      intro h
      simp only [Bool.and_eq_true, decide_eq_true_eq, isFinite_iff, number.injEq] at h
      obtain ⟨⟨⟨x, hx⟩, y, hy⟩, hlt⟩ := h
      obtain ⟨m, rfl⟩ := ha.resolve_left (hx ▸ EReal.coe_ne_bot x)
      obtain ⟨l, rfl⟩ := hb.resolve_left (hy ▸ EReal.coe_ne_top y)
      rw [number_sub_real, ofNat_eq, number_lt_number, EReal.coe_lt_coe_iff] at hlt
      have hlt' : l - m < 64 := by exact_mod_cast hlt
      have := hfar m l rfl rfl
      omega
    rw [if_neg hmany]
    refine ⟨fun p hp => ?_, fun hcard => absurd hcard (lt_encard_of_not_near ha hb hmem hfar).not_ge⟩
    simp only [Option.mem_toList]
    exact mem_closed?_points.2 (himage p hp)

theorem Canonical.mem_iff_real (hs : s.Canonical) {x : Continuum} :
    x ∈ s ↔ ∃ r : ℝ, x = number r ∧ r ∈ s.points := by
  rw [mem_iff_exists]
  constructor
  · rintro ⟨i, hi, hx⟩
    obtain ⟨r, hr, hpoint⟩ := (Interval.mem_iff_real (hs.proper i hi)).1 hx
    exact ⟨r, hr, i, hi, hpoint⟩
  · rintro ⟨r, hr, i, hi, hpoint⟩
    exact ⟨i, hi, (Interval.mem_iff_real (hs.proper i hi)).2 ⟨r, hr, hpoint⟩⟩

theorem ext_of_beq {s t : Numbers Continuum} (h : s == t) : s = t := by
  obtain ⟨l⟩ := s
  obtain ⟨m⟩ := t
  have hbound {b c : Bound Continuum} (h : b == c) : b = c := by
    obtain ⟨x, d⟩ := b
    obtain ⟨y, e⟩ := c
    obtain ⟨hx, hd⟩ := (Bool.and_eq_true _ _).mp h
    rw [(Continuum.beq_iff.1 hx).1, beq_iff_eq.1 hd]
  have hlist : l = m := by
    induction l generalizing m with
    | nil => cases m with
      | nil => rfl
      | cons j m => exact absurd h Bool.false_ne_true
    | cons i l ih => cases m with
      | nil => exact absurd h Bool.false_ne_true
      | cons j m =>
        obtain ⟨hij, hlm⟩ := (Bool.and_eq_true _ _).mp h
        obtain ⟨hlo, hhi⟩ := (Bool.and_eq_true _ _).mp hij
        have hends : i = j := by
          cases i
          exact congrArg₂ Interval.mk (hbound hlo) (hbound hhi)
        rw [ih m hlm, hends]
  rw [hlist]

/-- A set is told by its elements. -/
theorem Canonical.ext {s t : Numbers Continuum} (hs : s.Canonical) (ht : t.Canonical)
    (h : s.points = t.points) : s = t := ext_of_beq ((beq_iff_points hs ht).2 h)

theorem mem_round_points :
    r ∈ s.round.points ↔ ∃ i ∈ s.intervals, ∃ k ∈ roundInterval i, r ∈ k.points := by
  have hpieces : ∀ k ∈ s.intervals.flatMap roundInterval, k.Proper := by
    intro k hk
    obtain ⟨i, -, hk⟩ := List.mem_flatMap.1 hk
    exact proper_roundInterval k hk
  rw [round, map, points_ofIntervals hpieces]
  constructor
  · rintro ⟨k, hk, hr⟩
    obtain ⟨i, hi, hk⟩ := List.mem_flatMap.1 hk
    exact ⟨i, hi, k, hk, hr⟩
  · rintro ⟨i, hi, k, hk, hr⟩
    exact ⟨k, List.mem_flatMap.2 ⟨i, hi, hk⟩, hr⟩

/-- As many numbers as integers are rounded to. -/
theorem encard_rounded (hi : i.Proper) :
    {y | ∃ x ∈ i, roundHalfUp x = y}.encard = (rounded '' i.points).encard := by
  have hinj : Function.Injective fun n : ℤ => number ((n : ℝ) : EReal) := fun m n h =>
    Int.cast_injective (EReal.coe_injective (number.inj h))
  rw [← hinj.encard_image]
  congr 1
  ext y
  constructor
  · rintro ⟨x, hx, rfl⟩
    obtain ⟨p, rfl, hp⟩ := (Interval.mem_iff_real hi).1 hx
    exact ⟨rounded p, ⟨p, hp, rfl⟩, (roundHalfUp_real p).symm⟩
  · rintro ⟨_, ⟨p, hp, rfl⟩, rfl⟩
    exact ⟨number p, (Interval.mem_iff_real hi).2 ⟨p, rfl, hp⟩, roundHalfUp_real p⟩

/-- Rounding gives the exact image. Every number that can be an element of the set rounds to an
element of the rounded set, which has elements if the set has; and if no interval of the set rounds to
more than 64 integers, its elements are what the elements of the set round to. The ends may be open,
closed, at a half or infinite. -/
theorem mem_round_iff (hs : s.Made) :
    (∀ r : ℝ, roundHalfUp (number r) = number ((⌊r + 1 / 2⌋ : ℝ) : EReal)) ∧
      (∀ x ∈ s, roundHalfUp x ∈ s.round) ∧ (s.isEmpty = false → s.round.isEmpty = false) ∧
        ((∀ i ∈ s.intervals, {y | ∃ x ∈ i, roundHalfUp x = y}.encard ≤ 64) →
          ∀ y, y ∈ s.round ↔ ∃ x ∈ s, roundHalfUp x = y) := by
  have hs' := hs.canonical sineBounded
  have hround := hs'.round
  have hsound : ∀ x ∈ s, roundHalfUp x ∈ s.round := by
    intro x hx
    obtain ⟨p, rfl, i, hi, hp⟩ := hs'.mem_iff_real.1 hx
    rw [roundHalfUp_real]
    obtain ⟨k, hk, hpk⟩ := (roundInterval_points (hs'.proper i hi)).1 p hp
    exact hround.mem_iff_real.2 ⟨_, rfl, (mem_round_points).2 ⟨i, hi, k, hk, hpk⟩⟩
  refine ⟨fun r => rounded_eq_floor r ▸ roundHalfUp_real r, hsound, fun hne => ?_,
    fun hfew y => ⟨fun hy => ?_, ?_⟩⟩
  · -- an element is left over from each element
    have hpoints : s.points ≠ ∅ := by
      rw [Ne, ← isEmpty_iff_points hs', hne]
      exact Bool.false_ne_true
    obtain ⟨p, hp⟩ := Set.nonempty_iff_ne_empty.2 hpoints
    obtain ⟨q, -, hq⟩ := hround.mem_iff_real.1 (hsound _ (hs'.mem_iff_real.2 ⟨p, rfl, hp⟩))
    refine Bool.eq_false_iff.2 fun hempty => ?_
    rw [(isEmpty_iff_points hround).1 hempty] at hq
    exact hq
  · obtain ⟨r, rfl, hr⟩ := hround.mem_iff_real.1 hy
    obtain ⟨i, hi, hk⟩ := (mem_round_points).1 hr
    have hproper := hs'.proper i hi
    have hcard : (rounded '' i.points).encard ≤ 64 := encard_rounded hproper ▸ hfew i hi
    obtain ⟨p, hp, hpr⟩ := (roundInterval_points hproper).2 hcard r hk
    refine ⟨number p, hs'.mem_iff_real.2 ⟨p, rfl, i, hi, hp⟩, ?_⟩
    rw [roundHalfUp_real, hpr]
  · rintro ⟨x, hx, rfl⟩
    exact hsound x hx

/-- The numbers between zero and five halves round to zero, one and two: the open end is not
reached, so nothing rounds to three. -/
theorem mem_round_iff_half : (ofInterval? (Interval.open? 0 2.5) : Numbers Continuum).Made ∧
    2 ∈ (ofInterval? (Interval.open? 0 2.5) : Numbers Continuum).round ∧
      3 ∉ (ofInterval? (Interval.open? 0 2.5) : Numbers Continuum).round := by
  have hzero : real (⟨0, false⟩ : Bound Continuum).value = ((0 : ℝ) : EReal) := by
    rw [zero_eq, real_number, EReal.coe_zero]
  have hhalves : (2.5 : Continuum) = number ((5 / 2 : ℝ) : EReal) := by
    change number ((((25 : ℕ) : ℤ) * 10 ^ (-((1 : ℕ) : ℤ)) : ℝ) : EReal) = _
    norm_num
  have hopen (r : ℝ) : (∃ k ∈ (Interval.open? 0 2.5 : Option (Interval Continuum)), r ∈ k.points) ↔
      0 < r ∧ r < 5 / 2 := by
    have hlo : (⟨0, false⟩ : Bound Continuum).Placed := beq_of_isFinite isFinite_zero
    have hhi : (⟨2.5, false⟩ : Bound Continuum).Placed :=
      beq_of_isFinite (Continuum.isFinite_iff.2 ⟨_, hhalves⟩)
    rw [Interval.open?, Interval.mem_ofBounds?_points hlo hhi, Bound.under_coe hzero,
      Bound.over_coe ((congrArg real hhalves).trans (real_number _))]
    simp
  obtain ⟨i, hi, -⟩ := (hopen 1).2 ⟨by norm_num, by norm_num⟩
  have hproper : i.Proper := Interval.proper_of_ofBounds? hi
  have hpoints (r : ℝ) : r ∈ i.points ↔ 0 < r ∧ r < 5 / 2 := by
    rw [← hopen r]
    refine ⟨fun hr => ⟨i, hi, hr⟩, ?_⟩
    rintro ⟨k, hk, hr⟩
    rw [Option.mem_def, hi] at hk
    exact Option.some.inj hk ▸ hr
  have hs : (ofInterval? (Interval.open? 0 2.5) : Numbers Continuum) = ⟨[i]⟩ := by
    rw [ofInterval?, hi]
    rfl
  have hmade : (⟨[i]⟩ : Numbers Continuum).Made := .ofInterval (.ofBounds hi)
  have hmem {r : ℝ} : number r ∈ (⟨[i]⟩ : Numbers Continuum) ↔ 0 < r ∧ r < 5 / 2 := by
    rw [mem_iff_exists, ← hpoints]
    simp [Interval.mem_iff_real hproper]
  have hfew : ∀ k ∈ (⟨[i]⟩ : Numbers Continuum).intervals,
      {y | ∃ x ∈ k, roundHalfUp x = y}.encard ≤ 64 := by
    intro k hk
    rw [List.mem_singleton.1 hk, encard_rounded hproper]
    have hsub : rounded '' i.points ⊆ Set.Icc 0 3 := by
      rintro _ ⟨p, hp, rfl⟩
      obtain ⟨h0, h5⟩ := (hpoints p).1 hp
      rw [rounded_eq_floor]
      exact ⟨Int.le_floor.2 (by push_cast; linarith), Int.floor_le_iff.2 (by push_cast; linarith)⟩
    calc (rounded '' i.points).encard ≤ (Set.Icc (0 : ℤ) 3).encard := Set.encard_le_encard hsub
      _ = 4 := by
        rw [← Finset.coe_Icc, Set.encard_coe_eq_coe_finsetCard]
        rfl
      _ ≤ 64 := by decide
  rw [hs]
  obtain ⟨hround, hsound, -, hexact⟩ := mem_round_iff hmade
  refine ⟨hmade, ?_, fun h => ?_⟩
  · have htwo := hsound _ (hmem.2 ⟨two_pos, by norm_num⟩)
    rw [hround, show ⌊(2 : ℝ) + 1 / 2⌋ = 2 from Int.floor_eq_iff.2 (by norm_num)] at htwo
    rw [ofNat_eq]
    exact_mod_cast htwo
  · obtain ⟨x, hx, hx3⟩ := (hexact hfew 3).1 h
    obtain ⟨r, rfl, -⟩ := (hmade.canonical sineBounded).mem_iff_real.1 hx
    rw [hround, ofNat_eq, number.injEq, EReal.coe_eq_coe_iff] at hx3
    have hr : ⌊r + 1 / 2⌋ = 3 := by exact_mod_cast hx3
    have hle := (Int.floor_eq_iff.1 hr).1
    have hlt := (hmem.1 hx).2
    push_cast at hle
    linarith

end Numbers

end ParameterSolver
