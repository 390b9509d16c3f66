import ParameterSolver.Proofs.Continuum.Rounding
import ParameterSolver.Proofs.Exact.Number

/-! The number of a set that is taken as the nearest one to a target. Each interval offers the target
itself if it has it and else one of its ends, and the nearest offer is taken. The offer of an interval
is its nearest point, but for one case: an interval that starts right after the target offers its far
end, since the target neither belongs to it nor lies before its start. -/

namespace ParameterSolver

open Scalar Scalar.Ordered Scalar.Reading Continuum

variable {t : ℝ}

namespace Continuum

/-- How far a point of the extended line is from a real number. -/
noncomputable def span (e : EReal) (t : ℝ) : EReal := ((e - t).abs : EReal)

theorem span_coe (r t : ℝ) : span r t = ((|r - t| : ℝ) : EReal) := by
  rw [span, ← EReal.coe_sub, EReal.coe_abs]

theorem span_nonneg (e : EReal) (t : ℝ) : 0 ≤ span e t := EReal.coe_ennreal_nonneg _

theorem span_eq_zero_iff {e : EReal} : span e t = 0 ↔ e = t := by
  induction e with
  | bot => simp [span]
  | top => simp [span]
  | coe r => rw [span_coe, EReal.coe_eq_zero, abs_eq_zero, sub_eq_zero, EReal.coe_eq_coe_iff]

theorem magnitude_number (e : EReal) : magnitude (number e) = number (e.abs : EReal) := by
  simp only [magnitude, zero_eq, number_lt_number, neg_number]
  induction e with
  | bot => simp
  | top => simp
  | coe r =>
    rw [EReal.coe_abs]
    split_ifs with h
    · rw [abs_of_neg (EReal.coe_neg'.1 h), EReal.coe_neg]
    · rw [abs_of_nonneg (EReal.coe_nonneg.1 (not_lt.1 h))]

theorem magnitude_sub (e : EReal) (t : ℝ) :
    magnitude (number e - number t) = number (span e t) := by
  have hsub : number e - number t = number (e - t) := by
    change number e + -number t = _
    rw [neg_number, number_add_number, add, if_neg (by simp), sub_eq_add_neg]
  rw [hsub, magnitude_number, span]

end Continuum

namespace Numbers

section Offers

variable {α : Type} [Scalar α] [Ordered α] {x a : α} {l : List α}

/-- Of a list of offers one is taken that no other one is nearer than. -/
theorem foldl_nearer (h : ∀ b ∈ a :: l, magnitude (b - x) == magnitude (b - x)) :
    l.foldl (nearer x) a ∈ a :: l ∧
      ∀ b ∈ a :: l, magnitude (l.foldl (nearer x) a - x) ≤ magnitude (b - x) := by
  induction l generalizing a with
  | nil =>
    have ha := h a (List.mem_singleton.2 rfl)
    refine ⟨List.mem_singleton.2 rfl, fun b hb => ?_⟩
    rw [List.mem_singleton.1 hb]
    exact le_iff.2 (Or.inr ha)
  | cons c l ih =>
    obtain ⟨ha, hcl⟩ := List.forall_mem_cons.1 h
    obtain ⟨hc, hl⟩ := List.forall_mem_cons.1 hcl
    -- the nearer one of the first two goes on
    obtain ⟨hfirst, hleft, hright⟩ : (nearer x a c = a ∨ nearer x a c = c) ∧
        magnitude (nearer x a c - x) ≤ magnitude (a - x) ∧
          magnitude (nearer x a c - x) ≤ magnitude (c - x) := by
      unfold nearer
      split_ifs with hlt
      · exact ⟨Or.inr rfl, le_iff.2 (Or.inl hlt), le_iff.2 (Or.inr hc)⟩
      · exact ⟨Or.inl rfl, le_iff.2 (Or.inr ha), le_of_not_lt ha hc hlt⟩
    have hnumber : magnitude (nearer x a c - x) == magnitude (nearer x a c - x) :=
      (numbers_of_le hleft).1
    obtain ⟨hmem, hmin⟩ := ih (List.forall_mem_cons.2 ⟨hnumber, hl⟩)
    obtain ⟨hnext, hrest⟩ := List.forall_mem_cons.1 hmin
    refine ⟨?_, List.forall_mem_cons.2 ⟨le_chain hnext hleft,
      List.forall_mem_cons.2 ⟨le_chain hnext hright, hrest⟩⟩⟩
    rw [List.foldl_cons]
    rcases List.mem_cons.1 hmem with hmem | hmem
    · rw [hmem]
      rcases hfirst with h | h <;> simp [h]
    · exact List.mem_cons_of_mem _ (List.mem_cons_of_mem _ hmem)

end Offers

end Numbers

namespace Interval

variable {α : Type} [Scalar α]

/-- An end that does not belong to the interval. -/
def IsOpenEnd (i : Interval α) (x : α) : Prop :=
  (x = i.lo.value ∧ i.lo.closed = false) ∨ (x = i.hi.value ∧ i.hi.closed = false)

/-- The interval starts right after a number that does not belong to it. -/
def StartsAfter (i : Interval α) (x : α) : Prop := i.lo.value = x ∧ i.lo.closed = false

variable {i : Interval Continuum}

theorem number_mem_iff (hi : i.Proper) {r : ℝ} : i.contains (number r) = true ↔ r ∈ i.points := by
  refine (mem_iff_real hi).trans ⟨?_, fun h => ⟨r, rfl, h⟩⟩
  rintro ⟨p, hp, hpoint⟩
  rwa [EReal.coe_injective (number.inj hp)]

/-- An interval that does not start right after the target offers its nearest point. -/
theorem exists_nearestIn_eq (hi : i.Proper) (h : ¬ i.StartsAfter (number t)) :
    ∃ c : ℝ, Numbers.nearestIn (number t) i = number c ∧
      (c ∈ i.points ∨ i.IsOpenEnd (number c)) ∧ ∀ r ∈ i.points, |c - t| ≤ |r - t| := by
  obtain ⟨hlo, hhi⟩ := hi.touches
  have hloeq := value_eq hi.lo
  have hhieq := value_eq hi.hi
  unfold Numbers.nearestIn
  split_ifs with hmem hlt
  · exact ⟨t, rfl, Or.inl ((number_mem_iff hi).1 hmem), fun r _ => by simp⟩
  · -- the target lies before the interval
    obtain ⟨c, hc⟩ : ∃ c : ℝ, real i.lo.value = c := by
      rw [hloeq, number_lt_number] at hlt
      exact ⟨_, (EReal.coe_toReal hi.lo_ne_top (bot_le.trans_lt hlt).ne').symm⟩
    rw [hc] at hloeq
    have htc : t < c := by rwa [hloeq, number_lt_number, EReal.coe_lt_coe_iff] at hlt
    refine ⟨c, hloeq, ?_, fun r hr => ?_⟩
    · by_cases hclosed : i.lo.closed
      · obtain ⟨r, hr, hrc⟩ := hlo.reached hclosed
        rw [hc, EReal.coe_eq_coe_iff] at hrc
        exact Or.inl (hrc ▸ hr)
      · exact Or.inr (Or.inl ⟨hloeq.symm, Bool.eq_false_iff.2 hclosed⟩)
    · have hcr : c ≤ r := EReal.coe_le_coe_iff.1 (hc ▸ Bound.Under.le hr.1)
      rw [abs_of_nonneg (by linarith), abs_of_nonneg (by linarith)]
      linarith
  · -- the target lies behind the interval
    have hunder : i.lo.Under t := by
      rw [hloeq, number_lt_number, not_lt] at hlt
      refine hlt.lt_or_eq.imp_right fun heq => ⟨heq.symm, by_contra fun hopen => h ⟨?_, ?_⟩⟩
      · rw [hloeq, heq]
      · exact Bool.eq_false_iff.2 hopen
    have hover : ¬ i.hi.Over t := fun hover => hmem ((number_mem_iff hi).2 ⟨hunder, hover⟩)
    have hle : real i.hi.value ≤ t := not_lt.1 fun hlt => hover (Or.inl hlt)
    obtain ⟨c, hc⟩ : ∃ c : ℝ, real i.hi.value = c :=
      ⟨_, (EReal.coe_toReal (hle.trans_lt (EReal.coe_lt_top t)).ne hi.hi_ne_bot).symm⟩
    rw [hc] at hhieq
    have hct : c ≤ t := EReal.coe_le_coe_iff.1 (hc ▸ hle)
    refine ⟨c, hhieq, ?_, fun r hr => ?_⟩
    · by_cases hclosed : i.hi.closed
      · obtain ⟨r, hr, hrc⟩ := hhi.reached hclosed
        rw [hc, EReal.coe_eq_coe_iff] at hrc
        exact Or.inl (hrc ▸ hr)
      · exact Or.inr (Or.inr ⟨hhieq.symm, Bool.eq_false_iff.2 hclosed⟩)
    · have hrc : r ≤ c := EReal.coe_le_coe_iff.1 (hc ▸ Bound.Over.le hr.2)
      rw [abs_of_nonpos (by linarith), abs_of_nonpos (by linarith)]
      linarith

/-- An interval that starts right after the target offers the end on the other side. -/
theorem nearestIn_of_startsAfter (h : i.StartsAfter (number t)) :
    Numbers.nearestIn (number t) i = i.hi.value := by
  have hmem : ¬ i.contains (number t) = true := by
    simp [contains, h.1, h.2]
  rw [Numbers.nearestIn, if_neg hmem, h.1, if_neg (by simp)]

/-- An interval that ends at the target offers the target. -/
theorem nearestIn_of_hi_eq (hi : i.Proper) (h : i.hi.value = number t) :
    Numbers.nearestIn (number t) i = number t := by
  rw [Numbers.nearestIn, h]
  split_ifs with hmem hlt
  · rfl
  · have hroom := hi.room
    rw [h] at hroom
    rcases hroom with hroom | ⟨hroom, -, -⟩
    · exact absurd hroom (Ordered.lt_asymm hlt)
    · exact (Continuum.beq_iff.1 hroom).1
  · rfl

end Interval

namespace Numbers

variable {i j : Interval Continuum} {s : Numbers Continuum}

/-- The intervals of a set share no point. -/
theorem Canonical.eq_of_mem_points (hs : s.Canonical) (hi : i ∈ s.intervals) (hj : j ∈ s.intervals)
    {r : ℝ} (hri : r ∈ i.points) (hrj : r ∈ j.points) : i = j := by
  rw [Interval.mem_points_iff (hs.proper i hi)] at hri
  rw [Interval.mem_points_iff (hs.proper j hj)] at hrj
  by_contra hne
  rcases hs.before_or_behind hi hj hne with h | h
  · exact hri.2 (Spot.mem_of_le hrj.1 h.le)
  · exact hrj.2 (Spot.mem_of_le hri.1 h.le)

/-- Between the start of an interval and what lies behind the start there are points. -/
theorem exists_point_between (hi : i.Proper) (h : i.StartsAfter (number t)) {e : EReal}
    (he : (t : EReal) < e) : ∃ r ∈ i.points, t < r ∧ (r : EReal) < e := by
  have hlo : real i.lo.value = t := by rw [h.1, real_number]
  have hroom : (t : EReal) < real i.hi.value := by
    rw [← hlo, real_lt_iff hi.lo hi.hi]
    refine hi.room.resolve_right fun hclosed => ?_
    rw [h.2] at hclosed
    exact Bool.false_ne_true hclosed.2.1
  obtain ⟨r, htr, hr⟩ := EReal.lt_iff_exists_real_btwn.1 (lt_min hroom he)
  obtain ⟨hrhi, hre⟩ := lt_min_iff.1 hr
  exact ⟨r, ⟨Or.inl (hlo.trans_lt htr), Or.inl hrhi⟩, EReal.coe_lt_coe_iff.1 htr, hre⟩

/-- Next to the start of an interval lies an interval that ends there, or none. -/
theorem Canonical.hi_eq_of_mem (hs : s.Canonical) (hi : i ∈ s.intervals)
    (h : i.StartsAfter (number t)) (hj : j ∈ s.intervals) (ht : t ∈ j.points) :
    j.hi.value = number t := by
  by_contra hne
  have hlt : (t : EReal) < real j.hi.value := by
    refine ht.2.resolve_right fun heq => hne ?_
    rw [Interval.value_eq (hs.proper j hj).hi, heq.1]
  obtain ⟨r, hr, htr, hrj⟩ := exists_point_between (hs.proper i hi) h hlt
  obtain rfl := hs.eq_of_mem_points hi hj hr ⟨Bound.Under.mono ht.1 htr.le, Or.inl hrj⟩
  rcases ht.1 with hlo | ⟨-, hclosed⟩
  · rw [h.1, real_number] at hlo
    exact lt_irrefl _ hlo
  · rw [h.2] at hclosed
    exact Bool.false_ne_true hclosed

/-- A finite number of the set, or an end of one of its intervals that does not belong to it, than
which no number of the set is nearer to the target. -/
structure IsNearest (s : Numbers Continuum) (x c : Continuum) : Prop where
  finite : Scalar.isFinite c
  inside : c ∈ s ∨ ∃ i ∈ s.intervals, i.IsOpenEnd c
  least : ∀ y ∈ s, magnitude (c - x) ≤ magnitude (y - x)

/-- One of the offers is taken, and none is nearer. -/
theorem exists_nearest?_eq (hs : ∀ i ∈ s.intervals, i.Proper) (hne : s.isEmpty = false) (t : ℝ) :
    ∃ e : EReal, s.nearest? (number t) = some (number e) ∧
      (∃ i ∈ s.intervals, nearestIn (number t) i = number e) ∧
        ∀ i ∈ s.intervals, ∀ d : EReal, nearestIn (number t) i = number d → span e t ≤ span d t := by
  have hoffer : ∀ x ∈ s.intervals.map (nearestIn (number t)), ∃ e, x = number e := by
    intro x hx
    obtain ⟨i, hi, rfl⟩ := List.mem_map.1 hx
    unfold nearestIn
    split_ifs
    · exact ⟨t, rfl⟩
    · exact ⟨_, Interval.value_eq (hs i hi).lo⟩
    · exact ⟨_, Interval.value_eq (hs i hi).hi⟩
  unfold nearest?
  rcases hl : s.intervals.map (nearestIn (number t)) with _ | ⟨a, l⟩
  · rw [isEmpty, List.map_eq_nil_iff.1 hl] at hne
    exact absurd hne (by simp)
  · rw [hl] at hoffer
    have hnumbers : ∀ b ∈ a :: l, magnitude (b - number t) == magnitude (b - number t) := by
      intro b hb
      obtain ⟨e, rfl⟩ := hoffer b hb
      rw [magnitude_sub]
      exact Continuum.beq_iff.2 ⟨rfl, number_ne_nan⟩
    obtain ⟨hmem, hmin⟩ := foldl_nearer hnumbers
    obtain ⟨e, he⟩ := hoffer _ hmem
    rw [he] at hmem hmin
    refine ⟨e, congrArg some he, ?_, fun i hi d hd => ?_⟩
    · rw [← hl] at hmem
      exact List.mem_map.1 hmem
    · have hle := hmin (number d) (by rw [← hl, ← hd]; exact List.mem_map_of_mem hi)
      rwa [magnitude_sub, magnitude_sub, ← real_le_iff (Continuum.beq_iff.2 ⟨rfl, number_ne_nan⟩)
        (Continuum.beq_iff.2 ⟨rfl, number_ne_nan⟩), real_number, real_number] at hle

/-- The offer at the end of an interval is the target. -/
theorem IsNearest.of_hi_eq (hs : s.Canonical) (hj : j ∈ s.intervals) (h : j.hi.value = number t) :
    s.IsNearest (number t) (number t) := by
  refine ⟨Continuum.isFinite_iff.2 ⟨t, rfl⟩, ?_, fun y hy => ?_⟩
  · by_cases hclosed : j.hi.closed
    · obtain ⟨r, hr, hrt⟩ := (hs.proper j hj).touches.2.reached hclosed
      rw [h, real_number, EReal.coe_eq_coe_iff] at hrt
      exact Or.inl (hs.mem_iff_real.2 ⟨r, by rw [hrt], j, hj, hr⟩)
    · exact Or.inr ⟨j, hj, Or.inr ⟨h.symm, Bool.eq_false_iff.2 hclosed⟩⟩
  · obtain ⟨r, rfl, -⟩ := hs.mem_iff_real.1 hy
    rw [magnitude_sub, magnitude_sub, span_eq_zero_iff.2 rfl, Continuum.le_iff, number_lt_number]
    exact (span_nonneg r t).lt_or_eq.imp_right fun h => ⟨congrArg number h, number_ne_nan⟩

/-- If no interval starts right after the target, the best offer is a nearest number. -/
theorem isNearest_of_not_startsAfter {e : EReal} (hs : s.Canonical)
    (hstart : ∀ i ∈ s.intervals, ¬ i.StartsAfter (number t)) (hj : j ∈ s.intervals)
    (hje : nearestIn (number t) j = number e)
    (hmin : ∀ i ∈ s.intervals, ∀ d : EReal, nearestIn (number t) i = number d → span e t ≤ span d t) :
    s.IsNearest (number t) (number e) := by
  have hoffer {i} (hi : i ∈ s.intervals) :=
    Interval.exists_nearestIn_eq (hs.proper i hi) (hstart i hi)
  obtain ⟨c, hc, hinside, -⟩ := hoffer hj
  obtain rfl : e = c := number.inj (hje.symm.trans hc)
  refine ⟨Continuum.isFinite_iff.2 ⟨c, rfl⟩, ?_, fun y hy => ?_⟩
  · exact hinside.imp (fun h => hs.mem_iff_real.2 ⟨c, rfl, j, hj, h⟩) fun h => ⟨j, hj, h⟩
  · obtain ⟨r, rfl, i, hi, hr⟩ := hs.mem_iff_real.1 hy
    obtain ⟨d, hd, -, hdr⟩ := hoffer hi
    have hle : span c t ≤ span r t := (hmin i hi d hd).trans (by
      rw [span_coe, span_coe, EReal.coe_le_coe_iff]
      exact hdr r hr)
    rw [magnitude_sub, magnitude_sub, Continuum.le_iff, number_lt_number]
    exact hle.lt_or_eq.imp_right fun h => ⟨congrArg number h, number_ne_nan⟩

/-- A target right before an interval is not offered unless an interval ends there. -/
theorem ne_of_startsAfter {e : EReal} (hs : s.Canonical) (hi : i ∈ s.intervals)
    (hstart : i.StartsAfter (number t)) (hends : ∀ j ∈ s.intervals, j.hi.value ≠ number t)
    (hj : j ∈ s.intervals) (hje : nearestIn (number t) j = number e) : e ≠ t := by
  rintro rfl
  by_cases hjstart : j.StartsAfter (number t)
  · exact hends j hj ((Interval.nearestIn_of_startsAfter hjstart).symm.trans hje)
  · obtain ⟨c, hc, hinside, -⟩ := Interval.exists_nearestIn_eq (hs.proper j hj) hjstart
    obtain rfl : t = c := EReal.coe_injective (number.inj (hje.symm.trans hc))
    rcases hinside with hpoint | ⟨hlo, hopen⟩ | ⟨hhi, -⟩
    · exact hends j hj (hs.hi_eq_of_mem hi hstart hj hpoint)
    · exact hjstart ⟨hlo.symm, hopen⟩
    · exact hends j hj hhi.symm

/-- Right after the target there are numbers as near to it as one likes. -/
theorem exists_nearer {e : EReal} (hs : s.Canonical) (hi : i ∈ s.intervals)
    (hstart : i.StartsAfter (number t)) (hne : e ≠ t) :
    ∃ y ∈ s, magnitude (y - number t) < magnitude (number e - number t) := by
  have hpos : 0 < span e t := (span_nonneg e t).lt_of_ne fun h => hne (span_eq_zero_iff.1 h.symm)
  obtain ⟨d, hd0, hd⟩ := EReal.lt_iff_exists_real_btwn.1 hpos
  have hnear : (t : EReal) < ((t + d : ℝ) : EReal) := by
    rw [EReal.coe_lt_coe_iff]
    linarith [EReal.coe_pos.1 hd0]
  obtain ⟨r, hr, htr, hrd⟩ := exists_point_between (hs.proper i hi) hstart hnear
  refine ⟨number r, hs.mem_iff_real.2 ⟨r, rfl, i, hi, hr⟩, ?_⟩
  rw [magnitude_sub, magnitude_sub, number_lt_number, span_coe]
  refine lt_trans (EReal.coe_lt_coe_iff.2 ?_) hd
  rw [abs_of_pos (by linarith)]
  linarith [EReal.coe_lt_coe_iff.1 hrd]

/-- The number taken from a set for a finite target. Unless an interval of the set starts right after
the target and none ends there, it is finite, it is in the set or an open end of one of its intervals,
and no number of the set is nearer to the target. In the remaining case some number of the set is. -/
theorem nearest?_isNearest (hs : s.Made) (hne : s.isEmpty = false) {x : Continuum}
    (hx : Scalar.isFinite x) : ∃ c, s.nearest? x = some c ∧
      ((∀ i ∈ s.intervals, i.StartsAfter x → ∃ j ∈ s.intervals, j.hi.value = x) →
        s.IsNearest x c) ∧
      (∀ i ∈ s.intervals, i.StartsAfter x → (∀ j ∈ s.intervals, j.hi.value ≠ x) →
        ∃ y ∈ s, magnitude (y - x) < magnitude (c - x)) := by
  have hs' := hs.canonical sineBounded
  obtain ⟨t, rfl⟩ := Continuum.isFinite_iff.1 hx
  obtain ⟨e, hnearest, ⟨k, hk, hke⟩, hmin⟩ := exists_nearest?_eq hs'.proper hne t
  refine ⟨number e, hnearest, fun hgood => ?_, fun i hi hstart hends => ?_⟩
  · by_cases hstart : ∃ i ∈ s.intervals, i.StartsAfter (number t)
    · -- an interval ends where another one starts
      obtain ⟨i, hi, hstart⟩ := hstart
      obtain ⟨j, hj, hhi⟩ := hgood i hi hstart
      have hle := hmin j hj t (Interval.nearestIn_of_hi_eq (hs'.proper j hj) hhi)
      rw [span_eq_zero_iff.2 rfl] at hle
      rw [span_eq_zero_iff.1 (hle.antisymm (span_nonneg e t))]
      exact .of_hi_eq hs' hj hhi
    · exact isNearest_of_not_startsAfter hs' (fun i hi h => hstart ⟨i, hi, h⟩) hk hke hmin
  · exact exists_nearer hs' hi hstart (ne_of_startsAfter hs' hi hstart hends hk hke)

/-- For the target one the numbers between one and two offer another number than their nearest. -/
theorem nearest?_isNearest_open : (ofInterval? (Interval.open? 1 2) : Numbers Continuum).Made ∧
    (ofInterval? (Interval.open? 1 2) : Numbers Continuum).isEmpty = false ∧
      Scalar.isFinite (1 : Continuum) ∧
        ∃ c, (ofInterval? (Interval.open? 1 2) : Numbers Continuum).nearest? 1 = some c ∧
          ∃ y ∈ (ofInterval? (Interval.open? 1 2) : Numbers Continuum),
            magnitude (y - 1) < magnitude (c - 1) := by
  have htwo : (2 : Continuum) = number ((2 : ℝ) : EReal) := ofNat_eq 2
  have hlo : (⟨1, false⟩ : Bound Continuum).Placed := beq_of_isFinite isFinite_one
  have hhi : (⟨2, false⟩ : Bound Continuum).Placed :=
    beq_of_isFinite (Continuum.isFinite_iff.2 ⟨_, htwo⟩)
  obtain ⟨i, hi, -⟩ : ∃ i ∈ (Interval.open? 1 2 : Option (Interval Continuum)),
      (3 / 2 : ℝ) ∈ i.points := by
    rw [Interval.open?, Interval.mem_ofBounds?_points hlo hhi,
      Bound.under_coe ((congrArg real one_eq).trans (real_number _)),
      Bound.over_coe ((congrArg real htwo).trans (real_number _))]
    norm_num
  have hs : (ofInterval? (Interval.open? 1 2) : Numbers Continuum) = ⟨[i]⟩ := by
    rw [ofInterval?, hi]
    rfl
  have hmade : (⟨[i]⟩ : Numbers Continuum).Made := .ofInterval (.ofBounds hi)
  obtain ⟨-, -, -, -, -, rfl⟩ := Interval.mem_ofBounds?_iff.1 hi
  rw [hs]
  obtain ⟨c, hc, -, hfar⟩ := nearest?_isNearest hmade rfl isFinite_one
  refine ⟨hmade, rfl, isFinite_one, c, hc, hfar _ (List.mem_singleton.2 rfl) ⟨?_, ?_⟩ ?_⟩
  · exact Bound.value_normalized _
  · rw [Bound.normalized]
    split_ifs <;> rfl
  · intro j hj
    rw [List.mem_singleton.1 hj, Bound.value_normalized, htwo, one_eq]
    simp [← EReal.coe_one]

/-- It is two, and that is not nearest. -/
theorem nearest?_open : (ofInterval? (Interval.open? 1 2) : Numbers Exact).Made ∧
    (ofInterval? (Interval.open? 1 2) : Numbers Exact).nearest? 1 = some 2 ∧
      1.5 ∈ (ofInterval? (Interval.open? 1 2) : Numbers Exact) ∧
        magnitude (1.5 - 1 : Exact) < magnitude (2 - 1) := by
  refine ⟨?_, by decide +kernel⟩
  obtain ⟨i, hi⟩ : ∃ i, Interval.open? (1 : Exact) 2 = some i :=
    Option.isSome_iff_exists.1 (by decide +kernel)
  rw [ofInterval?, hi]
  exact .ofInterval (.ofBounds hi)

end Numbers

end ParameterSolver
