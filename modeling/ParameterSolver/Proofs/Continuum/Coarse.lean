import ParameterSolver.Proofs.Continuum.Rounding
import ParameterSolver.Proofs.Numbers.Exactness

/-! Sets that are combined with a single number. A set with too many intervals takes part as its hull:
the product with minus one and the power to minus one are the negatives and the inverses of the set or,
if it has too many intervals, of its hull. -/

namespace ParameterSolver

open Scalar Scalar.Ordered Scalar.Reading Continuum

variable {α : Type} [Scalar α] {r : ℝ}

namespace Interval

theorem hull_self (i : Interval α) : i.hull i = i := by
  simp [hull, Bound.lowest, Bound.highest]

end Interval

namespace Numbers

section Coarse

variable {s t : Numbers α} {i h : Interval α} {l : List (Interval α)}

/-- The set, or its hull if it has too many intervals to be combined one by one. -/
def coarse (s : Numbers α) : Numbers α :=
  if s.intervals.length ≤ maxPairs then s else ofInterval? s.hull?

omit [Scalar α] in
theorem length_ofInterval?_le {i : Option (Interval α)} : (ofInterval? i).intervals.length ≤ 1 := by
  cases i <;> simp [ofInterval?]

theorem coarse_of_few (h : s.intervals.length ≤ maxPairs) : s.coarse = s := if_pos h

theorem length_coarse_le (s : Numbers α) : s.coarse.intervals.length ≤ maxPairs := by
  unfold coarse
  split_ifs with h
  · exact h
  · exact length_ofInterval?_le.trans (by decide)

/-- A set is combined with one interval by a map of the set, made coarse. -/
theorem pairwise_single (f : Interval α → Interval α → List (Interval α)) (s : Numbers α)
    (j : Interval α) : pairwise f s ⟨[j]⟩ = s.coarse.map fun i => f i j := by
  have hhull : (⟨[j]⟩ : Numbers α).hull? = some j := congrArg some (Interval.hull_self j)
  unfold pairwise coarse map
  rw [List.length_singleton, Nat.mul_one]
  split_ifs
  · simp
  · rw [hhull]
    cases s.hull? <;> simp [ofInterval?, ofIntervals, empty]

theorem mul_of_isEmpty (h : t.isEmpty) : s.mul t = t := by
  obtain ⟨l⟩ := t
  obtain rfl : l = [] := List.isEmpty_iff.1 h
  have hnone : s.intervals.flatMap (fun _ => ([] : List (Interval α))) = [] := by simp
  simp [mul, pairwise, hnone, ofIntervals]

theorem length_merge_le (i : Interval α) : (merge i l).length ≤ l.length + 1 := by
  induction l generalizing i with
  | nil => simp [merge]
  | cons j l ih =>
    unfold merge
    split
    · exact (ih _).trans (by simp)
    · simpa using ih j

/-- Joining intervals does not make more of them. -/
theorem length_ofIntervals_le : (ofIntervals l).intervals.length ≤ l.length := by
  have hsorted : (l.mergeSort startsBefore).length = l.length := List.length_mergeSort l
  rw [← hsorted]
  unfold ofIntervals
  cases l.mergeSort startsBefore with
  | nil => simp
  | cons i l => simpa using length_merge_le i

variable [Ordered α] [Reading α]

omit [Reading α] in
theorem Canonical.coarse (hs : s.Canonical) : s.coarse.Canonical := by
  unfold Numbers.coarse
  split_ifs
  · exact hs
  · exact canonical_ofInterval? fun _ => hs.proper_hull?

/-- The hull holds what lies between elements. -/
theorem mem_hull_points (hs : s.Canonical) (hull : h ∈ s.hull?) :
    r ∈ h.points ↔ ∃ p ∈ s.points, ∃ q ∈ s.points, p ≤ r ∧ r ≤ q := by
  constructor
  · obtain ⟨first, hfirst, hmap⟩ := Option.bind_eq_some_iff.1 hull
    obtain ⟨last, hlast, rfl⟩ := Option.map_eq_some_iff.1 hmap
    have hfirst := List.mem_of_head? hfirst
    have hlast := List.mem_of_getLast? hlast
    have hf := hs.proper first hfirst
    have hl := hs.proper last hlast
    rintro ⟨hlo, hhi⟩
    obtain ⟨p, hp, hpr⟩ : ∃ p ∈ s.points, p ≤ r := by
      rcases (Bound.under_lowest hf.lo hl.lo).1 hlo with h | h
      · obtain ⟨p, hp, hpr⟩ := hf.touches.1.exists_le h
        exact ⟨p, ⟨first, hfirst, hp⟩, hpr⟩
      · obtain ⟨p, hp, hpr⟩ := hl.touches.1.exists_le h
        exact ⟨p, ⟨last, hlast, hp⟩, hpr⟩
    obtain ⟨q, hq, hrq⟩ : ∃ q ∈ s.points, r ≤ q := by
      rcases (Bound.over_highest hf.hi hl.hi).1 hhi with h | h
      · obtain ⟨q, hq, hrq⟩ := hf.touches.2.exists_ge h
        exact ⟨q, ⟨first, hfirst, hq⟩, hrq⟩
      · obtain ⟨q, hq, hrq⟩ := hl.touches.2.exists_ge h
        exact ⟨q, ⟨last, hlast, hq⟩, hrq⟩
    exact ⟨p, hp, q, hq, hpr, hrq⟩
  · rintro ⟨p, hp, q, hq, hpr, hrq⟩
    have hsub := hs.points_subset_hull hull
    exact h.ordConnected_points.out (hsub hp) (hsub hq) ⟨hpr, hrq⟩

theorem mem_coarse_points (hs : s.Canonical) (hmany : maxPairs < s.intervals.length) :
    r ∈ s.coarse.points ↔ ∃ p ∈ s.points, ∃ q ∈ s.points, p ≤ r ∧ r ≤ q := by
  obtain ⟨i, hi⟩ := List.exists_mem_of_length_pos (Nat.zero_lt_of_lt hmany)
  obtain ⟨h, hull⟩ := exists_hull hi
  rw [← mem_hull_points hs hull, Numbers.coarse, if_neg hmany.not_ge, hull]
  simp [ofInterval?, points]

omit [Ordered α] [Reading α] in
theorem isEmpty_coarse (hs : s.isEmpty = false) : s.coarse.isEmpty = false := by
  unfold Numbers.coarse
  split_ifs
  · exact hs
  · obtain ⟨i, hi⟩ := List.exists_mem_of_ne_nil s.intervals (by simpa [isEmpty] using hs)
    obtain ⟨h, hull⟩ := exists_hull hi
    rw [hull]
    rfl

end Coarse

section Exact

variable {s t : Numbers Continuum}

theorem nonempty_points_iff (hs : s.Canonical) : s.points.Nonempty ↔ s.isEmpty = false := by
  rw [Set.nonempty_iff_ne_empty, Ne, ← isEmpty_iff_points hs, Bool.not_eq_true]

theorem length_neg (hs : s.Canonical) : s.neg.intervals.length = s.intervals.length := by
  have hle (s : Numbers Continuum) : s.neg.intervals.length ≤ s.intervals.length := by
    refine length_ofIntervals_le.trans ?_
    simp
  have hneg : s.neg.neg = s := hs.neg.neg.ext hs (by
    rw [points_neg hs.neg, points_neg hs]
    ext r
    simp)
  refine (hle s).antisymm ?_
  calc s.intervals.length = s.neg.neg.intervals.length := by rw [hneg]
    _ ≤ s.neg.intervals.length := hle _

/-- There are at least as many intervals as elements with gaps between them. -/
theorem card_le_length {S : Finset ℝ} (hS : ∀ r ∈ S, r ∈ s.points)
    (hgap : ∀ a ∈ S, ∀ b ∈ S, a < b → ∃ c ∉ s.points, a ≤ c ∧ c ≤ b) :
    S.card ≤ s.intervals.length := by
  classical
  have : Nonempty (Interval Continuum) := ⟨.unbounded⟩
  choose! f hf hmem using hS
  have happart : ∀ a ∈ S, ∀ b ∈ S, f a = f b → ¬ a < b := by
    intro a ha b hb hfab hlt
    obtain ⟨c, hc, hac, hcb⟩ := hgap a ha b hb hlt
    have hb' : b ∈ (f a).points := hfab ▸ hmem b hb
    exact hc ⟨f a, hf a ha, (f a).ordConnected_points.out (hmem a ha) hb' ⟨hac, hcb⟩⟩
  have hinj : Set.InjOn f (S : Set ℝ) := by
    intro a ha b hb hfab
    exact le_antisymm (not_lt.1 (happart b hb a ha hfab.symm)) (not_lt.1 (happart a ha b hb hfab))
  calc S.card ≤ s.intervals.toFinset.card :=
        Finset.card_le_card_of_injOn f (fun r hr => List.mem_toFinset.2 (hf r hr)) hinj
    _ ≤ s.intervals.length := s.intervals.toFinset_card_le

theorem mem_closed_points {m n : ℤ} :
    r ∈ (closed (ofDecimal m 0) (ofDecimal n 0) : Numbers Continuum).points ↔ (m : ℝ) ≤ r ∧ r ≤ n := by
  have hvalue (m : ℤ) : (ofDecimal m 0 : Continuum) = number ((m : ℝ) : EReal) := by
    change number (((m : ℝ) * 10 ^ (0 : ℤ) : ℝ) : EReal) = _
    simp
  have hclosed := mem_closed?_points (r := r) (a := (m : ℝ)) (b := (n : ℝ))
  rw [EReal.coe_le_coe_iff, EReal.coe_le_coe_iff] at hclosed
  rw [hvalue, hvalue, ← hclosed, closed, ofInterval?, points]
  simp

theorem isEmpty_neg (hs : s.Canonical) (h : s.isEmpty = false) : s.neg.isEmpty = false := by
  obtain ⟨p, hp⟩ := (nonempty_points_iff hs).2 h
  exact (nonempty_points_iff hs.neg).1 ⟨-p, by rw [points_neg hs]; exact ⟨p, hp, rfl⟩⟩

theorem isEmpty_round (hs : s.Canonical) (h : s.isEmpty = false) : s.round.isEmpty = false := by
  obtain ⟨p, i, hi, hp⟩ := (nonempty_points_iff hs).2 h
  obtain ⟨k, hk, hr⟩ := (roundInterval_points (hs.proper i hi)).1 p hp
  exact (nonempty_points_iff hs.round).1 ⟨_, mem_round_points.2 ⟨i, hi, k, hk, hr⟩⟩

theorem points_round (hs : s.Canonical)
    (hfew : ∀ i ∈ s.intervals, (rounded '' i.points).encard ≤ 64) :
    s.round.points = {r | ∃ p ∈ s.points, (rounded p : ℝ) = r} := by
  ext r
  rw [mem_round_points]
  constructor
  · rintro ⟨i, hi, hk⟩
    obtain ⟨p, hp, hpr⟩ := (roundInterval_points (hs.proper i hi)).2 (hfew i hi) r hk
    exact ⟨p, ⟨i, hi, hp⟩, hpr⟩
  · rintro ⟨p, ⟨i, hi, hp⟩, rfl⟩
    exact ⟨i, hi, (roundInterval_points (hs.proper i hi)).1 p hp⟩

theorem isEmpty_add (hs : s.Canonical) (ht : t.Canonical) (h : s.isEmpty = false)
    (h' : t.isEmpty = false) : (s.add t).isEmpty = false := by
  obtain ⟨p, hp⟩ := (nonempty_points_iff hs).2 h
  obtain ⟨q, hq⟩ := (nonempty_points_iff ht).2 h'
  exact (nonempty_points_iff canonical_add).1 ⟨p + q, (points_add hs ht).1 ⟨p, hp, q, hq, rfl⟩⟩

theorem canonical_foldl_add {l : List (Numbers Continuum)} (hs : s.Canonical) :
    (l.foldl add s).Canonical := by
  induction l generalizing s with
  | nil => exact hs
  | cons t l ih => exact ih canonical_add

theorem neg_coarse (hs : s.Canonical) : s.neg.coarse = s.coarse.neg := by
  by_cases hfew : s.intervals.length ≤ maxPairs
  · rw [coarse_of_few hfew, coarse_of_few (by rwa [length_neg hs])]
  · have hmany := not_le.1 hfew
    refine hs.neg.coarse.ext hs.coarse.neg ?_
    ext r
    rw [mem_coarse_points hs.neg (by rwa [length_neg hs]), points_neg hs.coarse, points_neg hs]
    constructor
    · rintro ⟨_, ⟨p, hp, rfl⟩, _, ⟨q, hq, rfl⟩, hpr, hrq⟩
      exact ⟨-r, (mem_coarse_points hs hmany).2 ⟨q, hq, p, hp, by linarith, by linarith⟩, neg_neg r⟩
    · rintro ⟨r, hr, rfl⟩
      obtain ⟨p, hp, q, hq, hpr, hrq⟩ := (mem_coarse_points hs hmany).1 hr
      exact ⟨-q, ⟨q, hq, rfl⟩, -p, ⟨p, hp, rfl⟩, neg_le_neg hrq, neg_le_neg hpr⟩

theorem exists_singleton (x : ℝ) : ∃ j, (singleton (number x) : Numbers Continuum) = ⟨[j]⟩ ∧
    j.Proper ∧ j.points = {x} := by
  have hmem (r : ℝ) : (∃ k ∈ (Interval.singleton? (number x) : Option (Interval Continuum)),
      r ∈ k.points) ↔ x = r := by
    rw [Interval.singleton?, mem_closed?_points, EReal.coe_le_coe_iff, EReal.coe_le_coe_iff,
      le_antisymm_iff]
  obtain ⟨j, hj, hx⟩ := (hmem x).2 rfl
  refine ⟨j, by rw [singleton, hj]; rfl, Interval.proper_of_ofBounds? hj, ?_⟩
  ext r
  rw [Set.mem_singleton_iff, eq_comm, ← hmem r]
  constructor
  · exact fun hr => ⟨j, hj, hr⟩
  · rintro ⟨k, hk, hr⟩
    rwa [← Option.some.inj (hj.symm.trans hk)] at hr

/-- A sum with a single number is that of the set, made coarse. -/
theorem coarse_add_singleton {c : Continuum} (hc : isFinite c) :
    s.coarse.add (singleton c) = s.add (singleton c) := by
  obtain ⟨x, rfl⟩ := Continuum.isFinite_iff.1 hc
  obtain ⟨j, hj, -⟩ := exists_singleton x
  rw [hj, add, add, pairwise_single, pairwise_single, coarse_of_few (length_coarse_le s)]

theorem neg_one_eq : (-1 : Continuum) = number ((-1 : ℝ) : EReal) := by
  rw [one_eq, neg_number, EReal.coe_neg, EReal.coe_one]

/-- The product with minus one. -/
theorem mul_neg_one (hs : s.Canonical) : s.mul (singleton (-1)) = s.coarse.neg := by
  obtain ⟨j, hj, hproper, hpoints⟩ := exists_singleton (-1)
  have hpieces : ∀ i : Interval Continuum, i.Proper → ∀ k ∈ (i.mul? j).toList, k.Proper :=
    fun _ _ _ hk => Interval.proper_of_ofBounds? (Option.mem_toList.1 hk)
  rw [neg_one_eq, hj, mul, pairwise_single]
  refine (canonical_map hs.coarse hpieces).ext hs.coarse.neg ?_
  rw [points_neg hs.coarse]
  refine points_map hs.coarse hpieces fun i hi r => ?_
  simp only [Option.mem_toList]
  refine (Interval.mem_mul?_points hi hproper).trans ?_
  rw [hpoints]
  simp [neg_eq_iff_eq_neg]

/-- The power to minus one. -/
theorem pow_neg_one (hs : s.Canonical) : s.pow (singleton (-1)) = s.coarse.invert := by
  obtain ⟨j, hj, hproper, hpoints⟩ := exists_singleton (-1)
  have hint : j.integer? = some (-1) :=
    (Interval.integer?_eq_some_iff hproper).2 ⟨by rw [hpoints]; simp, by decide⟩
  rw [neg_one_eq, hj, pow, pairwise_single]
  refine (canonical_map hs.coarse fun _ _ _ => Interval.proper_of_pow).ext hs.coarse.invert ?_
  rw [points_invert hs.coarse]
  refine points_map hs.coarse (fun _ _ _ => Interval.proper_of_pow) fun i hi r => ?_
  simp only [Interval.pow, hint]
  rw [Interval.mem_powInt_points hi]
  simp

end Exact

end Numbers

end ParameterSolver
