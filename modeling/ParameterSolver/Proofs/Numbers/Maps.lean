import ParameterSolver.Numbers.Arithmetic
import ParameterSolver.Proofs.Numbers.Points

/-! Operations on sets of numbers that go interval by interval, point by point: what each interval, or
each pair of intervals that is combined, contributes. Two sets with too many pairs are combined as
their hulls, which hold them. -/

namespace ParameterSolver

open Scalar Scalar.Ordered Scalar.Reading

variable {α : Type} [Scalar α] [Ordered α] [Reading α] {r p q : ℝ}

namespace Numbers

variable {i j : Interval α} {s t : Numbers α}

/-- A function that gives the images of intervals under a relation gives the image of a set. -/
theorem points_map {f : Interval α → List (Interval α)} {R : ℝ → ℝ → Prop} (hs : s.Canonical)
    (hproper : ∀ i : Interval α, i.Proper → ∀ k ∈ f i, k.Proper)
    (h : ∀ i : Interval α, i.Proper → ∀ r, (∃ k ∈ f i, r ∈ k.points) ↔ ∃ p ∈ i.points, R p r) :
    (s.map f).points = {r | ∃ p ∈ s.points, R p r} := by
  have hpieces : ∀ k ∈ s.intervals.flatMap f, k.Proper := fun k hk => by
    obtain ⟨i, hi, hk⟩ := List.mem_flatMap.1 hk
    exact hproper i (hs.proper i hi) k hk
  ext r
  rw [map, points_ofIntervals hpieces]
  constructor
  · rintro ⟨k, hk, hr⟩
    obtain ⟨i, hi, hk⟩ := List.mem_flatMap.1 hk
    obtain ⟨p, hp, hpr⟩ := (h i (hs.proper i hi) r).1 ⟨k, hk, hr⟩
    exact ⟨p, ⟨i, hi, hp⟩, hpr⟩
  · rintro ⟨p, ⟨i, hi, hp⟩, hpr⟩
    obtain ⟨k, hk, hr⟩ := (h i (hs.proper i hi) r).2 ⟨p, hp, hpr⟩
    exact ⟨k, List.mem_flatMap.2 ⟨i, hi, hk⟩, hr⟩

omit [Ordered α] [Reading α] in
theorem exists_hull (hi : i ∈ s.intervals) : ∃ h, s.hull? = some h := by
  have hne : s.intervals ≠ [] := List.ne_nil_of_mem hi
  rw [hull?, List.head?_eq_some_head hne, List.getLast?_eq_some_getLast hne]
  exact ⟨_, rfl⟩

/-- The hull holds the set: its first interval starts first and its last one stops last. -/
theorem Canonical.points_subset_hull {h : Interval α} (hs : s.Canonical) (hull : h ∈ s.hull?) :
    s.points ⊆ h.points := by
  obtain ⟨first, hfirst, hmap⟩ := Option.bind_eq_some_iff.1 hull
  obtain ⟨last, hlast, rfl⟩ := Option.map_eq_some_iff.1 hmap
  have hf := hs.proper first (List.mem_of_head? hfirst)
  have hl := hs.proper last (List.mem_of_getLast? hlast)
  have hspaced := hs.spaced
  rintro r ⟨i, hi, hr⟩
  have hstart : first.start ≤ i.start := by
    obtain ⟨rest, hrest⟩ := List.head?_eq_some_iff.1 hfirst
    rw [hrest] at hi hspaced
    rcases List.mem_cons.1 hi with rfl | hi
    · exact le_rfl
    · exact hf.start_lt_stop.le.trans ((List.pairwise_cons.1 hspaced).1 i hi).le
  have hstop : i.stop ≤ last.stop := by
    obtain ⟨init, hinit⟩ := List.getLast?_eq_some_iff.1 hlast
    rw [hinit] at hi hspaced
    rcases List.mem_append.1 hi with hi | hi
    · exact ((List.pairwise_append.1 hspaced).2.2 i hi last (List.mem_singleton.2 rfl)).le.trans
        hl.start_lt_stop.le
    · rw [List.mem_singleton.1 hi]
  rw [Interval.mem_points_iff (hs.proper i hi)] at hr
  rw [Interval.mem_points_iff (hf.hull hl), Interval.Holds, Interval.start_hull hf hl,
    Interval.stop_hull hf hl]
  exact ⟨Spot.mem_of_le hr.1 ((min_le_left _ _).trans hstart),
    fun hp => hr.2 (Spot.mem_of_le hp (hstop.trans (le_max_right _ _)))⟩

/-- The pairs of intervals that an operation combines: those of the two sets, or the two hulls. -/
def Combined (s t : Numbers α) (i j : Interval α) : Prop :=
  if s.intervals.length * t.intervals.length ≤ maxPairs then i ∈ s.intervals ∧ j ∈ t.intervals
  else i ∈ s.hull? ∧ j ∈ t.hull?

omit [Reading α] in
theorem Combined.proper (hs : s.Canonical) (ht : t.Canonical) (h : Combined s t i j) :
    i.Proper ∧ j.Proper := by
  unfold Combined at h
  split_ifs at h
  · exact ⟨hs.proper i h.1, ht.proper j h.2⟩
  · exact ⟨hs.proper_hull? h.1, ht.proper_hull? h.2⟩

/-- Every point of the one set and every point of the other are in a pair that is combined. -/
theorem exists_combined (hs : s.Canonical) (ht : t.Canonical) (hp : p ∈ s.points)
    (hq : q ∈ t.points) : ∃ i j, Combined s t i j ∧ p ∈ i.points ∧ q ∈ j.points := by
  unfold Combined
  split_ifs
  · obtain ⟨i, hi, hp⟩ := hp
    obtain ⟨j, hj, hq⟩ := hq
    exact ⟨i, j, ⟨hi, hj⟩, hp, hq⟩
  · obtain ⟨i, hi⟩ := exists_hull hp.choose_spec.1
    obtain ⟨j, hj⟩ := exists_hull hq.choose_spec.1
    exact ⟨i, j, ⟨hi, hj⟩, hs.points_subset_hull hi hp, ht.points_subset_hull hj hq⟩

theorem mem_pairwise_points {f : Interval α → Interval α → List (Interval α)}
    (hproper : ∀ i j, ∀ k ∈ f i j, k.Proper) :
    r ∈ (pairwise f s t).points ↔ ∃ i j, Combined s t i j ∧ ∃ k ∈ f i j, r ∈ k.points := by
  unfold pairwise Combined
  split_ifs
  · have hpieces : ∀ k ∈ s.intervals.flatMap fun i => t.intervals.flatMap (f i), k.Proper := by
      intro k hk
      obtain ⟨i, -, hk⟩ := List.mem_flatMap.1 hk
      obtain ⟨j, -, hk⟩ := List.mem_flatMap.1 hk
      exact hproper i j k hk
    rw [points_ofIntervals hpieces]
    constructor
    · rintro ⟨k, hk, hr⟩
      obtain ⟨i, hi, hk⟩ := List.mem_flatMap.1 hk
      obtain ⟨j, hj, hk⟩ := List.mem_flatMap.1 hk
      exact ⟨i, j, ⟨hi, hj⟩, k, hk, hr⟩
    · rintro ⟨i, j, ⟨hi, hj⟩, k, hk, hr⟩
      exact ⟨k, List.mem_flatMap.2 ⟨i, hi, List.mem_flatMap.2 ⟨j, hj, hk⟩⟩, hr⟩
  · split
    · rename_i i j hi hj
      rw [points_ofIntervals (hproper i j)]
      constructor
      · exact fun ⟨k, hk, hr⟩ => ⟨i, j, ⟨hi, hj⟩, k, hk, hr⟩
      · rintro ⟨i', j', ⟨hi', hj'⟩, hk⟩
        rw [hi] at hi'
        rw [hj] at hj'
        cases hi'
        cases hj'
        exact hk
    · rename_i hnone
      refine iff_of_false (fun ⟨k, hk, _⟩ => List.not_mem_nil hk) ?_
      rintro ⟨i, j, ⟨hi, hj⟩, -⟩
      exact hnone i j hi hj

/-- A function that gives the images of pairs of intervals gives the image of two sets, or, by the
hulls, what holds it. -/
theorem points_pairwise {f : Interval α → Interval α → List (Interval α)} {g : ℝ → ℝ → ℝ}
    (hs : s.Canonical) (ht : t.Canonical) (hproper : ∀ i j, ∀ k ∈ f i j, k.Proper)
    (h : ∀ i j : Interval α, i.Proper → j.Proper → ∀ r, (∃ k ∈ f i j, r ∈ k.points) ↔
      r ∈ Set.image2 g i.points j.points) :
    Set.image2 g s.points t.points ⊆ (pairwise f s t).points ∧
      (s.intervals.length * t.intervals.length ≤ maxPairs →
        (pairwise f s t).points = Set.image2 g s.points t.points) := by
  have hle : Set.image2 g s.points t.points ⊆ (pairwise f s t).points := by
    rintro _ ⟨p, hp, q, hq, rfl⟩
    obtain ⟨i, j, hij, hp, hq⟩ := exists_combined hs ht hp hq
    obtain ⟨hi, hj⟩ := hij.proper hs ht
    exact (mem_pairwise_points hproper).2 ⟨i, j, hij, (h i j hi hj _).2 ⟨p, hp, q, hq, rfl⟩⟩
  refine ⟨hle, fun hlen => (Set.Subset.antisymm hle fun r hr => ?_).symm⟩
  obtain ⟨i, j, hij, hk⟩ := (mem_pairwise_points hproper).1 hr
  obtain ⟨hi, hj⟩ := hij.proper hs ht
  obtain ⟨p, hp, q, hq, rfl⟩ := (h i j hi hj r).1 hk
  rw [Combined, if_pos hlen] at hij
  exact ⟨p, ⟨i, hij.1, hp⟩, q, ⟨j, hij.2, hq⟩, rfl⟩

omit [Ordered α] [Reading α] in
theorem isEmpty_ofIntervals_nil : (ofIntervals [] : Numbers α).isEmpty := by
  simp [ofIntervals, isEmpty]

omit [Ordered α] [Reading α] in
theorem isEmpty_map {f : Interval α → List (Interval α)} (h : s.isEmpty) : (s.map f).isEmpty := by
  rw [map, List.isEmpty_iff.1 h]
  exact isEmpty_ofIntervals_nil

omit [Ordered α] [Reading α] in
theorem isEmpty_pairwise {f : Interval α → Interval α → List (Interval α)}
    (h : s.isEmpty ∨ t.isEmpty) : (pairwise f s t).isEmpty := by
  rcases h with h | h
  · rw [pairwise, List.isEmpty_iff.1 h, List.length_nil, Nat.zero_mul, if_pos (Nat.zero_le _)]
    exact isEmpty_ofIntervals_nil
  · have hnil : (s.intervals.flatMap fun i => ([] : List (Interval α)).flatMap (f i)) = [] :=
      List.flatMap_eq_nil_iff.2 fun _ _ => rfl
    rw [pairwise, List.isEmpty_iff.1 h, List.length_nil, Nat.mul_zero, if_pos (Nat.zero_le _), hnil]
    exact isEmpty_ofIntervals_nil

end Numbers

end ParameterSolver
