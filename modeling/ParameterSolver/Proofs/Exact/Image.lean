import ParameterSolver.Numbers.Arithmetic
import ParameterSolver.Proofs.Exact.Arithmetic
import ParameterSolver.Proofs.Exact.Numbers

/-! Images of sets of exact numbers. A function that loses no value on intervals loses none on sets,
whether it is applied piece by piece or to the hulls. -/

namespace ParameterSolver.Numbers

open Exact

variable {s t : Numbers Exact} {p q r : ℚ}

theorem mem_map {f : Interval Exact → List (Interval Exact)} (hs : s.Normal)
    (hf : ∀ i, i.Valid → ∀ k ∈ f i, k.Valid)
    (hm : ∀ i, i.Valid → finite q ∈ i → ∃ k ∈ f i, finite p ∈ k) (hq : finite q ∈ s) :
    finite p ∈ s.map f := by
  obtain ⟨i, hi, hqi⟩ := mem_iff.1 hq
  obtain ⟨k, hk, hpk⟩ := hm i (hs.valid i hi) hqi
  refine (mem_ofIntervals fun k hk => ?_).2 ⟨k, List.mem_flatMap.2 ⟨i, hi, hk⟩, hpk⟩
  obtain ⟨i, hi, hk⟩ := List.mem_flatMap.1 hk
  exact hf i (hs.valid i hi) k hk

theorem normal_map {f : Interval Exact → List (Interval Exact)} (hs : s.Normal)
    (hf : ∀ i, i.Valid → ∀ k ∈ f i, k.Valid) : (s.map f).Normal := by
  refine normal_ofIntervals fun k hk => ?_
  obtain ⟨i, hi, hk⟩ := List.mem_flatMap.1 hk
  exact hf i (hs.valid i hi) k hk

theorem hull?_valid (hs : s.Normal) {i : Interval Exact} (h : s.hull? = some i) : i.Valid := by
  obtain ⟨a, ha, hi⟩ := Option.bind_eq_some_iff.1 h
  obtain ⟨b, hb, rfl⟩ := Option.map_eq_some_iff.1 hi
  exact (hs.valid a (List.mem_of_head? ha)).hull (hs.valid b (List.mem_of_getLast? hb))

theorem normal_pairwise {f : Interval Exact → Interval Exact → List (Interval Exact)}
    (hf : ∀ i j k, k ∈ f i j → k.Valid) : (pairwise f s t).Normal := by
  unfold pairwise
  split_ifs
  · refine normal_ofIntervals fun k hk => ?_
    obtain ⟨i, -, hk⟩ := List.mem_flatMap.1 hk
    obtain ⟨j, -, hk⟩ := List.mem_flatMap.1 hk
    exact hf i j k hk
  · split
    · exact normal_ofIntervals (hf _ _)
    · exact ⟨by simp [empty], List.Pairwise.nil⟩

/-- The pieces of the second set, and its hull, have to satisfy `P`. -/
theorem mem_pairwise {f : Interval Exact → Interval Exact → List (Interval Exact)}
    {P : Interval Exact → Prop} (hs : s.Normal) (ht : t.Normal)
    (hf : ∀ i j k, k ∈ f i j → k.Valid) (hP : ∀ j ∈ t.intervals, P j) (hP' : ∀ j ∈ t.hull?, P j)
    (hm : ∀ i j, i.Valid → P j → finite q ∈ i → finite r ∈ j → ∃ k ∈ f i j, finite p ∈ k)
    (hq : finite q ∈ s) (hr : finite r ∈ t) : finite p ∈ pairwise f s t := by
  unfold pairwise
  split_ifs
  · obtain ⟨i, hi, hqi⟩ := mem_iff.1 hq
    obtain ⟨j, hj, hrj⟩ := mem_iff.1 hr
    obtain ⟨k, hk, hpk⟩ := hm i j (hs.valid i hi) (hP j hj) hqi hrj
    refine (mem_ofIntervals fun k hk => ?_).2
      ⟨k, List.mem_flatMap.2 ⟨i, hi, List.mem_flatMap.2 ⟨j, hj, hk⟩⟩, hpk⟩
    obtain ⟨i, -, hk⟩ := List.mem_flatMap.1 hk
    obtain ⟨j, -, hk⟩ := List.mem_flatMap.1 hk
    exact hf i j k hk
  · obtain ⟨i, hi, vi, hqi⟩ := hs.mem_hull hq
    obtain ⟨j, hj, -, hrj⟩ := ht.mem_hull hr
    obtain ⟨k, hk, hpk⟩ := hm i j vi (hP' j hj) hqi hrj
    rw [show s.hull? = some i from hi, show t.hull? = some j from hj]
    exact (mem_ofIntervals (hf i j)).2 ⟨k, hk, hpk⟩

theorem valid_add? {i j k : Interval Exact} (h : k ∈ (i.add? j).toList) : k.Valid :=
  Interval.valid_of_ofBounds? (Option.mem_toList.1 h)

theorem valid_mul? {i j k : Interval Exact} (h : k ∈ (i.mul? j).toList) : k.Valid :=
  Interval.valid_of_ofBounds? (Option.mem_toList.1 h)

theorem normal_add : (s.add t).Normal := normal_pairwise fun _ _ _ => valid_add?

theorem mem_add (hs : s.Normal) (ht : t.Normal) (hq : finite q ∈ s) (hr : finite r ∈ t) :
    finite (q + r) ∈ s.add t := by
  refine mem_pairwise (P := Interval.Valid) hs ht (fun _ _ _ => valid_add?) ht.valid
    (fun _ => hull?_valid ht) (fun i j _ _ hqi hrj => ?_) hq hr
  obtain ⟨k, hk, hpk⟩ := Interval.mem_add? hqi hrj
  exact ⟨k, Option.mem_toList.2 hk, hpk⟩

theorem normal_mul : (s.mul t).Normal := normal_pairwise fun _ _ _ => valid_mul?

theorem mem_mul (hs : s.Normal) (ht : t.Normal) (hq : finite q ∈ s) (hr : finite r ∈ t) :
    finite (q * r) ∈ s.mul t := by
  refine mem_pairwise (P := Interval.Valid) hs ht (fun _ _ _ => valid_mul?) ht.valid
    (fun _ => hull?_valid ht) (fun i j vi vj hqi hrj => ?_) hq hr
  obtain ⟨k, hk, hpk⟩ := Interval.mem_mul? vi vj hqi hrj
  exact ⟨k, Option.mem_toList.2 hk, hpk⟩

theorem normal_neg (hs : s.Normal) : s.neg.Normal :=
  normal_map hs fun i hi k hk => by rw [List.mem_singleton.1 hk]; exact hi.neg

theorem mem_neg (hs : s.Normal) (hq : finite q ∈ s) : finite (-q) ∈ s.neg := by
  refine mem_map hs (fun i hi k hk => ?_) (fun i _ hqi => ?_) hq
  · rw [List.mem_singleton.1 hk]
    exact hi.neg
  · exact ⟨i.neg, by simp, Interval.mem_neg.2 (by rwa [neg_neg])⟩

theorem normal_invert (hs : s.Normal) : s.invert.Normal :=
  normal_map hs fun _ _ _ => Interval.valid_invert

theorem mem_invert (hs : s.Normal) (hq : finite q ∈ s) (h0 : q ≠ 0) : finite q⁻¹ ∈ s.invert :=
  mem_map hs (fun _ _ _ => Interval.valid_invert) (fun _ hi hqi => Interval.mem_invert hi hqi h0) hq

theorem normal_abs (hs : s.Normal) : s.abs.Normal :=
  normal_map hs fun i hi k hk => by rw [List.mem_singleton.1 hk]; exact hi.abs

theorem mem_abs (hs : s.Normal) (hq : finite q ∈ s) : finite |q| ∈ s.abs := by
  refine mem_map hs (fun i hi k hk => ?_) (fun i hi hqi => ?_) hq
  · rw [List.mem_singleton.1 hk]
    exact hi.abs
  · exact ⟨i.abs, by simp, Interval.mem_abs hi hqi⟩

/-! Powers. The exponents are a single integer, so the set of exponents is one closed interval and
its own hull. -/

theorem normal_pow : (s.pow t).Normal := normal_pairwise fun _ _ _ => Interval.valid_pow

theorem eq_of_single {i : Interval Exact} (hi : i.Valid) (h : i.isSingleton) (hq : finite q ∈ i) :
    i = ⟨⟨finite q, true⟩, ⟨finite q, true⟩⟩ := by
  obtain ⟨hl, hh⟩ := Interval.mem_iff.1 hq
  obtain ⟨hf, -, -⟩ := Interval.valid_iff.1 hi
  obtain ⟨⟨a, c⟩, ⟨b, d⟩⟩ := i
  simp only [Interval.isSingleton, beq_iff] at h
  obtain ⟨rfl, -⟩ := h
  cases a <;> simp_all [Interval.Fits]
  grind

theorem Normal.intervals_of_single (ht : t.Normal) (h : t.isSingleton) (hr : finite r ∈ t) :
    t.intervals = [⟨⟨finite r, true⟩, ⟨finite r, true⟩⟩] := by
  obtain ⟨i, hi, hri⟩ := mem_iff.1 hr
  unfold isSingleton single? at h
  split at h
  · rename_i j hj
    rw [hj, List.mem_singleton] at hi
    subst hi
    rw [hj, eq_of_single (ht.valid i (by simp [hj])) (by simpa using h) hri]
  · simp at h

theorem mem_pow {n : ℤ} (hs : s.Normal) (ht : t.Normal) (h : t.isSingleton)
    (hq : finite q ∈ s) (hr : finite n ∈ t) (h0 : q ≠ 0 ∨ 0 ≤ n)
    (hn : n.natAbs < 2147483647 ∨ 0 ≤ q) : finite (q ^ n) ∈ s.pow t := by
  have hi := ht.intervals_of_single h hr
  refine mem_pairwise (P := (· = ⟨⟨finite n, true⟩, ⟨finite n, true⟩⟩)) hs ht
    (fun _ _ _ => Interval.valid_pow) (by simp [hi]) ?_ (fun i j vi hj hqi _ => ?_) hq hr
  · simp [hull?, hi, Interval.hull, Bound.lowest, Bound.highest]
  · rw [hj]
    exact Interval.mem_pow vi hqi h0 hn

/-! Rounding. -/

theorem valid_roundInterval {i k : Interval Exact} (h : k ∈ roundInterval i) : k.Valid := by
  unfold roundInterval at h
  split at h
  · simp at h
  · split at h
    · obtain ⟨n, -, hk⟩ := List.mem_filterMap.1 h
      exact Interval.valid_of_ofBounds? hk
    · exact Interval.valid_of_ofBounds? (Option.mem_toList.1 h)

theorem mem_singleton? {x : ℚ} :
    (∃ k ∈ Interval.singleton? (finite x), finite q ∈ k) ↔ q = x := by
  rw [Interval.singleton?, Interval.closed?, Interval.mem_ofBounds?]
  simp only [Bound.below_finite, Bound.above_finite, and_true]
  exact ⟨fun ⟨h, h'⟩ => by grind, fun h => by grind⟩

theorem mem_roundInterval {i : Interval Exact} (hi : i.Valid) (hq : finite q ∈ i) :
    ∃ k ∈ roundInterval i, finite (Interval.nearest q : ℤ) ∈ k := by
  obtain ⟨a, b, hab, ha, hb⟩ := Interval.roundRange?_bounds hi hq
  unfold roundInterval
  rw [hab]
  dsimp only
  split_ifs with h
  · simp only [Bool.and_eq_true, isFinite_iff] at h
    obtain ⟨m, rfl, hm⟩ := ha.resolve_left (by rintro rfl; simp at h)
    obtain ⟨n, rfl, hn⟩ := hb.resolve_left (by rintro rfl; simp at h)
    have hd : Scalar.toInt? (finite (n : ℚ) - finite (m : ℚ)) = some (n - m) := by
      rw [finite_sub_finite, ← Int.cast_sub, Interval.toInt?_intCast]
    obtain ⟨k, hk, hqk⟩ := mem_singleton?.2 (rfl : ((Interval.nearest q : ℤ) : ℚ) = _)
    refine ⟨k, List.mem_filterMap.2 ⟨(Interval.nearest q - m).toNat, ?_, ?_⟩, hqk⟩
    · rw [hd, List.mem_range, Option.getD_some]
      omega
    · have he : Scalar.ofDecimal (((Interval.nearest q - m).toNat : ℕ) : ℤ) 0
          = finite ((Interval.nearest q : ℚ) - m) := by
        change finite _ = _
        rw [Int.toNat_of_nonneg (by omega)]
        simp
      rw [he, finite_add_finite, add_sub_cancel]
      exact hk
  · simp only [Option.mem_toList]
    refine Interval.mem_ofBounds?.2 ⟨?_, ?_⟩
    · rcases ha with rfl | ⟨m, rfl, hm⟩
      · simp
      · rw [Bound.below_finite]
        rcases eq_or_lt_of_le hm with rfl | hlt
        · exact Or.inr ⟨rfl, rfl⟩
        · exact Or.inl (by exact_mod_cast hlt)
    · rcases hb with rfl | ⟨m, rfl, hm⟩
      · simp
      · rw [Bound.above_finite]
        rcases eq_or_lt_of_le hm with rfl | hlt
        · exact Or.inr ⟨rfl, rfl⟩
        · exact Or.inl (by exact_mod_cast hlt)

theorem normal_round (hs : s.Normal) : s.round.Normal :=
  normal_map hs fun _ _ _ => valid_roundInterval

theorem mem_round (hs : s.Normal) (hq : finite q ∈ s) :
    finite (Interval.nearest q : ℤ) ∈ s.round :=
  mem_map hs (fun _ _ _ => valid_roundInterval) (fun _ => mem_roundInterval) hq

/-! Sets given by their ends. -/

theorem mem_closed {x y : Exact} (hx : x ≤ finite q) (hy : finite q ≤ y) :
    finite q ∈ closed x y := by
  rw [closed, mem_ofInterval?, Interval.closed?, Interval.mem_ofBounds?]
  refine ⟨hx.imp id fun h => ⟨h.1, rfl⟩, hy.imp id fun h => ⟨h.1.symm, rfl⟩⟩

theorem normal_closed (x y : Exact) : (closed x y).Normal :=
  normal_ofInterval? fun _ => Interval.valid_of_ofBounds?

theorem mem_singleton {x : ℚ} : finite q ∈ singleton (finite x) ↔ q = x := by
  rw [singleton, mem_ofInterval?, mem_singleton?]

theorem normal_singleton (x : Exact) : (singleton x).Normal :=
  normal_ofInterval? fun _ => Interval.valid_of_ofBounds?

theorem mem_atLeast {x : Exact} : finite q ∈ atLeast x ↔ x ≤ finite q := by
  rw [atLeast, mem_ofInterval?, Interval.atLeast?, Interval.mem_ofBounds?]
  cases x <;> simp [Exact.le_iff]

theorem normal_atLeast (x : Exact) : (atLeast x).Normal :=
  normal_ofInterval? fun _ => Interval.valid_of_ofBounds?

theorem mem_atMost {x : Exact} : finite q ∈ atMost x ↔ finite q ≤ x := by
  rw [atMost, mem_ofInterval?, Interval.atMost?, Interval.mem_ofBounds?]
  cases x <;> simp [Exact.le_iff, eq_comm]

theorem normal_atMost (x : Exact) : (atMost x).Normal :=
  normal_ofInterval? fun _ => Interval.valid_of_ofBounds?

theorem normal_unbounded : (unbounded : Numbers Exact).Normal := by
  refine ⟨fun i hi => ?_, List.pairwise_singleton ..⟩
  rw [List.mem_singleton.1 hi]
  rfl

theorem mem_unbounded (q : ℚ) : finite q ∈ (unbounded : Numbers Exact) := by
  simp [mem_iff, unbounded, Interval.unbounded, Interval.mem_iff]

theorem normal_scale (hs : s.Normal) (x : Exact) : (s.scale x).Normal := by
  unfold scale
  split
  · exact hs
  · refine normal_ofIntervals fun k hk => ?_
    obtain ⟨i, -, hk⟩ := List.mem_filterMap.1 hk
    exact Interval.valid_of_ofBounds? hk

end ParameterSolver.Numbers
