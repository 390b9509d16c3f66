import Mathlib.Data.List.Sort
import ParameterSolver.Numbers.Basic
import ParameterSolver.Proofs.Exact.Interval

/-! Sets of exact numbers by their elements. A set in normal form lists intervals that exist, in
increasing order and with a gap after each; the set operations keep that form, and what they hold is
what their names say. -/

namespace ParameterSolver

open Exact

namespace Exact

theorem order_swap (x y : Exact) : (Scalar.order x y).swap = Scalar.order y x := by
  rcases h : Scalar.order x y with _ | _ | _
  · exact (order_eq_gt.2 (order_eq_lt.1 h)).symm
  · have h1 : ¬ y < x := fun h' => by simp [order_eq_gt.2 h'] at h
    have h2 : ¬ x < y := fun h' => by simp [order_eq_lt.2 h'] at h
    simp [Scalar.order, h1, h2]
  · exact (order_eq_lt.2 (order_eq_gt.1 h)).symm

protected theorem le_trans {x y z : Exact} (h : x ≤ y) (h' : y ≤ z) : x ≤ z := by
  cases x <;> cases y <;> cases z <;> simp_all [Exact.le_iff]
  grind

protected theorem lt_of_le_of_lt {x y z : Exact} (h : x ≤ y) (h' : y < z) : x < z := by
  cases x <;> cases y <;> cases z <;> simp_all [Exact.le_iff]
  grind

protected theorem lt_of_lt_of_le {x y z : Exact} (h : x < y) (h' : y ≤ z) : x < z := by
  cases x <;> cases y <;> cases z <;> simp_all [Exact.le_iff]
  grind

end Exact

namespace Bound

variable {a b c : Bound Exact} {q : ℚ}

theorem lowerOrder_swap (a b : Bound Exact) : (lowerOrder a b).swap = lowerOrder b a := by
  rw [lowerOrder, lowerOrder, ← order_swap a.value]
  cases Scalar.order a.value b.value with
  | lt => rfl
  | gt => rfl
  | eq => cases a.closed <;> cases b.closed <;> rfl

theorem upperOrder_swap (a b : Bound Exact) : (upperOrder a b).swap = upperOrder b a := by
  rw [upperOrder, upperOrder, ← order_swap a.value]
  cases Scalar.order a.value b.value with
  | lt => rfl
  | gt => rfl
  | eq => cases a.closed <;> cases b.closed <;> rfl

theorem lowerOrder_self (a : Bound Exact) : lowerOrder a a = .eq := by
  have h := lowerOrder_swap a a
  cases h' : lowerOrder a a <;> simp [h'] at h ⊢

theorem lowerOrder_ne_gt : lowerOrder a b ≠ .gt ↔ lowerOrder b a ≠ .lt := by
  rw [← lowerOrder_swap a b]
  cases lowerOrder a b <;> simp

theorem upperOrder_ne_lt : upperOrder a b ≠ .lt ↔ upperOrder b a ≠ .gt := by
  rw [← upperOrder_swap a b]
  cases upperOrder a b <;> simp

theorem lowerOrder_trans (ha : a.value ≠ nan) (hb : b.value ≠ nan) (hc : c.value ≠ nan)
    (h : lowerOrder a b ≠ .gt) (h' : lowerOrder b c ≠ .gt) : lowerOrder a c ≠ .gt := by
  rw [lowerOrder_ne_gt, Ne, lowerOrder_eq_lt] at *
  obtain ⟨a, d⟩ := a
  obtain ⟨b, e⟩ := b
  obtain ⟨c, f⟩ := c
  cases a <;> cases b <;> cases c <;> simp_all
  all_goals grind

end Bound

namespace Interval

variable {i j k : Interval Exact} {p q : ℚ}

/-- All of `i` lies before all of `j`, and the two do not meet. -/
def Apart (i j : Interval Exact) : Prop := i.touches j = false

theorem apart_iff (hi : i.Valid) (hj : j.Valid) : i.Apart j ↔ i.hi.value < j.lo.value ∨
    (i.hi.value = j.lo.value ∧ i.hi.closed = false ∧ j.lo.closed = false) := by
  have h1 := hi.hi_ne_nan
  have h2 := hj.lo_ne_nan
  obtain ⟨_, b, d⟩ := i
  obtain ⟨⟨a, c⟩, _⟩ := j
  simp only [Apart, touches, Scalar.order]
  cases a <;> cases b <;> simp_all
  grind

theorem Apart.lt (h : i.Apart j) (hi : i.Valid) (hj : j.Valid) (hp : i.hi.Above p)
    (hq : j.lo.Below q) : p < q := by
  rw [apart_iff hi hj] at h
  obtain ⟨_, b, d⟩ := i
  obtain ⟨⟨a, c⟩, _⟩ := j
  cases a <;> cases b <;> simp_all
  grind

/-- What starts later than `j` is apart from `i` as well. -/
theorem Apart.of_startsBefore (h : i.Apart j) (hi : i.Valid) (hj : j.Valid) (hk : k.Valid)
    (hjk : Bound.lowerOrder j.lo k.lo ≠ .gt) : i.Apart k := by
  rw [Bound.lowerOrder_ne_gt, Ne, Bound.lowerOrder_eq_lt] at hjk
  rw [apart_iff hi hj] at h
  rw [apart_iff hi hk]
  have h1 := hi.hi_ne_nan
  have h2 := hj.lo_ne_nan
  have h3 := hk.lo_ne_nan
  obtain ⟨_, b, d⟩ := i
  obtain ⟨⟨a, c⟩, _⟩ := j
  obtain ⟨⟨e, f⟩, _⟩ := k
  cases a <;> cases b <;> cases e <;> simp_all
  all_goals grind

/-- Two intervals that touch make one, if the first starts first. -/
theorem mem_hull_of_touches (hi : i.Valid) (hj : j.Valid) (h : ¬ i.Apart j)
    (hij : Bound.lowerOrder i.lo j.lo ≠ .gt) :
    finite q ∈ i.hull j ↔ finite q ∈ i ∨ finite q ∈ j := by
  refine ⟨fun hq => ?_, fun hq => hq.elim (mem_hull_left hi hj) (mem_hull_right hi hj)⟩
  rw [mem_iff, hull, Bound.below_lowest hi.lo_ne_nan hj.lo_ne_nan,
    Bound.above_highest hi.hi_ne_nan hj.hi_ne_nan] at hq
  rw [mem_iff, mem_iff]
  rw [Bound.lowerOrder_ne_gt] at hij
  have hlo : i.lo.Below q := hq.1.elim id (Bound.below_of_not_lt hj.lo_ne_nan hi.lo_ne_nan hij)
  by_cases hhi : i.hi.Above q
  · exact Or.inl ⟨hlo, hhi⟩
  · refine Or.inr ⟨?_, hq.2.resolve_left hhi⟩
    by_contra hlo'
    refine h ((apart_iff hi hj).2 ?_)
    have h1 := hi.hi_ne_nan
    have h2 := hj.lo_ne_nan
    obtain ⟨_, b, d⟩ := i
    obtain ⟨⟨a, c⟩, _⟩ := j
    cases a <;> cases b <;> simp_all
    grind

end Interval

namespace Numbers

variable {s t : Numbers Exact} {q : ℚ}

theorem mem_iff : finite q ∈ s ↔ ∃ i ∈ s.intervals, finite q ∈ i := by
  change s.contains _ = true ↔ _
  simp [contains, Interval.mem_def]

/-- Intervals as `ofIntervals` lists them. -/
structure Normal (s : Numbers Exact) : Prop where
  valid : ∀ i ∈ s.intervals, i.Valid
  apart : s.intervals.Pairwise Interval.Apart

theorem merge_valid {i : Interval Exact} {l : List (Interval Exact)} (hi : i.Valid)
    (hl : ∀ j ∈ l, j.Valid) : ∀ k ∈ merge i l, k.Valid := by
  induction l generalizing i with
  | nil => simpa [merge] using hi
  | cons j l ih =>
    have hj : j.Valid := hl j (by simp)
    have hl' : ∀ k ∈ l, k.Valid := fun k hk => hl k (by simp [hk])
    unfold merge
    split
    · exact ih (hi.hull hj) hl'
    · exact List.forall_mem_cons.2 ⟨hi, ih hj hl'⟩

theorem startsBefore_iff {i j : Interval Exact} :
    startsBefore i j = true ↔ Bound.lowerOrder i.lo j.lo ≠ .gt := by
  simp [startsBefore]

theorem hull_lo {i j : Interval Exact} (h : startsBefore i j) : (i.hull j).lo = i.lo := by
  rw [startsBefore_iff, Bound.lowerOrder_ne_gt] at h
  exact if_neg h

theorem sorted_hull {i j : Interval Exact} {l : List (Interval Exact)}
    (h : (i :: j :: l).Pairwise fun i j => startsBefore i j) :
    (i.hull j :: l).Pairwise fun i j => startsBefore i j := by
  obtain ⟨h1, h2⟩ := List.pairwise_cons.1 h
  refine List.pairwise_cons.2 ⟨fun k hk => ?_, h2.of_cons⟩
  rw [startsBefore_iff, hull_lo (h1 j (by simp)), ← startsBefore_iff]
  exact h1 k (by simp [hk])

/-- Merging does not make anything start earlier. -/
theorem startsBefore_merge {i : Interval Exact} {l : List (Interval Exact)} {b : Bound Exact}
    (hi : Bound.lowerOrder b i.lo ≠ .gt) (hl : ∀ j ∈ l, Bound.lowerOrder b j.lo ≠ .gt)
    (hs : (i :: l).Pairwise fun i j => startsBefore i j) :
    ∀ k ∈ merge i l, Bound.lowerOrder b k.lo ≠ .gt := by
  induction l generalizing i with
  | nil => simpa [merge] using hi
  | cons j l ih =>
    have hl' : ∀ k ∈ l, Bound.lowerOrder b k.lo ≠ .gt := fun k hk => hl k (by simp [hk])
    unfold merge
    split
    · have hlo : (i.hull j).lo = i.lo := hull_lo ((List.pairwise_cons.1 hs).1 j (by simp))
      exact ih (by rwa [hlo]) hl' (sorted_hull hs)
    · exact List.forall_mem_cons.2 ⟨hi, ih (hl j (by simp)) hl' hs.of_cons⟩

theorem merge_apart {i : Interval Exact} {l : List (Interval Exact)} (hi : i.Valid)
    (hl : ∀ j ∈ l, j.Valid) (hs : (i :: l).Pairwise fun i j => startsBefore i j) :
    (merge i l).Pairwise Interval.Apart := by
  induction l generalizing i with
  | nil => exact List.pairwise_singleton ..
  | cons j l ih =>
    have hj : j.Valid := hl j (by simp)
    have hl' : ∀ k ∈ l, k.Valid := fun k hk => hl k (by simp [hk])
    have h2 := hs.of_cons
    unfold merge
    split
    · exact ih (hi.hull hj) hl' (sorted_hull hs)
    · rename_i ht
      refine List.pairwise_cons.2 ⟨fun k hk => ?_, ih hj hl' h2⟩
      have ha : i.Apart j := by simpa [Interval.Apart] using ht
      refine ha.of_startsBefore hi hj (merge_valid hj hl' k hk) ?_
      refine startsBefore_merge ?_ (fun m hm => ?_) h2 k hk
      · simp [Bound.lowerOrder_self]
      · exact startsBefore_iff.1 ((List.pairwise_cons.1 h2).1 m hm)

theorem mem_merge {i : Interval Exact} {l : List (Interval Exact)} (hi : i.Valid)
    (hl : ∀ j ∈ l, j.Valid) (hs : (i :: l).Pairwise fun i j => startsBefore i j) :
    (∃ k ∈ merge i l, finite q ∈ k) ↔ finite q ∈ i ∨ ∃ k ∈ l, finite q ∈ k := by
  induction l generalizing i with
  | nil => simp [merge]
  | cons j l ih =>
    have hj : j.Valid := hl j (by simp)
    have hl' : ∀ k ∈ l, k.Valid := fun k hk => hl k (by simp [hk])
    have hij := (List.pairwise_cons.1 hs).1 j (by simp)
    unfold merge
    split
    · rename_i ht
      rw [ih (hi.hull hj) hl' (sorted_hull hs), Interval.mem_hull_of_touches hi hj
        (by simp [Interval.Apart, ht]) (startsBefore_iff.1 hij)]
      simp [or_assoc]
    · simp [ih hj hl' hs.of_cons]

/-- Sorting brings intervals into the order in which they start. Only intervals that exist are
ordered by it, so the comparison is looked at on these alone. -/
theorem sorted_mergeSort {l : List (Interval Exact)} (hl : ∀ i ∈ l, i.Valid) :
    (l.mergeSort startsBefore).Pairwise fun i j => startsBefore i j := by
  let le (a b : { i // i ∈ l }) : Bool := startsBefore a.1 b.1
  have hle : (l.attach.mergeSort le).Pairwise fun a b => le a b := by
    refine List.pairwise_mergeSort (fun a b c h h' => ?_) (fun a b => ?_) l.attach
    · exact startsBefore_iff.2 (Bound.lowerOrder_trans (hl a.1 a.2).lo_ne_nan
        (hl b.1 b.2).lo_ne_nan (hl c.1 c.2).lo_ne_nan (startsBefore_iff.1 h)
        (startsBefore_iff.1 h'))
    · simp only [le, Bool.or_eq_true, startsBefore_iff]
      rw [← Bound.lowerOrder_swap a.1.lo]
      cases Bound.lowerOrder a.1.lo b.1.lo <;> simp
  have hmap : (l.attach.mergeSort le).map Subtype.val = l.mergeSort startsBefore := by
    rw [List.map_mergeSort (s := startsBefore) (fun _ _ _ _ => rfl), List.attach_map_subtype_val]
  rw [← hmap, List.pairwise_map]
  exact hle

theorem mem_ofIntervals {l : List (Interval Exact)} (hl : ∀ i ∈ l, i.Valid) :
    finite q ∈ ofIntervals l ↔ ∃ i ∈ l, finite q ∈ i := by
  have hs := sorted_mergeSort hl
  have hm : ∀ i, i ∈ l.mergeSort startsBefore ↔ i ∈ l := fun i => List.mem_mergeSort
  rw [mem_iff, ofIntervals]
  cases h : l.mergeSort startsBefore with
  | nil => simp_all
  | cons i l' =>
    rw [h] at hs hm
    simp only [List.mem_cons] at hm
    simp only [mem_merge (hl i ((hm i).1 (by simp))) (fun j hj => hl j ((hm j).1 (by simp [hj]))) hs,
      ← hm, exists_eq_or_imp]

theorem normal_ofIntervals {l : List (Interval Exact)} (hl : ∀ i ∈ l, i.Valid) :
    (ofIntervals l).Normal := by
  have hs := sorted_mergeSort hl
  have hm : ∀ i, i ∈ l.mergeSort startsBefore → i ∈ l := fun i => List.mem_mergeSort.1
  rw [ofIntervals]
  cases h : l.mergeSort startsBefore with
  | nil => exact ⟨by simp, List.Pairwise.nil⟩
  | cons i l' =>
    rw [h] at hs hm
    have hi := hl i (hm i (by simp))
    have hl' : ∀ j ∈ l', j.Valid := fun j hj => hl j (hm j (by simp [hj]))
    exact ⟨merge_valid hi hl', merge_apart hi hl' hs⟩

theorem normal_ofInterval? {i : Option (Interval Exact)} (hi : ∀ j ∈ i, j.Valid) :
    (ofInterval? i).Normal := by
  cases i with
  | none => exact ⟨by simp [ofInterval?], List.Pairwise.nil⟩
  | some i => exact ⟨by simpa [ofInterval?] using hi, List.pairwise_singleton ..⟩

theorem mem_ofInterval? {i : Option (Interval Exact)} :
    finite q ∈ ofInterval? i ↔ ∃ j ∈ i, finite q ∈ j := by
  simp [mem_iff, ofInterval?]

theorem Normal.isEmpty_iff (hs : s.Normal) : s.isEmpty = true ↔ ∀ q : ℚ, finite q ∉ s := by
  simp only [isEmpty, mem_iff]
  cases h : s.intervals with
  | nil => simp
  | cons i l =>
    obtain ⟨q, hq⟩ := (hs.valid i (by simp [h])).exists_mem
    simp only [List.isEmpty_cons, Bool.false_eq_true, false_iff, not_forall, not_not]
    exact ⟨q, i, by simp, hq⟩

theorem Normal.union (hs : s.Normal) (ht : t.Normal) : (s.union t).Normal :=
  normal_ofIntervals (by simpa [or_imp, forall_and] using ⟨hs.valid, ht.valid⟩)

theorem mem_union (hs : s.Normal) (ht : t.Normal) :
    finite q ∈ s.union t ↔ finite q ∈ s ∨ finite q ∈ t := by
  rw [Numbers.union, mem_ofIntervals (by simpa [or_imp, forall_and] using ⟨hs.valid, ht.valid⟩)]
  simp [mem_iff, or_and_right, exists_or]

theorem overlaps_valid {l m : List (Interval Exact)} : ∀ k ∈ overlaps l m, k.Valid := by
  fun_induction overlaps l m with
  | case1 => simp
  | case2 => simp
  | case3 i l j m ih1 ih2 =>
    intro k hk
    rcases List.mem_append.1 hk with h | h
    · exact Interval.valid_of_ofBounds? (Option.mem_toList.1 h)
    · split at h
      · exact ih1 k h
      · exact ih2 k h

/-- Walking along two increasing lists meets every pair that overlaps: what is left behind stops
before the next interval of the other list starts. -/
theorem mem_overlaps {l m : List (Interval Exact)} (hl : ∀ i ∈ l, i.Valid) (hm : ∀ i ∈ m, i.Valid)
    (hl' : l.Pairwise Interval.Apart) (hm' : m.Pairwise Interval.Apart) :
    (∃ k ∈ overlaps l m, finite q ∈ k) ↔ (∃ i ∈ l, finite q ∈ i) ∧ ∃ j ∈ m, finite q ∈ j := by
  fun_induction overlaps l m with
  | case1 => simp
  | case2 => simp
  | case3 i l j m ih1 ih2 =>
    obtain ⟨hi, hl⟩ := List.forall_mem_cons.1 hl
    obtain ⟨hj, hm⟩ := List.forall_mem_cons.1 hm
    obtain ⟨hil, hl'⟩ := List.pairwise_cons.1 hl'
    obtain ⟨hjm, hm'⟩ := List.pairwise_cons.1 hm'
    have hij := Interval.mem_inter? (q := q) hi hj
    simp only [List.mem_append, Option.mem_toList, or_and_right, exists_or]
    rw [show (∃ k, i.inter? j = some k ∧ finite q ∈ k) ↔ _ from hij]
    split
    · rename_i h
      rw [ih1 hl (List.forall_mem_cons.2 ⟨hj, hm⟩) hl' (List.pairwise_cons.2 ⟨hjm, hm'⟩)]
      have hdis : ¬ (finite q ∈ i ∧ ∃ k ∈ m, finite q ∈ k) := by
        rintro ⟨hqi, k, hk, hqk⟩
        rw [Interval.mem_iff] at hqi hqk
        have ha := Bound.above_of_not_gt hi.hi_ne_nan hj.hi_ne_nan (by simp [h]) hqi.2
        exact lt_irrefl _ ((hjm k hk).lt hj (hm k hk) ha hqk.1)
      simp only [List.mem_cons, exists_eq_or_imp]
      generalize (∃ k ∈ l, finite q ∈ k) = restL, (∃ k ∈ m, finite q ∈ k) = restM at hdis ⊢
      clear * - hdis
      tauto
    · rename_i h
      rw [ih2 (List.forall_mem_cons.2 ⟨hi, hl⟩) hm (List.pairwise_cons.2 ⟨hil, hl'⟩) hm']
      have hdis : ¬ (finite q ∈ j ∧ ∃ k ∈ l, finite q ∈ k) := by
        rintro ⟨hqj, k, hk, hqk⟩
        rw [Interval.mem_iff] at hqj hqk
        have ha := Bound.above_of_not_gt hj.hi_ne_nan hi.hi_ne_nan (Bound.upperOrder_ne_lt.1 h)
          hqj.2
        exact lt_irrefl _ ((hil k hk).lt hi (hl k hk) ha hqk.1)
      simp only [List.mem_cons, exists_eq_or_imp]
      generalize (∃ k ∈ l, finite q ∈ k) = restL, (∃ k ∈ m, finite q ∈ k) = restM at hdis ⊢
      clear * - hdis
      tauto

theorem normal_inter (s t : Numbers Exact) : (s.inter t).Normal :=
  normal_ofIntervals overlaps_valid

theorem mem_inter (hs : s.Normal) (ht : t.Normal) :
    finite q ∈ s.inter t ↔ finite q ∈ s ∧ finite q ∈ t := by
  rw [inter, mem_ofIntervals overlaps_valid, mem_overlaps hs.valid ht.valid hs.apart ht.apart,
    mem_iff, mem_iff]

theorem mem_of_isSubset (hs : s.Normal) (ht : t.Normal) (h : s.isSubset t) (hq : finite q ∈ s) :
    finite q ∈ t := by
  obtain ⟨i, hi, hqi⟩ := mem_iff.1 hq
  simp only [isSubset, List.all_eq_true, List.any_eq_true] at h
  obtain ⟨j, hj, hij⟩ := h i hi
  simp only [Interval.isSubset, Bool.and_eq_true, bne_iff_ne] at hij
  have vi := hs.valid i hi
  have vj := ht.valid j hj
  rw [Interval.mem_iff] at hqi
  refine mem_iff.2 ⟨j, hj, Interval.mem_iff.2 ⟨?_, ?_⟩⟩
  · exact Bound.below_of_not_lt vi.lo_ne_nan vj.lo_ne_nan (Bound.lowerOrder_ne_gt.1 hij.1) hqi.1
  · exact Bound.above_of_not_gt vi.hi_ne_nan vj.hi_ne_nan (Bound.upperOrder_ne_lt.1 hij.2) hqi.2

theorem Normal.single (hs : s.Normal) {x : Exact} (h : s.single? = some x) :
    ∃ p : ℚ, x = finite p ∧ ∀ q : ℚ, finite q ∈ s ↔ q = p := by
  unfold single? at h
  split at h
  · rename_i i hi
    split_ifs at h with hsing
    have hv := hs.valid i (by simp [hi])
    obtain ⟨hf, -, -⟩ := Interval.valid_iff.1 hv
    simp only [mem_iff, hi, List.mem_singleton, exists_eq_left, Interval.mem_iff]
    cases h
    obtain ⟨⟨a, c⟩, ⟨b, d⟩⟩ := i
    simp only [Interval.isSingleton, beq_iff] at hsing
    obtain ⟨rfl, -⟩ := hsing
    cases a <;> simp_all [Interval.Fits]
    grind
  · cases h

theorem Normal.below_of_head (hs : s.Normal) {i : Interval Exact} (h : s.intervals.head? = some i)
    (hq : finite q ∈ s) : i.lo.Below q := by
  obtain ⟨j, hj, hqj⟩ := mem_iff.1 hq
  obtain ⟨l, hl⟩ : ∃ l, s.intervals = i :: l := by
    cases hi : s.intervals with
    | nil => simp [hi] at h
    | cons i' l => exact ⟨l, by simpa [hi] using h⟩
  have hv := hs.valid
  have ha := hs.apart
  rw [hl] at hj hv ha
  obtain ⟨hi, hv⟩ := List.forall_mem_cons.1 hv
  rcases List.mem_cons.1 hj with rfl | hj
  · exact (Interval.mem_iff.1 hqj).1
  · obtain ⟨p, hp⟩ := hi.exists_mem
    rw [Interval.mem_iff] at hp hqj
    have hlt := ((List.pairwise_cons.1 ha).1 j hj).lt hi (hv j hj) hp.2 hqj.1
    exact hp.1.mono hlt.le

theorem Normal.above_of_last (hs : s.Normal) {i : Interval Exact}
    (h : s.intervals.getLast? = some i) (hq : finite q ∈ s) : i.hi.Above q := by
  obtain ⟨j, hj, hqj⟩ := mem_iff.1 hq
  obtain ⟨l, hl⟩ := List.getLast?_eq_some_iff.1 h
  have hv := hs.valid
  have ha := hs.apart
  rw [hl] at hj hv ha
  have hi := hv i (by simp)
  rcases List.mem_append.1 hj with hj | hj
  · obtain ⟨p, hp⟩ := hi.exists_mem
    rw [Interval.mem_iff] at hp hqj
    have hlt := ((List.pairwise_append.1 ha).2.2 j hj i (by simp)).lt (hv j (by simp [hj])) hi
      hqj.2 hp.1
    exact hp.2.mono hlt.le
  · rw [List.mem_singleton.1 hj] at hqj
    exact (Interval.mem_iff.1 hqj).2

theorem Normal.mem_hull (hs : s.Normal) (hq : finite q ∈ s) :
    ∃ i ∈ s.hull?, i.Valid ∧ finite q ∈ i := by
  obtain ⟨j, hj, -⟩ := mem_iff.1 hq
  cases hf : s.intervals.head? with
  | none => simp_all
  | some f =>
    cases hl : s.intervals.getLast? with
    | none => simp_all
    | some l =>
      have vf := hs.valid f (List.mem_of_head? hf)
      have vl := hs.valid l (List.mem_of_getLast? hl)
      refine ⟨f.hull l, by simp [hull?, hf, hl], vf.hull vl, Interval.mem_iff.2 ⟨?_, ?_⟩⟩
      · exact (Bound.below_lowest vf.lo_ne_nan vl.lo_ne_nan).2 (Or.inl (hs.below_of_head hf hq))
      · exact (Bound.above_highest vf.hi_ne_nan vl.hi_ne_nan).2 (Or.inr (hs.above_of_last hl hq))

theorem Normal.min?_le (hs : s.Normal) {x : Exact} (h : s.min? = some x) (hq : finite q ∈ s) :
    x ≤ finite q := by
  obtain ⟨i, hi, rfl⟩ := Option.map_eq_some_iff.1 h
  have hv := hs.valid i (List.mem_of_head? hi)
  rcases hs.below_of_head hi hq with hlt | ⟨heq, -⟩
  · exact Or.inl hlt
  · exact Or.inr ⟨heq, hv.lo_ne_nan⟩

theorem Normal.le_max? (hs : s.Normal) {x : Exact} (h : s.max? = some x) (hq : finite q ∈ s) :
    finite q ≤ x := by
  obtain ⟨i, hi, rfl⟩ := Option.map_eq_some_iff.1 h
  rcases hs.above_of_last hi hq with hlt | ⟨heq, -⟩
  · exact Or.inl hlt
  · exact Or.inr ⟨heq.symm, by simp⟩

end Numbers

end ParameterSolver
