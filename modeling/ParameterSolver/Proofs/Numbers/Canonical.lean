import ParameterSolver.Numbers.Arithmetic
import ParameterSolver.Proofs.Numbers.Cut

/-! The normal form of sets of numbers, and what the set operations hold. A set in normal form
lists proper intervals in increasing order with a gap after each; every set that can be made is in
that form, and what it holds, spot by spot and so number by number, follows set algebra. -/

namespace ParameterSolver

open Scalar Scalar.Ordered

variable {α : Type} [Scalar α] [Ordered α] {x : α}

namespace Numbers

variable {i j : Interval α} {l m : List (Interval α)} {s t : Numbers α} {p : Spot α}

/-- The intervals stop one after the other, each before the next one starts. -/
def Spaced (l : List (Interval α)) : Prop := l.Pairwise fun i j => i.stop < j.start

omit [Ordered α] in
theorem mem_iff_exists : x ∈ s ↔ ∃ i ∈ s.intervals, x ∈ i := by
  change s.contains x = true ↔ _
  simp only [contains, List.any_eq_true]
  rfl

/-- The spot lies in the set. -/
def Holds (s : Numbers α) (p : Spot α) : Prop := ∃ i ∈ s.intervals, i.Holds p

theorem mem_iff_holds (hs : ∀ i ∈ s.intervals, i.Proper) (hx : Scalar.isFinite x) :
    x ∈ s ↔ s.Holds (.ofNumber hx) := by
  rw [mem_iff_exists]
  exact exists_congr fun i => and_congr_right fun hi => Interval.mem_iff_holds (hs i hi) hx

theorem startsBefore_iff_start (hi : i.Proper) (hj : j.Proper) :
    startsBefore i j ↔ i.start ≤ j.start := by
  simp [startsBefore, Bound.lowerOrder_eq hi.lo hj.lo, Interval.start, compare_gt_iff_gt]

/-- The intervals start one after the other. -/
def Started (l : List (Interval α)) : Prop := l.Pairwise fun i j => i.start ≤ j.start

theorem start_hull_of_le (hi : i.Proper) (hj : j.Proper) (h : i.start ≤ j.start) :
    (i.hull j).start = i.start := by
  rw [Interval.start_hull hi hj, min_eq_left h]

theorem started_hull (hi : i.Proper) (hj : j.Proper) (h : Started (i :: j :: l)) :
    Started (i.hull j :: l) := by
  obtain ⟨hij, h'⟩ := List.pairwise_cons.1 h
  refine List.pairwise_cons.2 ⟨fun k hk => ?_, h'.of_cons⟩
  rw [start_hull_of_le hi hj (hij j (List.mem_cons_self ..))]
  exact hij k (List.mem_cons_of_mem _ hk)

theorem proper_merge (hi : i.Proper) (hl : ∀ j ∈ l, j.Proper) : ∀ k ∈ merge i l, k.Proper := by
  induction l generalizing i with
  | nil => simpa [merge] using hi
  | cons j l ih =>
    obtain ⟨hj, hl⟩ := List.forall_mem_cons.1 hl
    unfold merge
    split
    · exact ih (hi.hull hj) hl
    · exact List.forall_mem_cons.2 ⟨hi, ih hj hl⟩

/-- Merging does not make anything start earlier. -/
theorem le_start_merge {c : Cut α} (hi : i.Proper) (hl : ∀ j ∈ l, j.Proper) (hc : c ≤ i.start)
    (hs : Started (i :: l)) : ∀ k ∈ merge i l, c ≤ k.start := by
  induction l generalizing i with
  | nil => simpa [merge] using hc
  | cons j l ih =>
    obtain ⟨hj, hl⟩ := List.forall_mem_cons.1 hl
    have hle := (List.pairwise_cons.1 hs).1 j (List.mem_cons_self ..)
    unfold merge
    split
    · exact ih (hi.hull hj) hl (start_hull_of_le hi hj hle ▸ hc) (started_hull hi hj hs)
    · exact List.forall_mem_cons.2 ⟨hc, ih hj hl (hc.trans hle) hs.of_cons⟩

theorem spaced_merge (hi : i.Proper) (hl : ∀ j ∈ l, j.Proper)
    (hs : Started (i :: l)) : Spaced (merge i l) := by
  induction l generalizing i with
  | nil => exact List.pairwise_singleton ..
  | cons j l ih =>
    obtain ⟨hj, hl⟩ := List.forall_mem_cons.1 hl
    unfold merge
    split
    · exact ih (hi.hull hj) hl (started_hull hi hj hs)
    · rename_i htouch
      rw [Interval.touches_iff hi hj, not_le] at htouch
      refine List.pairwise_cons.2 ⟨fun k hk => ?_, ih hj hl hs.of_cons⟩
      exact htouch.trans_le (le_start_merge hj hl le_rfl hs.of_cons k hk)

/-- Two intervals that touch make one, if the first starts first. -/
theorem holds_hull_iff (hi : i.Proper) (hj : j.Proper) (hle : i.start ≤ j.start)
    (htouch : j.start ≤ i.stop) : (i.hull j).Holds p ↔ i.Holds p ∨ j.Holds p := by
  rw [Interval.Holds, start_hull_of_le hi hj hle, Interval.stop_hull hi hj, p.max_mem_iff, not_and_or]
  constructor
  · rintro ⟨h, h' | h'⟩
    · exact Or.inl ⟨h, h'⟩
    · by_cases h'' : i.stop ∈ p.passed
      · exact Or.inr ⟨p.mem_of_le h'' htouch, h'⟩
      · exact Or.inl ⟨h, h''⟩
  · rintro (⟨h, h'⟩ | ⟨h, h'⟩)
    · exact ⟨h, Or.inl h'⟩
    · exact ⟨p.mem_of_le h hle, Or.inr h'⟩

theorem exists_holds_merge_iff (hi : i.Proper) (hl : ∀ j ∈ l, j.Proper) (hs : Started (i :: l)) :
    (∃ k ∈ merge i l, k.Holds p) ↔ i.Holds p ∨ ∃ k ∈ l, k.Holds p := by
  induction l generalizing i with
  | nil => simp [merge]
  | cons j l ih =>
    obtain ⟨hj, hl⟩ := List.forall_mem_cons.1 hl
    have hle := (List.pairwise_cons.1 hs).1 j (List.mem_cons_self ..)
    simp only [List.mem_cons, exists_eq_or_imp]
    unfold merge
    split
    · rename_i htouch
      rw [ih (hi.hull hj) hl (started_hull hi hj hs),
        holds_hull_iff hi hj hle ((Interval.touches_iff hi hj).1 htouch), or_assoc]
    · simp only [List.mem_cons, exists_eq_or_imp, ih hj hl hs.of_cons]

/-- Sorting brings proper intervals into the order in which they start. Only these are ordered, so
the comparison is looked at on them alone. -/
theorem started_mergeSort (hl : ∀ i ∈ l, i.Proper) : Started (l.mergeSort startsBefore) := by
  let le (a b : { i // i ∈ l }) : Bool := startsBefore a.1 b.1
  have hle (a b : { i // i ∈ l }) : le a b ↔ a.1.start ≤ b.1.start :=
    startsBefore_iff_start (hl a.1 a.2) (hl b.1 b.2)
  have hsorted : (l.attach.mergeSort le).Pairwise fun a b => le a b := by
    refine List.pairwise_mergeSort (fun a b c h h' => ?_) (fun a b => ?_) l.attach
    · exact (hle a c).2 (((hle a b).1 h).trans ((hle b c).1 h'))
    · rw [Bool.or_eq_true, hle, hle]
      exact le_total _ _
  have hmap : (l.attach.mergeSort le).map Subtype.val = l.mergeSort startsBefore := by
    rw [List.map_mergeSort (s := startsBefore) (fun _ _ _ _ => rfl), List.attach_map_subtype_val]
  rw [Started, ← hmap, List.pairwise_map]
  exact hsorted.imp fun h => (hle _ _).1 h

theorem proper_ofIntervals (hl : ∀ i ∈ l, i.Proper) : ∀ i ∈ (ofIntervals l).intervals, i.Proper := by
  have hm : ∀ i ∈ l.mergeSort startsBefore, i.Proper := fun i hi => hl i (List.mem_mergeSort.1 hi)
  rw [ofIntervals]
  split
  · exact fun i hi => absurd hi List.not_mem_nil
  · rename_i first rest h
    rw [h] at hm
    exact proper_merge (hm first (List.mem_cons_self ..)) fun j hj =>
      hm j (List.mem_cons_of_mem _ hj)

theorem spaced_ofIntervals (hl : ∀ i ∈ l, i.Proper) : Spaced (ofIntervals l).intervals := by
  have hs := started_mergeSort hl
  have hm : ∀ i ∈ l.mergeSort startsBefore, i.Proper := fun i hi => hl i (List.mem_mergeSort.1 hi)
  rw [ofIntervals]
  split
  · exact List.Pairwise.nil
  · rename_i first rest h
    rw [h] at hs hm
    exact spaced_merge (hm first (List.mem_cons_self ..))
      (fun j hj => hm j (List.mem_cons_of_mem _ hj)) hs

/-- The set of some intervals holds the spots that any of them holds. -/
theorem holds_ofIntervals_iff (hl : ∀ i ∈ l, i.Proper) :
    (ofIntervals l).Holds p ↔ ∃ i ∈ l, i.Holds p := by
  have hs := started_mergeSort hl
  have hm : ∀ i ∈ l.mergeSort startsBefore, i.Proper := fun i hi => hl i (List.mem_mergeSort.1 hi)
  have hex : (∃ i ∈ l, i.Holds p) ↔ ∃ i ∈ l.mergeSort startsBefore, i.Holds p := by
    simp only [List.mem_mergeSort]
  rw [Holds, hex, ofIntervals]
  split
  · rename_i h
    rw [h]
  · rename_i first rest h
    rw [h] at hs hm ⊢
    rw [exists_holds_merge_iff (hm first (List.mem_cons_self ..))
      (fun j hj => hm j (List.mem_cons_of_mem _ hj)) hs]
    simp only [List.mem_cons, exists_eq_or_imp]

theorem proper_overlaps : ∀ k ∈ overlaps l m, k.Proper := by
  fun_induction overlaps l m with
  | case1 => exact fun k hk => absurd hk List.not_mem_nil
  | case2 => exact fun k hk => absurd hk List.not_mem_nil
  | case3 i l j m ih1 ih2 =>
    intro k hk
    rcases List.mem_append.1 hk with h | h
    · exact Interval.proper_of_inter? (Option.mem_toList.1 h)
    · split at h
      · exact ih1 k h
      · exact ih2 k h

/-- An interval that stops no later than `j` shares nothing with what comes after `j`. -/
theorem not_holds_of_stop_le (hle : i.stop ≤ j.stop) (hspace : ∀ k ∈ m, j.stop < k.start)
    (hp : i.Holds p) : ¬ ∃ k ∈ m, k.Holds p := by
  rintro ⟨k, hk, hpk⟩
  exact hp.2 (p.mem_of_le hpk.1 (hle.trans (hspace k hk).le))

/-- Walking along two spaced lists meets every pair that overlaps: what is left behind stops before
the next interval of the other list starts. -/
theorem exists_holds_overlaps_iff (hl : ∀ i ∈ l, i.Proper) (hm : ∀ i ∈ m, i.Proper) (hsl : Spaced l)
    (hsm : Spaced m) :
    (∃ k ∈ overlaps l m, k.Holds p) ↔ (∃ i ∈ l, i.Holds p) ∧ ∃ j ∈ m, j.Holds p := by
  fun_induction overlaps l m with
  | case1 => simp
  | case2 => simp
  | case3 i l j m ih1 ih2 =>
    obtain ⟨hi, hl'⟩ := List.forall_mem_cons.1 hl
    obtain ⟨hj, hm'⟩ := List.forall_mem_cons.1 hm
    obtain ⟨hil, hsl'⟩ := List.pairwise_cons.1 hsl
    obtain ⟨hjm, hsm'⟩ := List.pairwise_cons.1 hsm
    have hij := Interval.exists_holds_inter?_iff hi hj p
    simp only [Option.mem_def] at hij
    simp only [List.mem_append, Option.mem_toList, or_and_right, exists_or, hij]
    split
    · rename_i h
      rw [Bound.upperOrder_eq hi.hi hj.hi, compare_lt_iff_lt] at h
      have hapart : i.Holds p → ¬ ∃ k ∈ m, k.Holds p := not_holds_of_stop_le h.le hjm
      refine (or_congr_right (ih1 hl' hm hsl' hsm)).trans ?_
      simp only [List.mem_cons, exists_eq_or_imp]
      constructor
      · rintro (⟨hpi, hpj⟩ | ⟨hpl, hpm⟩)
        · exact ⟨Or.inl hpi, Or.inl hpj⟩
        · exact ⟨Or.inr hpl, hpm⟩
      · rintro ⟨hpi | hpl, hpm⟩
        · exact Or.inl ⟨hpi, hpm.resolve_right (hapart hpi)⟩
        · exact Or.inr ⟨hpl, hpm⟩
    · rename_i h
      rw [Bound.upperOrder_eq hi.hi hj.hi, compare_lt_iff_lt, not_lt] at h
      have hapart : j.Holds p → ¬ ∃ k ∈ l, k.Holds p := not_holds_of_stop_le h hil
      refine (or_congr_right (ih2 hl hm' hsl hsm')).trans ?_
      simp only [List.mem_cons, exists_eq_or_imp]
      constructor
      · rintro (⟨hpi, hpj⟩ | ⟨hpl, hpm⟩)
        · exact ⟨Or.inl hpi, Or.inl hpj⟩
        · exact ⟨hpl, Or.inr hpm⟩
      · rintro ⟨hpl, hpj | hpm⟩
        · exact Or.inl ⟨hpl.resolve_right (hapart hpj), hpj⟩
        · exact Or.inr ⟨hpl, hpm⟩

theorem proper_gaps {b : Bound α} : ∀ k ∈ gaps b l, k.Proper := by
  induction l generalizing b with
  | nil => exact fun k hk => Interval.proper_of_ofBounds? (Option.mem_toList.1 hk)
  | cons i l ih =>
    intro k hk
    rcases List.mem_append.1 hk with h | h
    · exact Interval.proper_of_ofBounds? (Option.mem_toList.1 h)
    · exact ih k h

/-- Nothing starts before the line does. -/
theorem start_le_start (hi : i.Proper) : (⟨-infinity, false⟩ : Bound α).start ≤ i.start := by
  have hplaced : (-infinity : α) == -infinity := neg_congr number_infinity
  rw [Interval.start, Bound.start, Bound.start, Prod.Lex.toLex_le_toLex, place_lt_iff hplaced hi.lo,
    place_eq_iff hplaced hi.lo]
  rcases le_iff.1 (neg_infinity_le hi.lo) with h | h
  · exact Or.inl h
  · have hopen := hi.loOpen (by simp [isInfinite, beq_symm h])
    exact Or.inr ⟨h, by simp [hopen]⟩

/-- The gaps from an end on hold the spots after it that no interval holds. -/
theorem exists_holds_gaps_iff {b : Bound α} (hb : b.Placed) (hl : ∀ i ∈ l, i.Proper) (hs : Spaced l)
    (hle : ∀ i ∈ l, b.start ≤ i.start) :
    (∃ k ∈ gaps b l, k.Holds p) ↔ b.start ∈ p.passed ∧ ∀ i ∈ l, ¬ i.Holds p := by
  induction l generalizing b with
  | nil =>
    have hinf : (⟨infinity, false⟩ : Bound α).Placed := number_infinity
    have h := Interval.exists_holds_ofBounds?_iff hb hinf p
    simp only [Option.mem_def] at h
    simp only [gaps, Option.mem_toList, h, List.not_mem_nil, false_imp_iff, implies_true, and_true]
    exact and_iff_left p.top
  | cons i l ih =>
    obtain ⟨hi, hl'⟩ := List.forall_mem_cons.1 hl
    obtain ⟨hil, hs'⟩ := List.pairwise_cons.1 hs
    have hlo : i.lo.flipped.Placed := hi.lo
    have h := Interval.exists_holds_ofBounds?_iff hb hlo p
    simp only [Option.mem_def, Bound.stop_flipped] at h
    have hrest := ih (b := i.hi.flipped) hi.hi hl' hs' fun k hk => by
      rw [Bound.start_flipped]
      exact (hil k hk).le
    simp only [gaps, List.mem_append, Option.mem_toList, or_and_right, exists_or, h, hrest,
      Bound.start_flipped, List.forall_mem_cons]
    change (b.start ∈ p.passed ∧ i.start ∉ p.passed) ∨ (i.stop ∈ p.passed ∧ _) ↔ _
    have hbi := hle i (List.mem_cons_self ..)
    have hlt := hi.start_lt_stop
    constructor
    · rintro (⟨hbp, hip⟩ | ⟨hip, hrest⟩)
      · refine ⟨hbp, fun h => hip h.1, fun k hk hpk => hip ?_⟩
        exact p.mem_of_le hpk.1 (hlt.le.trans (hil k hk).le)
      · exact ⟨p.mem_of_le hip (hbi.trans hlt.le), fun h => h.2 hip, hrest⟩
    · rintro ⟨hbp, hip, hrest⟩
      by_cases h : i.start ∈ p.passed
      · exact Or.inr ⟨by_contra fun h' => hip ⟨h, h'⟩, hrest⟩
      · exact Or.inl ⟨hbp, h⟩

/-- The normal form: proper intervals in increasing order, no two of which share a number or
touch. -/
structure Canonical (s : Numbers α) : Prop where
  proper : ∀ i ∈ s.intervals, i.Proper
  increasing : s.intervals.Pairwise fun i j => i.lo.value < j.lo.value
  disjoint : s.intervals.Pairwise fun i j => ∀ x, x ∈ i → x ∉ j
  apart : s.intervals.Pairwise fun i j => i.touches j = false

theorem lo_lt_of_stop_lt (hi : i.Proper) (hj : j.Proper) (h : i.stop < j.start) :
    i.lo.value < j.lo.value := by
  have hroom := hi.start_lt_stop
  rw [Interval.start, Interval.stop, Bound.start, Bound.stop, Prod.Lex.toLex_lt_toLex] at hroom h
  rw [← place_lt_iff hi.lo hj.lo]
  rcases hroom with hroom | ⟨hroom, hcut⟩ <;> rcases h with h | ⟨h, hcut'⟩
  · exact hroom.trans h
  · exact hroom.trans_eq h
  · exact hroom.trans_lt h
  · -- no cut lies between the two at one place
    revert hcut hcut'
    cases i.hi.closed <;> simp

theorem canonical_of_spaced (hs : ∀ i ∈ s.intervals, i.Proper) (h : Spaced s.intervals) :
    s.Canonical := by
  have hmem := List.Pairwise.and_mem.1 h
  refine ⟨hs, hmem.imp fun h => ?_, hmem.imp fun h x hxi hxj => ?_, hmem.imp fun h => ?_⟩
  · exact lo_lt_of_stop_lt (hs _ h.1) (hs _ h.2.1) h.2.2
  · have hx := Interval.number_of_mem hxi
    have hstop := ((Interval.mem_iff_cuts (hs _ h.1) hx).1 hxi).2
    have hstart := ((Interval.mem_iff_cuts (hs _ h.2.1) hx).1 hxj).1
    exact absurd hstart (not_le.2 (hstop.trans h.2.2))
  · rw [← Bool.not_eq_true, Interval.touches_iff (hs _ h.1) (hs _ h.2.1)]
    exact not_le.2 h.2.2

theorem Canonical.spaced (hs : s.Canonical) : Spaced s.intervals := by
  refine (List.Pairwise.and_mem.1 hs.apart).imp fun h => ?_
  obtain ⟨hi, hj, h⟩ := h
  have htouch := Interval.touches_iff (hs.proper _ hi) (hs.proper _ hj)
  rw [h] at htouch
  exact not_le.1 fun hle => Bool.false_ne_true (htouch.2 hle)

theorem canonical_ofIntervals (hl : ∀ i ∈ l, i.Proper) : (ofIntervals l).Canonical :=
  canonical_of_spaced (proper_ofIntervals hl) (spaced_ofIntervals hl)

section Algebra

variable (hx : Scalar.isFinite x) (hs : s.Canonical) (ht : t.Canonical)

include hs ht in
theorem Canonical.union : (s.union t).Canonical :=
  canonical_ofIntervals fun i hi => (List.mem_append.1 hi).elim (hs.proper i) (ht.proper i)

theorem canonical_inter (s t : Numbers α) : (s.inter t).Canonical :=
  canonical_ofIntervals proper_overlaps

theorem canonical_compl (s : Numbers α) : s.compl.Canonical := canonical_ofIntervals proper_gaps

theorem canonical_diff (s t : Numbers α) : (s.diff t).Canonical := canonical_inter ..

theorem canonical_symmDiff (s t : Numbers α) : (s.symmDiff t).Canonical :=
  (canonical_diff s t).union (canonical_diff t s)

include hs ht

theorem holds_union_iff : (s.union t).Holds p ↔ s.Holds p ∨ t.Holds p := by
  rw [union, holds_ofIntervals_iff fun i hi =>
    (List.mem_append.1 hi).elim (hs.proper i) (ht.proper i)]
  simp only [Holds, List.mem_append, or_and_right, exists_or]

theorem holds_inter_iff : (s.inter t).Holds p ↔ s.Holds p ∧ t.Holds p := by
  rw [inter, holds_ofIntervals_iff proper_overlaps,
    exists_holds_overlaps_iff hs.proper ht.proper hs.spaced ht.spaced, Holds, Holds]

omit ht in
theorem holds_compl_iff : s.compl.Holds p ↔ ¬ s.Holds p := by
  have hplaced : (⟨-infinity, false⟩ : Bound α).Placed := neg_congr number_infinity
  rw [compl, holds_ofIntervals_iff proper_gaps,
    exists_holds_gaps_iff hplaced hs.proper hs.spaced fun i hi => start_le_start (hs.proper i hi),
    Holds]
  simp only [not_exists, not_and]
  exact and_iff_right p.bottom

include hx

theorem mem_union_iff : x ∈ s.union t ↔ x ∈ s ∨ x ∈ t := by
  rw [mem_iff_holds (hs.union ht).proper hx, holds_union_iff hs ht, mem_iff_holds hs.proper hx,
    mem_iff_holds ht.proper hx]

theorem mem_inter_iff : x ∈ s.inter t ↔ x ∈ s ∧ x ∈ t := by
  rw [mem_iff_holds (canonical_inter s t).proper hx, holds_inter_iff hs ht,
    mem_iff_holds hs.proper hx, mem_iff_holds ht.proper hx]

omit ht in
theorem mem_compl_iff : x ∈ s.compl ↔ x ∉ s := by
  rw [mem_iff_holds (canonical_compl s).proper hx, holds_compl_iff hs, mem_iff_holds hs.proper hx]

theorem mem_diff_iff : x ∈ s.diff t ↔ x ∈ s ∧ x ∉ t := by
  rw [diff, mem_inter_iff hx hs (canonical_compl t), mem_compl_iff hx ht]

theorem mem_symmDiff_iff : x ∈ s.symmDiff t ↔ Xor (x ∈ s) (x ∈ t) := by
  rw [symmDiff, mem_union_iff hx (canonical_diff s t) (canonical_diff t s), mem_diff_iff hx hs ht,
    mem_diff_iff hx ht hs, Xor]

end Algebra

end Numbers

end ParameterSolver
