import ParameterSolver.Proofs.Numbers.Closure
import ParameterSolver.Proofs.Scalar.Reading

/-! Sets of numbers as sets of points of the real line. Every real number is a spot, and between two
cuts there is one, so that a set in normal form is told by its points: its intervals are the maximal
ones among them. Equality and the subset test, which compare intervals, therefore compare points, and
the laws of set algebra hold as equalities of normal forms. -/

namespace ParameterSolver

open Scalar Scalar.Ordered Scalar.Reading

variable {α : Type} [Scalar α] [Ordered α] [Reading α] {x y : α} {b b' : Bool} {r : ℝ}

namespace Scalar

theorem place_lt_iff_real (hx : x == x) (hy : y == y) : place x < place y ↔ real x < real y := by
  rw [place_lt_iff hx hy, real_lt_iff hx hy]

theorem place_eq_iff_real (hx : x == x) (hy : y == y) : place x = place y ↔ real x = real y := by
  rw [eq_iff_le_not_lt, eq_iff_le_not_lt, ← not_lt, ← not_lt, place_lt_iff_real hx hy,
    place_lt_iff_real hy hx]

theorem cut_le_iff_real (hx : x == x) (hy : y == y) :
    toLex (place x, b) ≤ toLex (place y, b') ↔ toLex (real x, b) ≤ toLex (real y, b') := by
  rw [Prod.Lex.toLex_le_toLex, Prod.Lex.toLex_le_toLex, place_lt_iff_real hx hy,
    place_eq_iff_real hx hy]

theorem exists_real_of_isFinite (hx : isFinite x) : ∃ r : ℝ, real x = r := by
  obtain ⟨hneg, hpos⟩ := isFinite_iff.1 hx
  have hbot := (real_lt_iff (numbers_of_lt hneg).1 (numbers_of_lt hneg).2).2 hneg
  have htop := (real_lt_iff (numbers_of_lt hpos).1 (numbers_of_lt hpos).2).2 hpos
  exact ⟨(real x).toReal, (EReal.coe_toReal htop.ne_top hbot.ne_bot).symm⟩

end Scalar

/-- The spot of a real number. -/
noncomputable def Spot.ofReal (r : ℝ) : Spot α where
  passed := lowerClosure
    {c | ∃ (x : α) (b : Bool), x == x ∧ c = toLex (place x, b) ∧ toLex (real x, b) ≤ toLex (↑r, false)}
  bottom := by
    refine subset_lowerClosure ⟨_, _, neg_congr number_infinity, rfl, ?_⟩
    rw [real_neg_infinity, Prod.Lex.toLex_le_toLex]
    exact Or.inl (EReal.bot_lt_coe r)
  top := by
    rintro ⟨_, ⟨x, b, hx, rfl, hle⟩, hle'⟩
    have h := ((cut_le_iff_real number_infinity hx).1 hle').trans hle
    rw [real_infinity, Prod.Lex.toLex_le_toLex] at h
    exact h.elim (fun h => absurd h not_top_lt) fun h => EReal.coe_ne_top r h.1.symm

/-- A real number has passed the cuts that it has passed on the real line. -/
theorem Spot.mem_ofReal_iff (hx : x == x) :
    toLex (place x, b) ∈ (Spot.ofReal r : Spot α).passed ↔
      toLex (real x, b) ≤ toLex ((r : EReal), false) := by
  constructor
  · rintro ⟨_, ⟨y, b', hy, rfl, hle⟩, hle'⟩
    exact ((cut_le_iff_real hx hy).1 hle').trans hle
  · exact fun h => subset_lowerClosure ⟨x, b, hx, rfl, h⟩

omit [Reading α] in
/-- What comes after the lower infinity is at a number. -/
theorem exists_number_of_le {c : Cut α} (h : toLex (place (-infinity : α), true) ≤ c) :
    ∃ (x : α) (b : Bool), x == x ∧ c = toLex (place x, b) := by
  obtain ⟨q, b⟩ := c
  obtain ⟨x, rfl⟩ : ∃ x : α, place x = q := Quotient.exists_rep q
  have hle : place (-infinity : α) ≤ place x := Prod.Lex.monotone_fst _ _ h
  have hline := line_le_iff.1 (toAntisymmetrization_le_toAntisymmetrization_iff.1 hle)
  have hx := numbers_of_le (hline.resolve_left (not_not.2 (neg_congr number_infinity)))
  exact ⟨x, b, hx.2, rfl⟩

/-- Between two cuts within the line there is a real number: the ends are apart, or the cuts are the
two sides of one finite end. -/
theorem Spot.exists_ofReal_between {c c' : Cut α} (hc : toLex (place (-infinity : α), true) ≤ c)
    (hlt : c < c') (hc' : c' ≤ toLex (place (infinity : α), false)) :
    ∃ r : ℝ, c ∈ (Spot.ofReal r : Spot α).passed ∧ c' ∉ (Spot.ofReal r : Spot α).passed := by
  obtain ⟨x, b, hx, rfl⟩ := exists_number_of_le hc
  obtain ⟨y, b', hy, rfl⟩ := exists_number_of_le (hc.trans hlt.le)
  simp only [Spot.mem_ofReal_iff hx, Spot.mem_ofReal_iff hy, not_le]
  rw [cut_le_iff_real (neg_congr number_infinity) hx, real_neg_infinity] at hc
  rw [cut_le_iff_real hy number_infinity, real_infinity] at hc'
  rw [← not_le, cut_le_iff_real hy hx, not_le] at hlt
  simp only [Prod.Lex.toLex_le_toLex, Prod.Lex.toLex_lt_toLex] at hc hc' hlt ⊢
  rcases hlt with hlt | ⟨heq, hside⟩
  · obtain ⟨r, hxr, hry⟩ := EReal.lt_iff_exists_real_btwn.1 hlt
    exact ⟨r, Or.inl hxr, Or.inl hry⟩
  · obtain ⟨rfl, rfl⟩ := Bool.lt_iff.1 hside
    have hbot : real x ≠ ⊥ := fun h => by
      rw [h] at hc
      exact absurd (hc.resolve_left (lt_irrefl _)).2 (by decide)
    have htop : real x ≠ ⊤ := fun h => by
      rw [← heq, h] at hc'
      exact absurd (hc'.resolve_left (lt_irrefl _)).2 (by decide)
    refine ⟨(real x).toReal, ?_⟩
    rw [EReal.coe_toReal htop hbot]
    exact ⟨Or.inr ⟨rfl, le_rfl⟩, Or.inr ⟨heq, rfl⟩⟩

namespace Interval

variable {i j : Interval α}

/-- The real numbers between the ends. -/
def points (i : Interval α) : Set ℝ :=
  {r | (real i.lo.value < r ∨ ((r : EReal) = real i.lo.value ∧ i.lo.closed)) ∧
    ((r : EReal) < real i.hi.value ∨ ((r : EReal) = real i.hi.value ∧ i.hi.closed))}

theorem mem_points_iff (hi : i.Proper) : r ∈ i.points ↔ i.Holds (.ofReal r) := by
  rw [Holds, start, stop, Bound.start, Bound.stop, Spot.mem_ofReal_iff hi.lo,
    Spot.mem_ofReal_iff hi.hi, not_le, Prod.Lex.toLex_le_toLex, Prod.Lex.toLex_lt_toLex]
  simp only [points, Set.mem_ofPred_eq]
  cases i.lo.closed <;> cases i.hi.closed <;> simp [eq_comm]

omit [Reading α] in
theorem Proper.inner (hi : i.Proper) : toLex (place (-infinity : α), true) ≤ i.start ∧
    i.stop ≤ toLex (place (infinity : α), false) := by
  refine ⟨Numbers.start_le_start hi, ?_⟩
  rw [stop, Bound.stop, Prod.Lex.toLex_le_toLex, place_lt_iff hi.hi number_infinity,
    place_eq_iff hi.hi number_infinity]
  refine (le_iff.1 (le_infinity hi.hi)).imp_right fun h => ⟨h, ?_⟩
  simp [hi.hiOpen (by simp [isInfinite, h])]

theorem Proper.exists_point (hi : i.Proper) : ∃ r, r ∈ i.points := by
  obtain ⟨r, hr⟩ := Spot.exists_ofReal_between hi.inner.1 hi.start_lt_stop hi.inner.2
  exact ⟨r, (mem_points_iff hi).2 hr⟩

omit [Reading α] in
theorem isSubset_iff (hi : i.Proper) (hj : j.Proper) :
    i.isSubset j ↔ j.start ≤ i.start ∧ i.stop ≤ j.stop := by
  simp [isSubset, Bound.lowerOrder_eq hj.lo hi.lo, Bound.upperOrder_eq hj.hi hi.hi, start, stop,
    compare_gt_iff_gt, compare_lt_iff_lt]

/-- An interval between different ends has many points. -/
theorem isSingleton_iff (hi : i.Proper) : i.isSingleton ↔ ∃! r, r ∈ i.points := by
  constructor
  · intro h
    obtain ⟨-, hlo, hhi⟩ := hi.room.resolve_left (not_lt_of_le (le_iff.2 (Or.inr (beq_symm h))))
    have hreal : real i.lo.value = real i.hi.value := (place_eq_iff_real hi.lo hi.hi).1
      ((place_eq_iff hi.lo hi.hi).2 h)
    have hfin : Scalar.isFinite i.lo.value := by
      by_contra hinf
      simpa [hlo] using hi.loOpen ((isInfinite_iff hi.lo).2 hinf)
    obtain ⟨r, hr⟩ := exists_real_of_isFinite hfin
    refine ⟨r, ?_, fun q hq => ?_⟩
    · simp [points, ← hreal, hr, hlo, hhi]
    · simp only [points, ← hreal, hr, Set.mem_ofPred_eq, EReal.coe_lt_coe_iff, EReal.coe_eq_coe_iff] at hq
      rcases hq.1 with h | h
      · exact hq.2.elim (fun h' => absurd h h'.not_gt) And.left
      · exact h.1
  · rintro ⟨r, -, hunique⟩
    by_contra h
    have hlt := (real_lt_iff hi.lo hi.hi).2 (hi.room.resolve_right fun heq => h heq.1)
    obtain ⟨q, hq, hq'⟩ := EReal.lt_iff_exists_real_btwn.1 hlt
    obtain ⟨p, hp, hp'⟩ := EReal.lt_iff_exists_real_btwn.1 hq
    have hpr := hunique p ⟨Or.inl hp, Or.inl (hp'.trans hq')⟩
    have hqr := hunique q ⟨Or.inl hq, Or.inl hq'⟩
    exact (EReal.coe_lt_coe_iff.1 hp').ne (hpr.trans hqr.symm)

/-- The cuts of an interval. -/
def ends (i : Interval α) : Cut α ×ₗ Cut α := toLex (i.start, i.stop)

omit [Reading α] in
theorem beq_iff (hi : i.Proper) (hj : j.Proper) : i == j ↔ i.start = j.start ∧ i.stop = j.stop := by
  have hunfold : (i == j) = ((i.lo.value == j.lo.value && i.lo.closed == j.lo.closed) &&
      (i.hi.value == j.hi.value && i.hi.closed == j.hi.closed)) := rfl
  simp [hunfold, start, stop, Bound.start, Bound.stop, place_eq_iff hi.lo hj.lo,
    place_eq_iff hi.hi hj.hi]

end Interval

namespace Numbers

variable {i j : Interval α} {l m : List (Interval α)} {s t u : Numbers α}

/-- The real numbers in the set. -/
def points (s : Numbers α) : Set ℝ := {r | ∃ i ∈ s.intervals, r ∈ i.points}

theorem mem_points_iff (hs : ∀ i ∈ s.intervals, i.Proper) : r ∈ s.points ↔ s.Holds (.ofReal r) :=
  exists_congr fun i => and_congr_right fun hi => Interval.mem_points_iff (hs i hi)

omit [Reading α] in
/-- There is room after a cut before some later ones. -/
theorem exists_cut_before {c d : Cut α} (hd : c < d) (hl : ∀ k ∈ l, c < k.start) :
    ∃ c', c < c' ∧ c' ≤ d ∧ ∀ k ∈ l, c' ≤ k.start := by
  induction l with
  | nil => exact ⟨d, hd, le_rfl, by simp⟩
  | cons k l ih =>
    obtain ⟨hk, hl⟩ := List.forall_mem_cons.1 hl
    obtain ⟨c', hc, hd', hle⟩ := ih hl
    refine ⟨min c' k.start, lt_min hc hk, (min_le_left _ _).trans hd', List.forall_mem_cons.2 ?_⟩
    exact ⟨min_le_right _ _, fun k' hk' => (min_le_left _ _).trans (hle k' hk')⟩

/-- An interval whose points lie in spaced intervals lies in one of them: it cannot straddle a
gap, in which it would have a point. -/
theorem exists_around (hi : i.Proper) (hl : ∀ j ∈ l, j.Proper) (hs : Spaced l)
    (h : ∀ r : ℝ, i.Holds (.ofReal r) → ∃ j ∈ l, j.Holds (.ofReal r)) :
    ∃ j ∈ l, j.start ≤ i.start ∧ i.stop ≤ j.stop := by
  induction l with
  | nil =>
    obtain ⟨r, hr⟩ := hi.exists_point
    obtain ⟨j, hj, -⟩ := h r ((Interval.mem_points_iff hi).1 hr)
    exact absurd hj List.not_mem_nil
  | cons j l ih =>
    obtain ⟨hj, hl'⟩ := List.forall_mem_cons.1 hl
    obtain ⟨hjl, hs'⟩ := List.pairwise_cons.1 hs
    by_cases hmeet : j.start < i.stop ∧ i.start < j.stop
    · refine ⟨j, List.mem_cons_self .., not_lt.1 fun hlt => ?_, not_lt.1 fun hlt => ?_⟩
      · -- a point of `i` before `j`
        obtain ⟨r, hr, hr'⟩ :=
          Spot.exists_ofReal_between hi.inner.1 hlt (hj.start_lt_stop.le.trans hj.inner.2)
        obtain ⟨k, hk, hkr⟩ := h r ⟨hr, fun hp => hr' ((Spot.ofReal r).mem_of_le hp hmeet.1.le)⟩
        rcases List.mem_cons.1 hk with rfl | hk
        · exact hr' hkr.1
        · exact hr' ((Spot.ofReal r).mem_of_le hkr.1 (hj.start_lt_stop.trans (hjl k hk)).le)
      · -- a point of `i` in the gap after `j`
        obtain ⟨c, hjc, hci, hcl⟩ := exists_cut_before hlt hjl
        obtain ⟨r, hr, hr'⟩ := Spot.exists_ofReal_between (hj.inner.1.trans hj.start_lt_stop.le)
          hjc (hci.trans hi.inner.2)
        obtain ⟨k, hk, hkr⟩ := h r ⟨(Spot.ofReal r).mem_of_le hr hmeet.2.le,
          fun hp => hr' ((Spot.ofReal r).mem_of_le hp hci)⟩
        rcases List.mem_cons.1 hk with rfl | hk
        · exact hkr.2 hr
        · exact hr' ((Spot.ofReal r).mem_of_le hkr.1 (hcl k hk))
    · have hmiss (p : Spot α) (hp : i.Holds p) : ¬ j.Holds p := fun hp' =>
        hmeet ⟨p.lt_of_mem hp'.1 hp.2, p.lt_of_mem hp.1 hp'.2⟩
      obtain ⟨k, hk, hle⟩ := ih hl' hs' fun r hr => by
        obtain ⟨k, hk, hkr⟩ := h r hr
        rcases List.mem_cons.1 hk with rfl | hk
        · exact absurd hkr (hmiss _ hr)
        · exact ⟨k, hk, hkr⟩
      exact ⟨k, List.mem_cons_of_mem _ hk, hle⟩

theorem exists_around_of_subset (hs : s.Canonical) (ht : t.Canonical) (h : s.points ⊆ t.points)
    (hi : i ∈ s.intervals) : ∃ j ∈ t.intervals, j.start ≤ i.start ∧ i.stop ≤ j.stop :=
  exists_around (hs.proper i hi) ht.proper ht.spaced fun _ hr =>
    (mem_points_iff ht.proper).1 (h ((mem_points_iff hs.proper).2 ⟨i, hi, hr⟩))

theorem isSubset_iff_points (hs : s.Canonical) (ht : t.Canonical) :
    s.isSubset t ↔ s.points ⊆ t.points := by
  simp only [isSubset, List.all_eq_true, List.any_eq_true]
  constructor
  · intro h r hr
    rw [mem_points_iff hs.proper] at hr
    rw [mem_points_iff ht.proper]
    obtain ⟨i, hi, hri⟩ := hr
    obtain ⟨j, hj, hij⟩ := h i hi
    rw [Interval.isSubset_iff (hs.proper i hi) (ht.proper j hj)] at hij
    exact ⟨j, hj, Spot.mem_of_le hri.1 hij.1, fun hp => hri.2 (Spot.mem_of_le hp hij.2)⟩
  · intro h i hi
    obtain ⟨j, hj, hij⟩ := exists_around_of_subset hs ht h hi
    exact ⟨j, hj, (Interval.isSubset_iff (hs.proper i hi) (ht.proper j hj)).2 hij⟩

omit [Reading α] in
theorem beq_iff_ends (hl : ∀ i ∈ l, i.Proper) (hm : ∀ i ∈ m, i.Proper) :
    l == m ↔ l.map Interval.ends = m.map Interval.ends := by
  induction l generalizing m with
  | nil => cases m <;> simp
  | cons i l ih =>
    cases m with
    | nil => simp
    | cons j m =>
      obtain ⟨hi, hl⟩ := List.forall_mem_cons.1 hl
      obtain ⟨hj, hm⟩ := List.forall_mem_cons.1 hm
      simp [Interval.beq_iff hi hj, ih hl hm, Interval.ends]

omit [Reading α] in
theorem Canonical.beq_self (hs : s.Canonical) : s == s := (beq_iff_ends hs.proper hs.proper).2 rfl

omit [Reading α] in
theorem sorted_ends (hs : s.Canonical) :
    (s.intervals.map Interval.ends).Pairwise (· < ·) := by
  refine List.pairwise_map.2 ((List.Pairwise.and_mem.1 hs.spaced).imp fun h => ?_)
  exact Prod.Lex.toLex_lt_toLex.2 (Or.inl ((hs.proper _ h.1).start_lt_stop.trans h.2.2))

omit [Reading α] in
/-- Of two intervals of a set one lies before the other. -/
theorem Canonical.before_or_behind (hs : s.Canonical) (hi : i ∈ s.intervals)
    (hj : j ∈ s.intervals) (hne : i ≠ j) : i.stop < j.start ∨ j.stop < i.start := by
  let Apart (i j : Interval α) : Prop := i.stop < j.start ∨ j.stop < i.start
  have : Std.Symm Apart := ⟨fun _ _ => Or.symm⟩
  have hapart : s.intervals.Pairwise Apart := hs.spaced.imp Or.inl
  exact hapart.forall hi hj hne

omit [Reading α] in
/-- An interval of a set lies in no other one. -/
theorem eq_of_around (hs : s.Canonical) (hi : i ∈ s.intervals) (hj : j ∈ s.intervals)
    (hstart : j.start ≤ i.start) (hstop : i.stop ≤ j.stop) : i = j := by
  have hroom := (hs.proper i hi).start_lt_stop
  by_contra hne
  rcases hs.before_or_behind hi hj hne with h | h
  · exact (hroom.trans h).not_ge hstart
  · exact (h.trans hroom).not_ge hstop

/-- The ends of a set are told by its points: an interval of the one set lies in one of the other,
which lies in one of the first, which is the first again. -/
theorem ends_subset (hs : s.Canonical) (ht : t.Canonical) (h : s.points = t.points) :
    s.intervals.map Interval.ends ⊆ t.intervals.map Interval.ends := by
  intro e he
  obtain ⟨i, hi, rfl⟩ := List.mem_map.1 he
  obtain ⟨j, hj, hstart, hstop⟩ := exists_around_of_subset hs ht h.subset hi
  obtain ⟨k, hk, hstart', hstop'⟩ := exists_around_of_subset ht hs h.superset hj
  obtain rfl := eq_of_around hs hi hk (hstart'.trans hstart) (hstop.trans hstop')
  refine List.mem_map.2 ⟨j, hj, ?_⟩
  rw [Interval.ends, Interval.ends, hstart.antisymm hstart', hstop'.antisymm hstop]

theorem beq_iff_points (hs : s.Canonical) (ht : t.Canonical) : s == t ↔ s.points = t.points := by
  change s.intervals == t.intervals ↔ _
  rw [beq_iff_ends hs.proper ht.proper]
  constructor
  · intro h
    have hholds (s : Numbers α) (p : Spot α) : s.Holds p ↔
        ∃ e ∈ s.intervals.map Interval.ends, (ofLex e).1 ∈ p.passed ∧ (ofLex e).2 ∉ p.passed := by
      simp only [List.mem_map, exists_exists_and_eq_and]
      rfl
    ext r
    rw [mem_points_iff hs.proper, mem_points_iff ht.proper, hholds, hholds, h]
  · intro h
    exact List.Subset.antisymm_of_pairwise (sorted_ends hs) (sorted_ends ht) (ends_subset hs ht h)
      (ends_subset ht hs h.symm)

theorem isEmpty_iff_points (hs : s.Canonical) : s.isEmpty ↔ s.points = ∅ := by
  rw [isEmpty, List.isEmpty_iff]
  constructor
  · intro h
    simp [points, h]
  · intro h
    refine List.eq_nil_iff_forall_not_mem.2 fun i hi => ?_
    obtain ⟨r, hr⟩ := (hs.proper i hi).exists_point
    exact h.subset ⟨i, hi, hr⟩

omit [Ordered α] [Reading α] in
theorem isSingleton_iff : s.isSingleton ↔ ∃ i, s.intervals = [i] ∧ i.isSingleton := by
  unfold isSingleton single?
  split
  · rename_i i h
    by_cases hi : i.isSingleton <;> simp [h, hi]
  · rename_i h
    exact iff_of_false (by simp) fun ⟨i, hi, _⟩ => h i hi

theorem isSingleton_iff_points (hs : s.Canonical) : s.isSingleton ↔ ∃! r, r ∈ s.points := by
  rw [isSingleton_iff]
  have hone {i : Interval α} (h : s.intervals = [i]) : s.points = i.points := by
    simp [points, h]
  constructor
  · rintro ⟨i, h, hi⟩
    rw [hone h]
    exact (Interval.isSingleton_iff (hs.proper i (by simp [h]))).1 hi
  · intro hunique
    rcases h : s.intervals with _ | ⟨i, _ | ⟨j, l⟩⟩
    · obtain ⟨r, ⟨i, hi, -⟩, -⟩ := hunique
      rw [h] at hi
      exact absurd hi List.not_mem_nil
    · rw [hone h] at hunique
      exact ⟨i, rfl, (Interval.isSingleton_iff (hs.proper i (by simp [h]))).2 hunique⟩
    · -- a point of each of two intervals that are apart
      have hi := hs.proper i (by simp [h])
      have hj := hs.proper j (by simp [h])
      have hapart := hs.spaced
      rw [h] at hapart
      obtain ⟨q, hq⟩ := hi.exists_point
      obtain ⟨r, hr⟩ := hj.exists_point
      obtain rfl := hunique.unique ⟨i, by simp [h], hq⟩ ⟨j, by simp [h], hr⟩
      have hlt := (List.pairwise_cons.1 hapart).1 j (List.mem_cons_self ..)
      rw [Interval.mem_points_iff hi] at hq
      rw [Interval.mem_points_iff hj] at hr
      exact absurd (Spot.mem_of_le hr.1 hlt.le) hq.2

theorem points_union (hs : s.Canonical) (ht : t.Canonical) :
    (s.union t).points = s.points ∪ t.points := by
  ext r
  rw [mem_points_iff (hs.union ht).proper, holds_union_iff hs ht, Set.mem_union,
    mem_points_iff hs.proper, mem_points_iff ht.proper]

theorem points_inter (hs : s.Canonical) (ht : t.Canonical) :
    (s.inter t).points = s.points ∩ t.points := by
  ext r
  rw [mem_points_iff (canonical_inter s t).proper, holds_inter_iff hs ht, Set.mem_inter_iff,
    mem_points_iff hs.proper, mem_points_iff ht.proper]

theorem points_compl (hs : s.Canonical) : s.compl.points = s.pointsᶜ := by
  ext r
  rw [mem_points_iff (canonical_compl s).proper, holds_compl_iff hs, Set.mem_compl_iff,
    mem_points_iff hs.proper]

theorem points_ofIntervals (hl : ∀ i ∈ l, i.Proper) :
    (ofIntervals l).points = {r | ∃ i ∈ l, r ∈ i.points} := by
  ext r
  rw [mem_points_iff (proper_ofIntervals hl), holds_ofIntervals_iff hl]
  exact exists_congr fun i => and_congr_right fun hi => (Interval.mem_points_iff (hl i hi)).symm

section Laws

variable (hs : s.Canonical) (ht : t.Canonical) (hu : u.Canonical)

include hs

theorem compl_compl_beq : s.compl.compl == s := by
  rw [beq_iff_points (canonical_compl _) hs, points_compl (canonical_compl s), points_compl hs,
    compl_compl]

include ht

theorem compl_union_beq : (s.union t).compl == s.compl.inter t.compl := by
  rw [beq_iff_points (canonical_compl _) (canonical_inter _ _), points_compl (hs.union ht),
    points_union hs ht, points_inter (canonical_compl s) (canonical_compl t), points_compl hs,
    points_compl ht, Set.compl_union]

theorem compl_inter_beq : (s.inter t).compl == s.compl.union t.compl := by
  rw [beq_iff_points (canonical_compl _) ((canonical_compl s).union (canonical_compl t)),
    points_compl (canonical_inter s t), points_inter hs ht,
    points_union (canonical_compl s) (canonical_compl t), points_compl hs, points_compl ht,
    Set.compl_inter]

theorem union_comm_beq : s.union t == t.union s := by
  rw [beq_iff_points (hs.union ht) (ht.union hs), points_union hs ht, points_union ht hs,
    Set.union_comm]

theorem inter_comm_beq : s.inter t == t.inter s := by
  rw [beq_iff_points (canonical_inter _ _) (canonical_inter _ _), points_inter hs ht,
    points_inter ht hs, Set.inter_comm]

include hu

theorem union_assoc_beq : (s.union t).union u == s.union (t.union u) := by
  rw [beq_iff_points ((hs.union ht).union hu) (hs.union (ht.union hu)),
    points_union (hs.union ht) hu, points_union hs ht, points_union hs (ht.union hu),
    points_union ht hu, Set.union_assoc]

theorem inter_assoc_beq : (s.inter t).inter u == s.inter (t.inter u) := by
  rw [beq_iff_points (canonical_inter _ _) (canonical_inter _ _),
    points_inter (canonical_inter s t) hu, points_inter hs ht,
    points_inter hs (canonical_inter t u), points_inter ht hu, Set.inter_assoc]

theorem inter_union_beq : s.inter (t.union u) == (s.inter t).union (s.inter u) := by
  rw [beq_iff_points (canonical_inter _ _) ((canonical_inter s t).union (canonical_inter s u)),
    points_inter hs (ht.union hu), points_union ht hu,
    points_union (canonical_inter s t) (canonical_inter s u), points_inter hs ht,
    points_inter hs hu, Set.inter_union_distrib_left]

theorem union_inter_beq : s.union (t.inter u) == (s.union t).inter (s.union u) := by
  rw [beq_iff_points (hs.union (canonical_inter t u)) (canonical_inter _ _),
    points_union hs (canonical_inter t u), points_inter ht hu,
    points_inter (hs.union ht) (hs.union hu), points_union hs ht, points_union hs hu,
    Set.union_inter_distrib_left]

end Laws

theorem mem_iff_mem_points (hs : ∀ i ∈ s.intervals, i.Proper) (hx : Scalar.isFinite x)
    (hr : real x = r) : x ∈ s ↔ r ∈ s.points := by
  rw [mem_iff_exists]
  refine exists_congr fun i => and_congr_right fun hi => ?_
  have hnum := beq_of_isFinite hx
  have hlo := (hs i hi).lo
  have hhi := (hs i hi).hi
  change i.contains x = true ↔ _
  simp only [Interval.contains, Bool.and_eq_true, Bool.or_eq_true, decide_eq_true_eq,
    ← place_lt_iff hlo hnum, ← place_lt_iff hnum hhi, ← place_eq_iff hnum hlo,
    ← place_eq_iff hnum hhi, place_lt_iff_real hlo hnum, place_lt_iff_real hnum hhi,
    place_eq_iff_real hnum hlo, place_eq_iff_real hnum hhi, hr]
  rfl

/-- A set that can be made is told by the real numbers in it, which are those that it contains as far
as they are numbers at hand: equality, the subset test and the tests for an empty set and for a
single element look at these. The laws of set algebra hold as equalities, and the set of some
intervals does not depend on their order. -/
theorem beq_iff_points_and_laws (hsin : SineBounded α) :
    (∀ s t : Numbers α, s.Made → t.Made →
      (∀ (x : α) (r : ℝ), Scalar.isFinite x → real x = r → (x ∈ s ↔ r ∈ s.points)) ∧
        (s == t ↔ s.points = t.points) ∧ (s.isSubset t ↔ s.points ⊆ t.points) ∧
          (s.isEmpty ↔ s.points = ∅) ∧ (s.isSingleton ↔ ∃! r, r ∈ s.points)) ∧
      (∀ s t u : Numbers α, s.Made → t.Made → u.Made →
        s.compl.compl == s ∧ (s.union t).compl == s.compl.inter t.compl ∧
          (s.inter t).compl == s.compl.union t.compl ∧
          s.union t == t.union s ∧ s.inter t == t.inter s ∧
          (s.union t).union u == s.union (t.union u) ∧ (s.inter t).inter u == s.inter (t.inter u) ∧
          s.inter (t.union u) == (s.inter t).union (s.inter u) ∧
          s.union (t.inter u) == (s.union t).inter (s.union u)) ∧
      ∀ l l' : List (Interval α), (∀ i ∈ l, i.Made) → l.Perm l' →
        ofIntervals l == ofIntervals l' := by
  refine ⟨fun s t hs ht => ?_, fun s t u hs ht hu => ?_, fun l l' hl hperm => ?_⟩
  · have hs' := hs.canonical hsin
    have ht' := ht.canonical hsin
    exact ⟨fun x r => mem_iff_mem_points hs'.proper, beq_iff_points hs' ht',
      isSubset_iff_points hs' ht', isEmpty_iff_points hs', isSingleton_iff_points hs'⟩
  · have hs' := hs.canonical hsin
    have ht' := ht.canonical hsin
    have hu' := hu.canonical hsin
    exact ⟨compl_compl_beq hs', compl_union_beq hs' ht', compl_inter_beq hs' ht',
      union_comm_beq hs' ht', inter_comm_beq hs' ht', union_assoc_beq hs' ht' hu',
      inter_assoc_beq hs' ht' hu', inter_union_beq hs' ht' hu', union_inter_beq hs' ht' hu'⟩
  · have hl' : ∀ i ∈ l, i.Proper := fun i hi => (hl i hi).proper hsin
    have hm' : ∀ i ∈ l', i.Proper := fun i hi => hl' i (hperm.mem_iff.2 hi)
    rw [beq_iff_points (canonical_ofIntervals hl') (canonical_ofIntervals hm'),
      points_ofIntervals hl', points_ofIntervals hm']
    simp only [hperm.mem_iff]

open Machine (Damped) in
/-- Two intervals that share their closed end are one, whichever comes first. -/
theorem beq_iff_points_and_laws_damped :
    SineBounded Damped ∧
      ofIntervals ((Interval.closed? 0 1 : Option (Interval Damped)).toList ++
          (Interval.closed? 1 2).toList) ==
        ofIntervals ((Interval.closed? 1 2).toList ++ (Interval.closed? 0 1).toList) ∧
      (closed 0 1 : Numbers Damped).points ⊆ (closed 0 2 : Numbers Damped).points ∧
      (closed 0 1 : Numbers Damped).points ≠ (closed 0 2 : Numbers Damped).points := by
  have h := beq_iff_points_and_laws Machine.sineBounded_damped
  have hsets := h.1 _ _ (.closed 0 1) (.closed 0 2)
  refine ⟨Machine.sineBounded_damped, h.2.2 _ _ (fun i hi => ?_) List.perm_append_comm, ?_, ?_⟩
  · rcases List.mem_append.1 hi with hi | hi <;> exact .ofBounds (Option.mem_toList.1 hi)
  · exact hsets.2.2.1.1 (by decide +kernel)
  · exact fun heq => absurd (hsets.2.1.2 heq) (by decide +kernel)

end Numbers

end ParameterSolver
