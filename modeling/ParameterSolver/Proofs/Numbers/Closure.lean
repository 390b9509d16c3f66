import ParameterSolver.Proofs.Numbers.Canonical
import ParameterSolver.Proofs.Scalar.MachineOrder

/-! Every set of numbers that can be made is in normal form. Most intervals come from `ofBounds?`
and are proper by construction; negation, absolute values, hulls and sines put their ends together
themselves. -/

namespace ParameterSolver

open Scalar Scalar.Ordered

variable {α : Type} [Scalar α]

mutual

/-- The intervals that the operations on intervals and sets give. -/
inductive Interval.Made : Interval α → Prop
  | ofBounds {lo hi : Bound α} {i : Interval α} : i ∈ Interval.ofBounds? lo hi → Interval.Made i
  | unbounded : Interval.Made .unbounded
  | inter {i j k : Interval α} : Interval.Made i → Interval.Made j → k ∈ i.inter? j → Interval.Made k
  | hull {i j : Interval α} : Interval.Made i → Interval.Made j → Interval.Made (i.hull j)
  | add {i j k : Interval α} : Interval.Made i → Interval.Made j → k ∈ i.add? j → Interval.Made k
  | neg {i : Interval α} : Interval.Made i → Interval.Made i.neg
  | mul {i j k : Interval α} : Interval.Made i → Interval.Made j → k ∈ i.mul? j → Interval.Made k
  | invert {i j : Interval α} : Interval.Made i → j ∈ i.invert → Interval.Made j
  | powInt {i j : Interval α} {n : Int} : Interval.Made i → j ∈ i.powInt n → Interval.Made j
  | pow {i j k : Interval α} : Interval.Made i → Interval.Made j → k ∈ i.pow j → Interval.Made k
  | abs {i : Interval α} : Interval.Made i → Interval.Made i.abs
  | sin {i : Interval α} : Interval.Made i → Interval.Made i.sin
  | ln {i j : Interval α} : Interval.Made i → j ∈ i.ln? → Interval.Made j
  | part {s : Numbers α} {i : Interval α} : Numbers.Made s → i ∈ s.intervals → Interval.Made i
  | span {s : Numbers α} {i : Interval α} : Numbers.Made s → i ∈ s.hull? → Interval.Made i

/-- The sets that the operations on intervals and sets give. -/
inductive Numbers.Made : Numbers α → Prop
  | empty : Numbers.Made .empty
  | unbounded : Numbers.Made .unbounded
  | ofInterval {i : Interval α} : Interval.Made i → Numbers.Made ⟨[i]⟩
  | ofIntervals {l : List (Interval α)} : (∀ i ∈ l, Interval.Made i) → Numbers.Made (.ofIntervals l)
  | closed (lo hi : α) : Numbers.Made (.closed lo hi)
  | singleton (x : α) : Numbers.Made (.singleton x)
  | atLeast (x : α) : Numbers.Made (.atLeast x)
  | atMost (x : α) : Numbers.Made (.atMost x)
  | union {s t : Numbers α} : Numbers.Made s → Numbers.Made t → Numbers.Made (s.union t)
  | inter {s t : Numbers α} : Numbers.Made s → Numbers.Made t → Numbers.Made (s.inter t)
  | compl {s : Numbers α} : Numbers.Made s → Numbers.Made s.compl
  | diff {s t : Numbers α} : Numbers.Made s → Numbers.Made t → Numbers.Made (s.diff t)
  | symmDiff {s t : Numbers α} : Numbers.Made s → Numbers.Made t → Numbers.Made (s.symmDiff t)
  | scale {s : Numbers α} (factor : α) : Numbers.Made s → Numbers.Made (s.scale factor)
  | unscale {s : Numbers α} (divisor : α) : Numbers.Made s → Numbers.Made (s.unscale divisor)
  | add {s t : Numbers α} : Numbers.Made s → Numbers.Made t → Numbers.Made (s.add t)
  | neg {s : Numbers α} : Numbers.Made s → Numbers.Made s.neg
  | sub {s t : Numbers α} : Numbers.Made s → Numbers.Made t → Numbers.Made (s.sub t)
  | mul {s t : Numbers α} : Numbers.Made s → Numbers.Made t → Numbers.Made (s.mul t)
  | invert {s : Numbers α} : Numbers.Made s → Numbers.Made s.invert
  | div {s t : Numbers α} : Numbers.Made s → Numbers.Made t → Numbers.Made (s.div t)
  | pow {s t : Numbers α} : Numbers.Made s → Numbers.Made t → Numbers.Made (s.pow t)
  | round {s : Numbers α} : Numbers.Made s → Numbers.Made s.round
  | abs {s : Numbers α} : Numbers.Made s → Numbers.Made s.abs
  | sin {s : Numbers α} : Numbers.Made s → Numbers.Made s.sin
  | ln {s : Numbers α} : Numbers.Made s → Numbers.Made s.ln

end

variable [Ordered α]

namespace Interval

variable {i j k : Interval α}

theorem proper_unbounded : (unbounded : Interval α).Proper := by
  have hzero := isFinite_iff.1 (isFinite_zero (α := α))
  exact ⟨neg_congr number_infinity, number_infinity, Or.inl (lt_trans hzero.1 hzero.2),
    fun _ => rfl, fun _ => rfl⟩

/-- Finite ends may be closed. -/
theorem proper_of_le {x y : α} (hx : Scalar.isFinite x) (hy : Scalar.isFinite y) (h : x ≤ y) :
    (⟨⟨x, true⟩, ⟨y, true⟩⟩ : Interval α).Proper := by
  refine ⟨beq_of_isFinite hx, beq_of_isFinite hy, ?_, fun hinf => ?_, fun hinf => ?_⟩
  · exact (le_iff.1 h).imp_right fun heq => ⟨heq, rfl, rfl⟩
  · exact absurd hx ((isInfinite_iff (beq_of_isFinite hx)).1 hinf)
  · exact absurd hy ((isInfinite_iff (beq_of_isFinite hy)).1 hinf)

theorem isInfinite_of_neg {x : α} (hx : x == x) (h : isInfinite (-x)) : isInfinite x :=
  (isInfinite_iff hx).2 fun hfin => (isInfinite_iff (neg_congr hx)).1 h (isFinite_neg hfin)

theorem Proper.neg (h : i.Proper) : i.neg.Proper where
  lo := neg_congr h.hi
  hi := neg_congr h.lo
  room := by
    rcases h.room with hlt | ⟨heq, hlo, hhi⟩
    · exact Or.inl (neg_lt_neg hlt)
    · exact Or.inr ⟨neg_congr (beq_symm heq), hhi, hlo⟩
  loOpen hinf := h.hiOpen (isInfinite_of_neg h.hi hinf)
  hiOpen hinf := h.loOpen (isInfinite_of_neg h.lo hinf)

theorem Proper.abs (h : i.Proper) : i.abs.Proper := by
  unfold Interval.abs
  split_ifs with hlo hhi
  · exact h
  · exact h.neg
  · have hzero : (⟨0, true⟩ : Bound α).Placed := beq_of_isFinite isFinite_zero
    have hpos : 0 < i.hi.value := by
      rcases total hzero h.hi with h' | h' | h'
      · exact h'
      · exact absurd (le_iff.2 (Or.inr (beq_symm h'))) hhi
      · exact absurd (le_iff.2 (Or.inl h')) hhi
    have htop : (i.hi.highest i.lo.neg).Placed ∧
        (isInfinite (i.hi.highest i.lo.neg).value → (i.hi.highest i.lo.neg).closed = false) := by
      rcases highest_cases i.hi i.lo.neg with heq | heq
      · rw [heq]
        exact ⟨h.hi, h.hiOpen⟩
      · rw [heq]
        exact ⟨h.neg.hi, h.neg.hiOpen⟩
    refine ⟨hzero, htop.1, (start_lt_stop_iff hzero htop.1).1 ?_, fun hinf => ?_, htop.2⟩
    · have hstop := Bound.stop_highest h.hi h.neg.hi
      refine lt_of_lt_of_eq ?_ hstop.symm
      exact ((start_lt_stop_iff hzero h.hi).2 (Or.inl hpos)).trans_le (le_max_left _ _)
    · exact absurd isFinite_zero ((isInfinite_iff hzero).1 hinf)

/-- Of two numbers within bounds, the lesser and the greater are in order and within them. -/
theorem between_lesser_greater {x y lo hi : α} (hx : lo ≤ x ∧ x ≤ hi) (hy : lo ≤ y ∧ y ≤ hi) :
    lo ≤ lesser x y ∧ lesser x y ≤ greater x y ∧ greater x y ≤ hi := by
  have hx' := (numbers_of_le hx.1).2
  have hy' := (numbers_of_le hy.1).2
  simp only [lesser, greater, isNaN_of_beq hx', Bool.false_eq_true, if_false]
  rcases total hx' hy' with h | h | h
  · rw [if_neg (lt_asymm h), if_pos h]
    exact ⟨hx.1, le_iff.2 (Or.inl h), hy.2⟩
  · rw [if_neg (not_lt_of_le (le_iff.2 (Or.inr h))),
      if_neg (not_lt_of_le (le_iff.2 (Or.inr (beq_symm h))))]
    exact ⟨hx.1, le_iff.2 (Or.inr hx'), hx.2⟩
  · rw [if_pos h, if_neg (lt_asymm h)]
    exact ⟨hy.1, le_iff.2 (Or.inl h), hx.2⟩

omit [Ordered α] in
theorem between_ite {p : Prop} [Decidable p] {x y lo hi : α} (hx : lo ≤ x ∧ x ≤ hi)
    (hy : lo ≤ y ∧ y ≤ hi) : lo ≤ (if p then x else y) ∧ (if p then x else y) ≤ hi := by
  split_ifs
  · exact hx
  · exact hy

theorem proper_sin (hsin : SineBounded α) (i : Interval α) : i.sin.Proper := by
  have hone := isFinite_one (α := α)
  have hneg := isFinite_neg hone
  unfold Interval.sin
  split
  · exact proper_of_le hneg hone neg_one_le_one
  · rename_i h
    simp only [Bool.or_eq_true, Bool.not_eq_true', not_or, isFinite, Bool.not_eq_false,
      Bool.and_eq_true] at h
    obtain ⟨hlo, hmid, hhi⟩ := between_lesser_greater (hsin _ h.1.1) (hsin _ h.1.2)
    have hself {x y : α} (h : x ≤ y) : x ≤ x ∧ y ≤ y :=
      ⟨le_iff.2 (Or.inr (numbers_of_le h).1), le_iff.2 (Or.inr (numbers_of_le h).2)⟩
    have hbot := between_ite (p := i.reaches (-halfPi)) ⟨(hself hlo).1, hlo⟩ ⟨hlo, (hself hlo).2⟩
    have htop := between_ite (p := i.reaches halfPi) ⟨hhi, (hself hhi).2⟩ ⟨(hself hhi).1, hhi⟩
    have hle := le_chain hbot.2 (le_chain hmid htop.1)
    exact proper_of_le (isFinite_of_between hneg hone hbot.1 (le_chain hle htop.2))
      (isFinite_of_between hneg hone (le_chain hbot.1 hle) htop.2) hle

theorem proper_of_invert (h : j ∈ i.invert) : j.Proper := by
  have hpiece {lo hi : Bound α} (h : j ∈ (ofBounds? lo hi).toList) : j.Proper :=
    proper_of_ofBounds? (Option.mem_toList.1 h)
  simp only [invert] at h
  split_ifs at h
  · exact absurd h List.not_mem_nil
  · exact (List.mem_append.1 h).elim hpiece hpiece
  · exact hpiece h
  · exact hpiece h
  · exact hpiece h

theorem proper_of_powPositive? {n : Nat} (h : j ∈ i.powPositive? n) : j.Proper := by
  unfold powPositive? at h
  split_ifs at h
  all_goals exact proper_of_ofBounds? h

theorem proper_of_powInt {n : Int} (h : j ∈ i.powInt n) : j.Proper := by
  unfold powInt at h
  split_ifs at h
  · exact proper_of_ofBounds? (Option.mem_toList.1 h)
  · obtain ⟨k, -, hk⟩ := List.mem_flatMap.1 h
    exact proper_of_invert hk
  · exact proper_of_powPositive? (Option.mem_toList.1 h)

theorem proper_of_pow (h : k ∈ i.pow j) : k.Proper := by
  unfold pow at h
  split at h
  · exact proper_of_powInt h
  · split at h
    · exact absurd h List.not_mem_nil
    · exact proper_of_ofBounds? (Option.mem_toList.1 h)

theorem proper_of_ln? (h : j ∈ i.ln?) : j.Proper := by
  unfold ln? at h
  split at h
  · cases h
  · exact proper_of_ofBounds? h

end Interval

namespace Numbers

variable {s t : Numbers α}

theorem canonical_ofInterval? {i : Option (Interval α)} (h : ∀ j ∈ i, j.Proper) :
    (ofInterval? i).Canonical := by
  cases i with
  | none => exact canonical_of_spaced (fun i hi => absurd hi List.not_mem_nil) List.Pairwise.nil
  | some i =>
    refine canonical_of_spaced (fun j hj => ?_) (List.pairwise_singleton ..)
    exact h j (Option.mem_toList.1 hj)

theorem Canonical.proper_hull? {i : Interval α} (hs : s.Canonical) (h : i ∈ s.hull?) :
    i.Proper := by
  obtain ⟨first, hfirst, h⟩ := Option.bind_eq_some_iff.1 h
  obtain ⟨last, hlast, rfl⟩ := Option.map_eq_some_iff.1 h
  exact (hs.proper first (List.mem_of_head? hfirst)).hull (hs.proper last (List.mem_of_getLast? hlast))

theorem canonical_pairwise {f : Interval α → Interval α → List (Interval α)}
    (hf : ∀ i j, ∀ k ∈ f i j, k.Proper) : (pairwise f s t).Canonical := by
  unfold pairwise
  split
  · refine canonical_ofIntervals fun k hk => ?_
    obtain ⟨i, -, hk⟩ := List.mem_flatMap.1 hk
    obtain ⟨j, -, hk⟩ := List.mem_flatMap.1 hk
    exact hf i j k hk
  · split
    · exact canonical_ofIntervals (hf _ _)
    · exact canonical_ofInterval? (i := none) nofun

theorem canonical_map {f : Interval α → List (Interval α)} (hs : s.Canonical)
    (hf : ∀ i : Interval α, i.Proper → ∀ k ∈ f i, k.Proper) : (s.map f).Canonical := by
  refine canonical_ofIntervals fun k hk => ?_
  obtain ⟨i, hi, hk⟩ := List.mem_flatMap.1 hk
  exact hf i (hs.proper i hi) k hk

theorem canonical_mapEnds (f : α → α) : (s.mapEnds f).Canonical := by
  refine canonical_ofIntervals fun k hk => ?_
  obtain ⟨i, -, hk⟩ := List.mem_filterMap.1 hk
  exact Interval.proper_of_ofBounds? hk

theorem Canonical.neg (hs : s.Canonical) : s.neg.Canonical :=
  canonical_map hs fun _ hi _ hk => List.mem_singleton.1 hk ▸ hi.neg

theorem canonical_add : (s.add t).Canonical :=
  canonical_pairwise fun _ _ _ hk => Interval.proper_of_ofBounds? (Option.mem_toList.1 hk)

theorem canonical_mul : (s.mul t).Canonical :=
  canonical_pairwise fun _ _ _ hk => Interval.proper_of_ofBounds? (Option.mem_toList.1 hk)

theorem proper_roundInterval {i : Interval α} : ∀ k ∈ roundInterval i, k.Proper := by
  intro k hk
  unfold roundInterval at hk
  split at hk
  · exact absurd hk List.not_mem_nil
  · split_ifs at hk
    · obtain ⟨n, -, hk⟩ := List.mem_filterMap.1 hk
      exact Interval.proper_of_ofBounds? hk
    · exact Interval.proper_of_ofBounds? (Option.mem_toList.1 hk)

theorem Canonical.invert (hs : s.Canonical) : s.invert.Canonical :=
  canonical_map hs fun _ _ _ => Interval.proper_of_invert

theorem canonical_pow : (s.pow t).Canonical := canonical_pairwise fun _ _ _ => Interval.proper_of_pow

theorem Canonical.round (hs : s.Canonical) : s.round.Canonical :=
  canonical_map hs fun _ _ => proper_roundInterval

theorem Canonical.abs (hs : s.Canonical) : s.abs.Canonical :=
  canonical_map hs fun _ hi _ hk => List.mem_singleton.1 hk ▸ hi.abs

theorem Canonical.sin (hs : s.Canonical) (hsin : SineBounded α) : s.sin.Canonical :=
  canonical_map hs fun _ _ _ hk => List.mem_singleton.1 hk ▸ Interval.proper_sin hsin _

theorem Canonical.ln (hs : s.Canonical) : s.ln.Canonical :=
  canonical_map hs fun _ _ _ hk => Interval.proper_of_ln? (Option.mem_toList.1 hk)

end Numbers

mutual

theorem Interval.Made.proper (hsin : SineBounded α) {i : Interval α} : i.Made → i.Proper
  | .ofBounds h => Interval.proper_of_ofBounds? h
  | .unbounded => Interval.proper_unbounded
  | .inter _ _ h => Interval.proper_of_inter? h
  | .hull hi hj => (hi.proper hsin).hull (hj.proper hsin)
  | .add _ _ h => Interval.proper_of_ofBounds? h
  | .neg hi => (hi.proper hsin).neg
  | .mul _ _ h => Interval.proper_of_ofBounds? h
  | .invert _ h => Interval.proper_of_invert h
  | .powInt _ h => Interval.proper_of_powInt h
  | .pow _ _ h => Interval.proper_of_pow h
  | .abs hi => (hi.proper hsin).abs
  | .sin _ => Interval.proper_sin hsin _
  | .ln _ h => Interval.proper_of_ln? h
  | .part hs h => (hs.canonical hsin).proper _ h
  | .span hs h => (hs.canonical hsin).proper_hull? h

theorem Numbers.Made.canonical (hsin : SineBounded α) {s : Numbers α} : s.Made → s.Canonical
  | .empty => Numbers.canonical_ofInterval? (i := none) nofun
  | .unbounded => Numbers.canonical_ofInterval? (i := some .unbounded) fun _ h =>
    Option.mem_some.1 h ▸ Interval.proper_unbounded
  | .ofInterval (i := i) hi => Numbers.canonical_ofInterval? (i := some i) fun _ h =>
    Option.mem_some.1 h ▸ hi.proper hsin
  | .ofIntervals hl => Numbers.canonical_ofIntervals fun i hi => (hl i hi).proper hsin
  | .closed _ _ | .singleton _ | .atLeast _ | .atMost _ =>
    Numbers.canonical_ofInterval? fun _ => Interval.proper_of_ofBounds?
  | .union hs ht => (hs.canonical hsin).union (ht.canonical hsin)
  | .inter _ _ => Numbers.canonical_inter ..
  | .compl _ => Numbers.canonical_compl _
  | .diff _ _ => Numbers.canonical_diff ..
  | .symmDiff _ _ => Numbers.canonical_symmDiff ..
  | .scale factor hs => by
    unfold Numbers.scale
    split
    · exact hs.canonical hsin
    · exact Numbers.canonical_mapEnds _
  | .unscale divisor hs => by
    unfold Numbers.unscale
    split
    · exact hs.canonical hsin
    · exact Numbers.canonical_mapEnds _
  | .add _ _ | .sub _ _ => Numbers.canonical_add
  | .neg hs => (hs.canonical hsin).neg
  | .mul _ _ | .div _ _ => Numbers.canonical_mul
  | .invert hs => (hs.canonical hsin).invert
  | .pow _ _ => Numbers.canonical_pow
  | .round hs => (hs.canonical hsin).round
  | .abs hs => (hs.canonical hsin).abs
  | .sin hs => (hs.canonical hsin).sin hsin
  | .ln hs => (hs.canonical hsin).ln

end

/-- Sets that can be made are in normal form, and on sets in normal form the set operations hold
the finite numbers that their names say. -/
theorem Numbers.canonical_and_mem_iff (hsin : SineBounded α) :
    (∀ s : Numbers α, s.Made → s.Canonical) ∧
      ∀ x : α, Scalar.isFinite x →
        (∀ l : List (Interval α), (∀ i ∈ l, i.Proper) →
          (x ∈ ofIntervals l ↔ ∃ i ∈ l, x ∈ i)) ∧
        ∀ s t : Numbers α, s.Canonical → t.Canonical →
          (x ∈ s.union t ↔ x ∈ s ∨ x ∈ t) ∧ (x ∈ s.inter t ↔ x ∈ s ∧ x ∈ t) ∧
            (x ∈ s.compl ↔ x ∉ s) ∧ (x ∈ s.diff t ↔ x ∈ s ∧ x ∉ t) ∧
              (x ∈ s.symmDiff t ↔ Xor (x ∈ s) (x ∈ t)) := by
  refine ⟨fun s hs => hs.canonical hsin, fun x hx => ⟨fun l hl => ?_, fun s t hs ht => ?_⟩⟩
  · rw [mem_iff_holds (proper_ofIntervals hl) hx, holds_ofIntervals_iff hl]
    exact exists_congr fun i => and_congr_right fun hi => (Interval.mem_iff_holds (hl i hi) hx).symm
  · exact ⟨mem_union_iff hx hs ht, mem_inter_iff hx hs ht, mem_compl_iff hx hs,
      mem_diff_iff hx hs ht, mem_symmDiff_iff hx hs ht⟩

open Machine (Damped) in
/-- The point that two sets share drops out of their symmetric difference, and the sines of what is
left are in normal form. -/
theorem Numbers.canonical_and_mem_iff_damped :
    SineBounded Damped ∧ ((closed 0 2 : Numbers Damped).symmDiff (closed 2 3)).sin.Canonical ∧
      (2 : Damped) ∉ (closed 0 2 : Numbers Damped).symmDiff (closed 2 3) := by
  have h := canonical_and_mem_iff Machine.sineBounded_damped
  have hleft : (closed 0 2 : Numbers Damped).Made := .closed ..
  have hright : (closed 2 3 : Numbers Damped).Made := .closed ..
  refine ⟨Machine.sineBounded_damped, h.1 _ (.sin (.symmDiff hleft hright)), ?_⟩
  rw [((h.2 2 (by decide +kernel)).2 _ _ (h.1 _ hleft) (h.1 _ hright)).2.2.2.2]
  decide +kernel

end ParameterSolver
