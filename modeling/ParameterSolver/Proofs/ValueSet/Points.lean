import Mathlib.Data.Fintype.EquivFin
import ParameterSolver.Proofs.Exact.ValueSet
import ParameterSolver.Proofs.Numbers.Points

/-! Sets of values by their points: real numbers, truth values, members of an enumeration, texts. Sets
combine if they are of one family, and then the intersection and the tests of sets in normal form are
those of their points. So a set with fewer points passes every test that a larger one passes, as long
as it has any. -/

namespace ParameterSolver

open Scalar Scalar.Ordered Scalar.Reading

namespace Numbers

variable {α : Type} [Scalar α] [Ordered α] {i j k : Interval α} {l m : List (Interval α)}
  {s t : Numbers α} {x y : α}

omit [Ordered α] in
theorem exists_of_mem_overlaps (h : k ∈ overlaps l m) : ∃ i ∈ l, ∃ j ∈ m, k ∈ i.inter? j := by
  fun_induction overlaps l m with
  | case1 => cases h
  | case2 => cases h
  | case3 i l j m ih ih' =>
    rcases List.mem_append.1 h with h | h
    · exact ⟨i, List.mem_cons_self, j, List.mem_cons_self, Option.mem_toList.1 h⟩
    · split at h
      · obtain ⟨i', hi', j', hj', hk⟩ := ih h
        exact ⟨i', List.mem_cons_of_mem _ hi', j', hj', hk⟩
      · obtain ⟨i', hi', j', hj', hk⟩ := ih' h
        exact ⟨i', hi', j', List.mem_cons_of_mem _ hj', hk⟩

/-- What an interval shares with another lies in it, whatever the ends of the other are. -/
theorem holds_of_mem_inter? {p : Spot α} (hi : i.Proper) (hk : k ∈ i.inter? j) (hp : k.Holds p) :
    i.Holds p := by
  obtain ⟨hlo, hhi, -, -, -, rfl⟩ := Interval.mem_ofBounds?_iff.1 hk
  obtain ⟨hstart, hstop⟩ := hp
  rw [Interval.start, Bound.start_normalized_mem_iff] at hstart
  rw [Interval.stop, Bound.stop_normalized_mem_iff] at hstop
  constructor
  · split_ifs at hlo hstart with h
    · rw [Bound.lowerOrder_eq hi.lo hlo, compare_lt_iff_lt] at h
      exact p.mem_of_le hstart h.le
    · exact hstart
  · split_ifs at hhi hstop with h
    · rw [Bound.upperOrder_eq hi.hi hhi, compare_gt_iff_gt] at h
      exact fun hmem => hstop (p.mem_of_le hmem h.le)
    · exact hstop

variable [Reading α]

theorem points_inter_subset (hs : s.Canonical) : (s.inter t).points ⊆ s.points := by
  intro r hr
  rw [mem_points_iff (canonical_inter s t).proper, inter, holds_ofIntervals_iff proper_overlaps] at hr
  obtain ⟨k, hk, hr⟩ := hr
  obtain ⟨i, hi, j, -, hkij⟩ := exists_of_mem_overlaps hk
  exact (mem_points_iff hs.proper).2 ⟨i, hi, holds_of_mem_inter? (hs.proper i hi) hkij hr⟩

omit [Reading α] in
theorem start_head_le (hs : s.Canonical) (hi : s.intervals.head? = some i) (hj : j ∈ s.intervals) :
    i.start ≤ j.start := by
  obtain ⟨l, hl⟩ := List.head?_eq_some_iff.1 hi
  rw [hl] at hj
  rcases List.mem_cons.1 hj with rfl | hj
  · exact le_rfl
  · have hspaced := hs.spaced
    rw [hl] at hspaced
    have hroom := (hs.proper i (by simp [hl])).start_lt_stop
    exact (hroom.trans ((List.pairwise_cons.1 hspaced).1 j hj)).le

omit [Reading α] in
theorem stop_le_last (hs : s.Canonical) (hi : s.intervals.getLast? = some i)
    (hj : j ∈ s.intervals) : j.stop ≤ i.stop := by
  obtain ⟨l, hl⟩ := List.getLast?_eq_some_iff.1 hi
  rw [hl] at hj
  rcases List.mem_append.1 hj with hj | hj
  · have hspaced := hs.spaced
    rw [hl] at hspaced
    have hroom := (hs.proper i (by simp [hl])).start_lt_stop
    exact ((List.pairwise_append.1 hspaced).2.2 j hj i (List.mem_singleton_self i)).le.trans hroom.le
  · rw [List.mem_singleton.1 hj]

/-- A part of a set does not start before the set. -/
theorem min?_le_of_subset (hs : s.Canonical) (ht : t.Canonical) (h : s.points ⊆ t.points)
    (hx : s.min? = some x) (hy : t.min? = some y) : y ≤ x := by
  obtain ⟨i, hi, rfl⟩ := Option.map_eq_some_iff.1 hx
  obtain ⟨j, hj, rfl⟩ := Option.map_eq_some_iff.1 hy
  have hmem := List.mem_of_mem_head? hi
  obtain ⟨j', hj', hle, -⟩ := exists_around_of_subset hs ht h hmem
  have hstart := (start_head_le ht hj hj').trans hle
  exact (place_le_iff (ht.proper j (List.mem_of_mem_head? hj)).lo (hs.proper i hmem).lo).1
    (Prod.Lex.monotone_fst _ _ hstart)

theorem le_max?_of_subset (hs : s.Canonical) (ht : t.Canonical) (h : s.points ⊆ t.points)
    (hx : s.max? = some x) (hy : t.max? = some y) : x ≤ y := by
  obtain ⟨i, hi, rfl⟩ := Option.map_eq_some_iff.1 hx
  obtain ⟨j, hj, rfl⟩ := Option.map_eq_some_iff.1 hy
  have hmem := List.mem_of_getLast? hi
  obtain ⟨j', hj', -, hle⟩ := exists_around_of_subset hs ht h hmem
  have hstop := hle.trans (stop_le_last ht hj hj')
  exact (place_le_iff (hs.proper i hmem).hi (ht.proper j (List.mem_of_getLast? hj)).hi).1
    (Prod.Lex.monotone_fst _ _ hstop)

end Numbers

namespace SortedSet

variable {s t : SortedSet String} {x : String}

theorem isSome_single?_iff : s.single?.isSome ↔ ∃ x, {y | y ∈ s} = {x} := by
  constructor
  · intro h
    obtain ⟨x, hx⟩ := Option.isSome_iff_exists.1 h
    exact ⟨x, Set.ext fun y => mem_of_single hx⟩
  · rintro ⟨x, hx⟩
    obtain rfl : s = singleton x := ext fun y => (Set.ext_iff.1 hx y).trans mem_singleton.symm
    rfl

end SortedSet

namespace Texts

variable {s t : Texts}

/-- There are always further texts. -/
theorem infinite_allBut (l : SortedSet String) : {x | x ∈ allBut l}.Infinite := by
  have hset : {x | x ∈ allBut l} = {x | x ∈ l.toList}ᶜ := by
    ext x
    simp [mem_def, contains, SortedSet.mem_def]
  rw [hset]
  exact (List.finite_toSet l.toList).infinite_compl

theorem isEmpty_iff_forall : s.isEmpty ↔ ∀ x, x ∉ s := by
  refine ⟨fun h x => isEmpty_iff h x, fun h => ?_⟩
  cases s with
  | only l => exact SortedSet.isEmpty_iff.2 fun x hx => h x (decide_eq_true hx)
  | allBut l =>
    obtain ⟨x, hx⟩ := (infinite_allBut l).nonempty
    exact absurd hx (h x)

theorem isSubset_iff : s.isSubset t ↔ ∀ x ∈ s, x ∈ t := by
  rw [isSubset, isEmpty_iff_forall]
  simp only [diff, mem_inter, mem_compl, not_and, not_not]

theorem isSome_single?_iff : s.single?.isSome ↔ ∃ x, {y | y ∈ s} = {x} := by
  cases s with
  | only l =>
    have hset : {y | y ∈ only l} = {y | y ∈ l} := Set.ext fun y => decide_eq_true_iff
    rw [hset]
    exact SortedSet.isSome_single?_iff
  | allBut l =>
    refine iff_of_false Bool.false_ne_true ?_
    rintro ⟨x, hx⟩
    exact infinite_allBut l (hx ▸ Set.finite_singleton x)

end Texts

namespace Truths

variable {s t : Truths}

theorem isSubset_iff : s.isSubset t ↔ ∀ b ∈ s, b ∈ t := by
  refine ⟨fun h b => mem_of_isSubset h, fun h => ?_⟩
  have hfalse := h false
  have htrue := h true
  simp only [mem_def, contains] at hfalse htrue
  cases hs : s.hasFalse <;> cases hs' : s.hasTrue <;> simp_all [isSubset]

theorem isSome_single?_iff : s.single?.isSome ↔ ∃ x, {y | y ∈ s} = {x} := by
  constructor
  · intro h
    obtain ⟨x, hx⟩ := Option.isSome_iff_exists.1 h
    exact ⟨x, Set.ext fun y => mem_of_single hx⟩
  · rintro ⟨x, hx⟩
    have hfalse := Set.ext_iff.1 hx false
    have htrue := Set.ext_iff.1 hx true
    simp only [Set.mem_ofPred_eq, Set.mem_singleton_iff, mem_def, contains] at hfalse htrue
    cases x <;> simp_all [single?]

end Truths

/-- What sets have to share so that they can be combined. -/
inductive Family where
  | numbers (dimension : Exponents)
  | truths
  | members (enumeration : String)
  | texts
deriving DecidableEq

namespace ValueSet

variable {α : Type}

def family : ValueSet α → Family
  | numeric q => .numbers q.unit.exponents
  | boolean _ => .truths
  | enum c => .members c.enumeration
  | text _ => .texts

variable [Scalar α] {s t u : ValueSet α}

theorem exists_inter (h : s.family = t.family) : ∃ u, s.inter t = .ok u := by
  cases s <;> cases t <;> simp only [family, reduceCtorEq, Family.numbers.injEq,
    Family.members.injEq] at h
  case numeric.numeric a b =>
    refine ⟨.numeric ⟨a.base.inter b.base, a.unit⟩, ?_⟩
    simp [inter, Quantities.inter, Quantities.combine, Quantities.requireSameDimension,
      MeasureUnit.commensurable, h]
  case enum.enum a b =>
    refine ⟨.enum ⟨a.enumeration, a.values.inter b.values⟩, ?_⟩
    simp [inter, Choices.inter, Choices.combine, Choices.requireSame, h]
  all_goals exact ⟨_, rfl⟩

theorem family_of_inter (h : s.inter t = .ok u) : s.family = t.family ∧ u.family = s.family := by
  cases s <;> cases t <;> simp only [inter] at h <;> try cases h
  case numeric.numeric a b =>
    obtain ⟨c, hc, rfl⟩ := map_ok h
    unfold Quantities.inter Quantities.combine Quantities.requireSameDimension at hc
    split at hc
    · rename_i hunit
      cases hc
      exact ⟨congrArg Family.numbers (eq_of_beq hunit), rfl⟩
    · cases hc
  case enum.enum a b =>
    obtain ⟨c, hc, rfl⟩ := map_ok h
    unfold Choices.inter Choices.combine Choices.requireSame at hc
    split at hc
    · rename_i hname
      cases hc
      exact ⟨congrArg Family.members hname, rfl⟩
    · cases hc
  all_goals exact ⟨rfl, rfl⟩

variable [Ordered α]

/-- The numbers of the set are in normal form. -/
def Canonical : ValueSet α → Prop
  | numeric q => q.base.Canonical
  | _ => True

theorem canonical_inter (h : s.inter t = .ok u) : u.Canonical := by
  cases s <;> cases t <;> simp only [inter] at h <;> try cases h
  case numeric.numeric a b =>
    obtain ⟨c, hc, rfl⟩ := map_ok h
    rw [Canonical, (combine_ok hc).1]
    exact Numbers.canonical_inter ..
  case enum.enum a b =>
    obtain ⟨c, -, rfl⟩ := map_ok h
    trivial
  all_goals trivial

variable [Reading α]

/-- The values in the set, a number as a real one. -/
def points : ValueSet α → Set (Value ℝ)
  | numeric q => Value.number '' q.base.points
  | boolean b => Value.boolean '' {x | x ∈ b}
  | enum c => Value.enum '' {x | x ∈ c.values}
  | text t => Value.text '' {x | x ∈ t}

theorem number_injective : Function.Injective (Value.number (α := ℝ)) := fun _ _ => Value.number.inj

theorem boolean_injective : Function.Injective (Value.boolean (α := ℝ)) := fun _ _ => Value.boolean.inj

theorem enum_injective : Function.Injective (Value.enum (α := ℝ)) := fun _ _ => Value.enum.inj

theorem text_injective : Function.Injective (Value.text (α := ℝ)) := fun _ _ => Value.text.inj

theorem points_inter (hs : s.Canonical) (ht : t.Canonical) (h : s.inter t = .ok u) :
    u.points = s.points ∩ t.points := by
  cases s <;> cases t <;> simp only [inter] at h <;> try cases h
  case numeric.numeric a b =>
    obtain ⟨c, hc, rfl⟩ := map_ok h
    simp only [points, (combine_ok hc).1]
    rw [Numbers.points_inter hs ht, Set.image_inter number_injective]
  case boolean.boolean a b =>
    rw [points, points, points, ← Set.image_inter boolean_injective]
    exact congrArg _ (Set.ext fun x => Truths.mem_inter)
  case enum.enum a b =>
    obtain ⟨c, hc, rfl⟩ := map_ok h
    simp only [points, choices_combine_ok hc]
    rw [← Set.image_inter enum_injective]
    exact congrArg _ (Set.ext fun x => SortedSet.mem_inter)
  case text.text a b =>
    rw [points, points, points, ← Set.image_inter text_injective]
    exact congrArg _ (Set.ext fun x => Texts.mem_inter)

/-- Whatever a set is intersected with, nothing is added to it. -/
theorem points_inter_subset (hs : s.Canonical) (h : s.inter t = .ok u) : u.points ⊆ s.points := by
  cases hk : s with
  | numeric a =>
    subst hk
    cases t <;> simp only [inter] at h <;> try cases h
    obtain ⟨c, hc, rfl⟩ := map_ok h
    simp only [points, (combine_ok hc).1]
    exact Set.image_mono (Numbers.points_inter_subset hs)
  | _ =>
    -- there is no normal form to keep to
    have ht : t.Canonical := by
      rw [hk] at h
      cases t <;> trivial
    rw [← hk, points_inter hs ht h]
    exact Set.inter_subset_left

theorem isEmpty_iff_points (hs : s.Canonical) : s.isEmpty ↔ s.points = ∅ := by
  cases s with
  | numeric q => exact (Numbers.isEmpty_iff_points hs).trans Set.image_eq_empty.symm
  | boolean b =>
    rw [points, Set.image_eq_empty, Set.eq_empty_iff_forall_notMem]
    exact Truths.isEmpty_iff
  | enum c =>
    rw [points, Set.image_eq_empty, Set.eq_empty_iff_forall_notMem]
    exact SortedSet.isEmpty_iff
  | text t =>
    rw [points, Set.image_eq_empty, Set.eq_empty_iff_forall_notMem]
    exact Texts.isEmpty_iff_forall

theorem points_eq_of_beq (hs : s.Canonical) (ht : t.Canonical) (h : s == t) :
    s.points = t.points := by
  cases s <;> cases t <;> try cases h
  case numeric.numeric a b =>
    have hbase : a.base == b.base := (Bool.and_eq_true_iff.1 h).2
    rw [points, points, (Numbers.beq_iff_points hs ht).1 hbase]
  case boolean.boolean a b => rw [show a = b from eq_of_beq h]
  case enum.enum a b => rw [show a = b from eq_of_beq h]
  case text.text a b => rw [show a = b from eq_of_beq h]

theorem exists_image_eq_singleton_iff {β γ : Type} {f : β → γ} (hf : f.Injective) {a : Set β} :
    (∃ y, f '' a = {y}) ↔ ∃ x, a = {x} := by
  constructor
  · rintro ⟨y, hy⟩
    obtain ⟨x, -, rfl⟩ : y ∈ f '' a := hy ▸ Set.mem_singleton y
    exact ⟨x, Set.image_injective.2 hf (hy.trans Set.image_singleton.symm)⟩
  · rintro ⟨x, rfl⟩
    exact ⟨f x, Set.image_singleton⟩

theorem isSingleton_iff_points (hs : s.Canonical) : s.isSingleton ↔ ∃ x, s.points = {x} := by
  unfold isSingleton single?
  cases s with
  | numeric q =>
    rw [points, exists_image_eq_singleton_iff number_injective, Option.isSome_map]
    exact (Numbers.isSingleton_iff_points hs).trans Set.singleton_iff_unique_mem.symm
  | boolean b =>
    rw [points, exists_image_eq_singleton_iff boolean_injective, Option.isSome_map]
    exact Truths.isSome_single?_iff
  | enum c =>
    rw [points, exists_image_eq_singleton_iff enum_injective, Option.isSome_map]
    exact SortedSet.isSome_single?_iff
  | text t =>
    rw [points, exists_image_eq_singleton_iff text_injective, Option.isSome_map]
    exact Texts.isSome_single?_iff

theorem isSubset_eq (hs : s.Canonical) (ht : t.Canonical) (h : s.family = t.family) :
    ∃ b, s.isSubset t = .ok b ∧ (b ↔ s.points ⊆ t.points) := by
  cases s <;> cases t <;> simp only [family, reduceCtorEq, Family.numbers.injEq,
    Family.members.injEq] at h
  case numeric.numeric a b =>
    refine ⟨a.base.isSubset b.base, ?_, ?_⟩
    · simp [isSubset, Quantities.isSubset, Quantities.requireSameDimension,
        MeasureUnit.commensurable, h]
    · rw [points, points, Set.image_subset_image_iff number_injective]
      exact Numbers.isSubset_iff_points hs ht
  case boolean.boolean a b =>
    refine ⟨_, rfl, ?_⟩
    rw [points, points, Set.image_subset_image_iff boolean_injective]
    exact Truths.isSubset_iff
  case enum.enum a b =>
    refine ⟨a.values.isSubset b.values, ?_, ?_⟩
    · simp [isSubset, Choices.isSubset, Choices.requireSame, h]
    · rw [points, points, Set.image_subset_image_iff enum_injective]
      exact SortedSet.isSubset_iff
  case text.text a b =>
    refine ⟨_, rfl, ?_⟩
    rw [points, points, Set.image_subset_image_iff text_injective]
    exact Texts.isSubset_iff

end ValueSet

end ParameterSolver
