import ParameterSolver.Proofs.Propagation.Canonical

/-! The operations on sets of values by their points. On sets in normal form and of one family each of
them succeeds, and its result is again in normal form and of the family. Two such sets are equal if
they have the same points. -/

namespace ParameterSolver

open Scalar Scalar.Ordered
open scoped symmDiff

namespace Operator

variable {β γ : Type} {op : Operator}

/-- The operation on sets that an operator stands for. -/
def onSets (op : Operator) (a b : Set β) : Set β :=
  match op with
  | .union => a ∪ b
  | .intersection => a ∩ b
  | .difference => a \ b
  | .symmetricDifference => a ∆ b
  | _ => ∅

/-- An operator over any number of sets, from the left. -/
def overSets (op : Operator) : List (Set β) → Set β
  | [] => ∅
  | a :: l => l.foldl op.onSets a

theorem onSets_image {f : β → γ} (hf : f.Injective) (a b : Set β) :
    op.onSets (f '' a) (f '' b) = f '' op.onSets a b := by
  cases op with
  | union => exact (Set.image_union f a b).symm
  | intersection => exact (Set.image_inter hf).symm
  | difference => exact (Set.image_sdiff hf a b).symm
  | symmetricDifference => exact (Set.image_symmDiff hf a b).symm
  | _ => exact (Set.image_empty f).symm

end Operator

namespace Truths

variable {s t : Truths} {b : Bool}

theorem mem_diff : b ∈ s.diff t ↔ b ∈ s ∧ b ∉ t := by
  cases b <;> simp [mem_def, contains, diff]

theorem mem_symmDiff : b ∈ s.symmDiff t ↔ b ∈ s ∧ b ∉ t ∨ b ∈ t ∧ b ∉ s := by
  obtain ⟨f, g⟩ := s
  obtain ⟨f', g'⟩ := t
  simp only [mem_def, contains, symmDiff]
  revert b f g f' g'
  decide

theorem eq_of_forall_mem (h : ∀ b, b ∈ s ↔ b ∈ t) : s = t := by
  have hfalse := h false
  have htrue := h true
  simp only [mem_def, contains, Bool.false_eq_true, if_false, if_true, ← Bool.eq_iff_iff] at hfalse htrue
  cases s
  cases t
  simp_all

end Truths

namespace Texts

variable {s t : Texts} {x : String}

theorem mem_diff : x ∈ s.diff t ↔ x ∈ s ∧ x ∉ t := by rw [diff, mem_inter, mem_compl]

theorem mem_symmDiff : x ∈ s.symmDiff t ↔ x ∈ s ∧ x ∉ t ∨ x ∈ t ∧ x ∉ s := by
  rw [symmDiff, mem_union, mem_diff, mem_diff]

theorem finite_only (l : SortedSet String) : {x | x ∈ only l}.Finite := by
  have hset : {x | x ∈ only l} = {x | x ∈ l.toList} := by
    ext x
    simp [mem_def, contains, SortedSet.mem_def]
  rw [hset]
  exact List.finite_toSet l.toList

theorem eq_of_forall_mem (h : ∀ x, x ∈ s ↔ x ∈ t) : s = t := by
  have hset : {x | x ∈ s} = {x | x ∈ t} := Set.ext h
  cases s with
  | only l =>
    cases t with
    | only m => exact congrArg only (SortedSet.ext fun x => by simpa [mem_def, contains] using h x)
    | allBut m => exact absurd (finite_only l) (hset ▸ infinite_allBut m)
  | allBut l =>
    cases t with
    | only m => exact absurd (finite_only m) (hset ▸ infinite_allBut l)
    | allBut m =>
      exact congrArg allBut (SortedSet.ext fun x => by simpa [mem_def, contains, not_iff_not] using h x)

end Texts

namespace Numbers

variable {α : Type} [Scalar α] [Ordered α] [Scalar.Reading α] {s t : Numbers α}

theorem points_diff (hs : s.Canonical) (ht : t.Canonical) :
    (s.diff t).points = s.points \ t.points := by
  rw [diff, points_inter hs (canonical_compl t), points_compl ht]
  rfl

theorem points_symmDiff (hs : s.Canonical) (ht : t.Canonical) :
    (s.symmDiff t).points = s.points ∆ t.points := by
  rw [symmDiff, points_union (canonical_diff s t) (canonical_diff t s), points_diff hs ht,
    points_diff ht hs]
  rfl

end Numbers

namespace ValueSet

variable {α : Type} [Scalar α]

/-- The operation on sets of values that evaluation uses for an operator. -/
def operation (op : Operator) (s t : ValueSet α) : Except (SetError α) (ValueSet α) :=
  match op with
  | .intersection => s.inter t
  | .difference => s.diff t
  | .symmetricDifference => s.symmDiff t
  | _ => s.union t

variable [Ordered α] [Scalar.Reading α] {op : Operator} {s t : ValueSet α}

/-- Sets with the same points and of one family are equal. -/
theorem beq_of_points (hs : s.Canonical) (ht : t.Canonical) (hfamily : s.family = t.family)
    (hpoints : s.points = t.points) : s == t := by
  cases s <;> cases t <;> simp only [family, reduceCtorEq, Family.numbers.injEq,
    Family.members.injEq] at hfamily
  case numeric.numeric a b =>
    have hbase : a.base.points = b.base.points := Set.image_injective.2 number_injective hpoints
    exact Bool.and_eq_true_iff.2 ⟨beq_iff_eq.2 hfamily, (Numbers.beq_iff_points hs ht).2 hbase⟩
  case boolean.boolean a b =>
    have hmem := Set.image_injective.2 boolean_injective hpoints
    exact (beq_iff_eq (α := Truths)).2 (Truths.eq_of_forall_mem (Set.ext_iff.1 hmem))
  case enum.enum a b =>
    have hmem := Set.image_injective.2 enum_injective hpoints
    have hvalues : a.values = b.values := SortedSet.ext (Set.ext_iff.1 hmem)
    refine (beq_iff_eq (α := Choices)).2 ?_
    cases a
    cases b
    simp_all
  case text.text a b =>
    have hmem := Set.image_injective.2 text_injective hpoints
    exact (beq_iff_eq (α := Texts)).2 (Texts.eq_of_forall_mem (Set.ext_iff.1 hmem))

section Kinds

omit [Ordered α]

variable {p q : Quantities α} {b b' : Truths} {c c' : Choices} {x x' : Texts}

/-- The result is there, in normal form and of the family, and has the points that the operator makes
of those of the operands. -/
def Results (op : Operator) (s t : ValueSet α) (r : Except (SetError α) (ValueSet α)) : Prop :=
  ∃ u, r = .ok u ∧ u.Canonical ∧ u.family = s.family ∧ u.points = op.onSets s.points t.points

theorem results_combine {f : Numbers α → Numbers α → Numbers α}
    (h : p.unit.exponents = q.unit.exponents) (hf : (f p.base q.base).Canonical)
    (hpoints : (f p.base q.base).points = op.onSets p.base.points q.base.points) :
    Results op (numeric p) (numeric q) (numeric <$> Quantities.combine f p q) := by
  refine ⟨numeric ⟨f p.base q.base, p.unit⟩, ?_, hf, rfl, ?_⟩
  · simp [Quantities.combine, Quantities.requireSameDimension, MeasureUnit.commensurable, h]
  · simp only [points, hpoints, Operator.onSets_image number_injective]

theorem results_choices {f : SortedSet String → SortedSet String → SortedSet String}
    (h : c.enumeration = c'.enumeration)
    (hmem : {y | y ∈ f c.values c'.values} = op.onSets {y | y ∈ c.values} {y | y ∈ c'.values}) :
    Results op (enum c : ValueSet α) (enum c') (enum <$> Choices.combine f c c') := by
  refine ⟨enum ⟨c.enumeration, f c.values c'.values⟩, ?_, trivial, rfl, ?_⟩
  · simp [Choices.combine, Choices.requireSame, h]
  · simp only [points, hmem, Operator.onSets_image enum_injective]

theorem results_truths {f : Truths → Truths → Truths}
    (hmem : {y | y ∈ f b b'} = op.onSets {y | y ∈ b} {y | y ∈ b'}) :
    Results op (boolean b : ValueSet α) (boolean b') (.ok (boolean (f b b'))) :=
  ⟨_, rfl, trivial, rfl, by simp only [points, hmem, Operator.onSets_image boolean_injective]⟩

theorem results_texts {f : Texts → Texts → Texts}
    (hmem : {y | y ∈ f x x'} = op.onSets {y | y ∈ x} {y | y ∈ x'}) :
    Results op (text x : ValueSet α) (text x') (.ok (text (f x x'))) :=
  ⟨_, rfl, trivial, rfl, by simp only [points, hmem, Operator.onSets_image text_injective]⟩

end Kinds

/-- The four operations on sets of one family succeed and go by points. -/
theorem results_operation (hop : Propagation.keepsExactness op) (hs : s.Canonical)
    (ht : t.Canonical) (h : s.family = t.family) : Results op s t (operation op s t) := by
  cases s <;> cases t <;> simp only [family, reduceCtorEq, Family.numbers.injEq,
    Family.members.injEq] at h
  case numeric.numeric a b =>
    cases op <;> cases hop
    case union => exact results_combine h (hs.union ht) (Numbers.points_union hs ht)
    case symmetricDifference =>
      exact results_combine h (Numbers.canonical_symmDiff _ _) (Numbers.points_symmDiff hs ht)
    case intersection =>
      exact results_combine h (Numbers.canonical_inter _ _) (Numbers.points_inter hs ht)
    case difference =>
      exact results_combine h (Numbers.canonical_diff _ _) (Numbers.points_diff hs ht)
  case boolean.boolean a b =>
    cases op <;> cases hop
    case union => exact results_truths (Set.ext fun _ => Truths.mem_union)
    case symmetricDifference => exact results_truths (Set.ext fun _ => Truths.mem_symmDiff)
    case intersection => exact results_truths (Set.ext fun _ => Truths.mem_inter)
    case difference => exact results_truths (Set.ext fun _ => Truths.mem_diff)
  case enum.enum a b =>
    cases op <;> cases hop
    case union => exact results_choices h (Set.ext fun _ => SortedSet.mem_union)
    case symmetricDifference => exact results_choices h (Set.ext fun _ => SortedSet.mem_symmDiff)
    case intersection => exact results_choices h (Set.ext fun _ => SortedSet.mem_inter)
    case difference => exact results_choices h (Set.ext fun _ => SortedSet.mem_diff)
  case text.text a b =>
    cases op <;> cases hop
    case union => exact results_texts (Set.ext fun _ => Texts.mem_union)
    case symmetricDifference => exact results_texts (Set.ext fun _ => Texts.mem_symmDiff)
    case intersection => exact results_texts (Set.ext fun _ => Texts.mem_inter)
    case difference => exact results_texts (Set.ext fun _ => Texts.mem_diff)

end ValueSet

/-! Sets of texts are the finite and the cofinite ones, and they are known by their members. Whether a
set is empty, or a part of another, is read off the way it is written, which is right because there are
always further texts. -/

namespace Texts

variable {s t : Texts} {x : String}

theorem exists_mem_allBut_notMem_only (l m : SortedSet String) : ∃ x, x ∈ allBut m ∧ x ∉ only l := by
  obtain ⟨x, hm, hl⟩ := (infinite_allBut m).exists_notMem_finite (finite_only l)
  exact ⟨x, hm, hl⟩

theorem eq_iff_forall_mem : s = t ↔ ∀ x, x ∈ s ↔ x ∈ t :=
  ⟨fun h _ => h ▸ Iff.rfl, eq_of_forall_mem⟩

theorem single?_eq_some_iff : s.single? = some x ↔ ∀ y, y ∈ s ↔ y = x := by
  refine ⟨fun h _ => mem_of_single h, fun h => ?_⟩
  -- a set with one member does list it, and what it lists is that member
  obtain ⟨z, hz⟩ := Option.isSome_iff_exists.1 (isSome_single?_iff.2 ⟨x, Set.ext h⟩)
  rw [hz, (mem_of_single hz).1 ((h x).2 rfl)]

/-- Sets of texts are an algebra of sets: every operation is that of the members, and emptiness,
inclusion, the only member and equality are what the members say, over all texts there are. -/
theorem algebra_of_members (s t : Texts) :
    (∀ x, x ∈ s.union t ↔ x ∈ s ∨ x ∈ t) ∧
    (∀ x, x ∈ s.inter t ↔ x ∈ s ∧ x ∈ t) ∧
    (∀ x, x ∈ s.compl ↔ x ∉ s) ∧
    (∀ x, x ∈ s.diff t ↔ x ∈ s ∧ x ∉ t) ∧
    (∀ x, x ∈ s.symmDiff t ↔ Xor (x ∈ s) (x ∈ t)) ∧
    (s.isSubset t = true ↔ ∀ x ∈ s, x ∈ t) ∧
    (s.isEmpty = true ↔ ∀ x, x ∉ s) ∧
    (∀ x, s.single? = some x ↔ ∀ y, y ∈ s ↔ y = x) ∧
    ((s == t) = true ↔ ∀ x, x ∈ s ↔ x ∈ t) ∧
    (∀ l m, (only l == allBut m) = false ∧ (allBut m == only l) = false ∧
      ∃ x, x ∈ allBut m ∧ x ∉ only l) :=
  ⟨fun _ => mem_union, fun _ => mem_inter, fun _ => mem_compl, fun _ => mem_diff,
    fun _ => mem_symmDiff, isSubset_iff, isEmpty_iff_forall, fun _ => single?_eq_some_iff,
    beq_iff_eq.trans eq_iff_forall_mem,
    fun l m => ⟨rfl, rfl, exists_mem_allBut_notMem_only l m⟩⟩

end Texts

end ParameterSolver
