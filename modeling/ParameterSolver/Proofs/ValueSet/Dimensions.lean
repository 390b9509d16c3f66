import Mathlib.Algebra.BigOperators.Group.List.Basic
import Mathlib.Algebra.Group.Pi.Basic
import ParameterSolver.Proofs.ValueSet.Points

/-! The dimensions of units and of sets of values. They add up in products, and the operations on sets
fail because of units only for two sets of numbers whose dimensions differ. Arithmetic of sets without a
dimension does not fail. -/

namespace ParameterSolver

variable {α : Type} [Scalar α]

theorem eq_false_of_imp {x y : Bool} (h : x → y) (hy : y = false) : x = false :=
  Bool.eq_false_iff.2 fun hx => Bool.eq_false_iff.1 hy (h hx)

/-- The exponents of a dimension are in the range that a unit can have. -/
def Exponents.Fit (d : Dimension → ℤ) : Prop := ∀ b, (d b).natAbs ≤ 127

namespace MeasureUnit

variable {u v w : MeasureUnit α}

/-- The dimension that a unit measures. -/
def dims (u : MeasureUnit α) : Dimension → ℤ := u.exponents.get

omit [Scalar α] in
theorem commensurable_iff : u.commensurable v ↔ u.dims = v.dims := by
  rw [commensurable, beq_iff_eq]
  exact ⟨congrArg Exponents.get, fun h => Exponents.ext_get (congrFun h)⟩

@[simp] theorem dims_one : (one : MeasureUnit α).dims = 0 := by
  funext b
  exact Exponents.get_ofFn _ b

omit [Scalar α] in
theorem derive_eq_ok {e : Exponents} {x : α} (h : u.derive e x = .ok w) : w.exponents = e := by
  unfold derive at h
  split_ifs at h
  cases h
  rfl

omit [Scalar α] in
theorem exists_derive {e : Exponents} (h : Exponents.Fit e.get) (x : α) :
    ∃ w, u.derive e x = .ok w :=
  ⟨_, if_pos (Exponents.inRange_iff.2 h)⟩

theorem dims_of_mul (h : u.mul v = .ok w) : w.dims = u.dims + v.dims := by
  funext b
  simp [dims, derive_eq_ok h]

theorem dims_of_div (h : u.div v = .ok w) : w.dims = u.dims - v.dims := by
  funext b
  simp [dims, derive_eq_ok h, sub_eq_add_neg]

theorem exists_mul (h : Exponents.Fit (u.dims + v.dims)) : ∃ w, u.mul v = .ok w :=
  exists_derive (fun b => by simpa [dims] using h b) _

theorem exists_div (h : Exponents.Fit (u.dims - v.dims)) : ∃ w, u.div v = .ok w :=
  exists_derive (fun b => by simpa [dims, sub_eq_add_neg] using h b) _

theorem dims_of_inverse (h : u.power (-1) = .ok w) : w.dims = -u.dims := by
  rw [power, if_neg (by decide)] at h
  funext b
  simp [dims, derive_eq_ok h]

@[simp] theorem dims_coherent (u : MeasureUnit α) : u.coherent.dims = u.dims := by
  unfold coherent
  cases h : coherentUnits.find? (·.commensurable u) with
  | none => rfl
  | some v =>
    have hv := List.find?_some h
    exact commensurable_iff.1 hv

end MeasureUnit

namespace Quantities

open MeasureUnit

variable {f : Numbers α → Numbers α → Numbers α} {a b : Quantities α}

omit [Scalar α] in
theorem error_of_combine {e : SetError α} (h : combine f a b = .error e) :
    a.unit.commensurable b.unit = false := by
  unfold combine requireSameDimension at h
  split at h
  · cases h
  · rename_i hunit
    exact Bool.eq_false_iff.2 hunit

end Quantities

namespace ValueSet

variable {a b c : ValueSet α} {d : Dimension → ℤ}

/-- The numbers of the set, if it is one of numbers, are of the dimension. -/
def Measures (d : Dimension → ℤ) (s : ValueSet α) : Prop :=
  ∀ q, s = .numeric q → q.unit.dims = d

/-- The numbers of the set, if it has any, are of the dimension. -/
def Fits (d : Dimension → ℤ) (s : ValueSet α) : Prop := s.isEmpty = false → s.Measures d

omit [Scalar α] in
theorem measures_numeric {q : Quantities α} : (numeric q).Measures d ↔ q.unit.dims = d :=
  ⟨fun h => h q rfl, by rintro h _ ⟨⟩; exact h⟩

omit [Scalar α] in
theorem measures_boolean {t : Truths} : (boolean t : ValueSet α).Measures d := fun _ h => by cases h

omit [Scalar α] in
theorem Measures.fits (h : a.Measures d) : a.Fits d := fun _ => h

omit [Scalar α] in
theorem fits_of_isEmpty (h : a.isEmpty) : a.Fits d := fun he => by simp [h] at he

omit [Scalar α] in
/-- A set that has elements only if another has, and is then of the same dimension. -/
theorem Fits.imp (h : a.Fits d) (hempty : a.isEmpty → c.isEmpty) (hm : a.Measures d → c.Measures d) :
    c.Fits d := fun hfed => hm (h (eq_false_of_imp hempty hfed))

/-- Two sets of numbers are of one dimension unless one of them has no elements. -/
def Comparable (a b : ValueSet α) : Prop :=
  ∀ p q, a = .numeric p → b = .numeric q → p.unit.commensurable q.unit = false → a.isEmpty ∨ b.isEmpty

omit [Scalar α] in
theorem Fits.comparable (ha : a.Fits d) (hb : b.Fits d) : a.Comparable b := by
  intro p q hp hq hunit
  by_contra hempty
  push Not at hempty
  have hpd := ha (Bool.eq_false_iff.2 hempty.1) p hp
  have hqd := hb (Bool.eq_false_iff.2 hempty.2) q hq
  rw [MeasureUnit.commensurable_iff.2 (hpd.trans hqd.symm)] at hunit
  cases hunit

/-- An operation on sets of one dimension keeps it, and fails for two dimensions only for two sets of
numbers that differ in theirs. -/
structure Dimensional (op : ValueSet α → ValueSet α → Except (SetError α) (ValueSet α)) : Prop where
  unit : ∀ a b q, op a b = .ok (.numeric q) → ∃ p, a = .numeric p ∧ q.unit = p.unit
  mismatch : ∀ a b u v, op a b = .error (.unitMismatch u v) →
    ∃ p q, a = .numeric p ∧ b = .numeric q ∧ p.unit.commensurable q.unit = false

omit [Scalar α] in
theorem Dimensional.measures {op : ValueSet α → ValueSet α → Except (SetError α) (ValueSet α)}
    (hop : Dimensional op) (ha : a.Measures d) (h : op a b = .ok c) : c.Measures d := by
  rintro q rfl
  obtain ⟨p, hp, hunit⟩ := hop.unit a b q h
  rw [hunit]
  exact ha p hp

omit [Scalar α] in
theorem map_error {β γ : Type} {f : β → γ} {r : Except (SetError α) β} {e : SetError α}
    (h : f <$> r = .error e) : r = .error e := by
  cases r with
  | ok x => cases h
  | error e' => exact congrArg Except.error (Except.error.inj h)

omit [Scalar α] in
theorem error_of_choices {f : SortedSet String → SortedSet String → SortedSet String} {s t : Choices}
    {u v : MeasureUnit α} : Choices.combine f s t ≠ .error (.unitMismatch u v) := by
  unfold Choices.combine Choices.requireSame
  split <;> nofun

/-- The four operations on sets go by kind; only sets of numbers have units. -/
theorem dimensional_of {op : ValueSet α → ValueSet α → Except (SetError α) (ValueSet α)}
    (f : Numbers α → Numbers α → Numbers α) (g : Truths → Truths → Truths)
    (h : SortedSet String → SortedSet String → SortedSet String) (i : Texts → Texts → Texts)
    (hop : ∀ a b, op a b = match a, b with
      | .numeric p, .numeric q => ValueSet.numeric <$> Quantities.combine f p q
      | .boolean p, .boolean q => .ok (.boolean (g p q))
      | .enum p, .enum q => ValueSet.enum <$> Choices.combine h p q
      | .text p, .text q => .ok (.text (i p q))
      | a, b => .error (.kindMismatch a.kind b.kind)) : Dimensional op where
  unit a b q hq := by
    rw [hop] at hq
    cases a <;> cases b <;> dsimp only at hq <;> try cases hq
    · obtain ⟨c, hc, ⟨⟩⟩ := map_ok hq
      exact ⟨_, rfl, (combine_ok hc).2⟩
    · obtain ⟨c, -, ⟨⟩⟩ := map_ok hq
  mismatch a b u v he := by
    rw [hop] at he
    cases a <;> cases b <;> dsimp only at he <;> try cases he
    · exact ⟨_, _, rfl, rfl, Quantities.error_of_combine (map_error he)⟩
    · exact absurd (map_error he) error_of_choices

theorem dimensional_union : Dimensional (union : ValueSet α → _) :=
  dimensional_of Numbers.union Truths.union SortedSet.union Texts.union
    fun a b => by cases a <;> cases b <;> rfl

theorem dimensional_inter : Dimensional (inter : ValueSet α → _) :=
  dimensional_of Numbers.inter Truths.inter SortedSet.inter Texts.inter
    fun a b => by cases a <;> cases b <;> rfl

theorem dimensional_diff : Dimensional (diff : ValueSet α → _) :=
  dimensional_of Numbers.diff Truths.diff SortedSet.diff Texts.diff
    fun a b => by cases a <;> cases b <;> rfl

theorem dimensional_symmDiff : Dimensional (symmDiff : ValueSet α → _) :=
  dimensional_of Numbers.symmDiff Truths.symmDiff SortedSet.symmDiff Texts.symmDiff
    fun a b => by cases a <;> cases b <;> rfl

theorem error_of_isSubset {u v : MeasureUnit α} (h : a.isSubset b = .error (.unitMismatch u v)) :
    ∃ p q, a = .numeric p ∧ b = .numeric q ∧ p.unit.commensurable q.unit = false := by
  cases a <;> cases b <;> try cases h
  · refine ⟨_, _, rfl, rfl, ?_⟩
    simp only [isSubset, Quantities.isSubset, Quantities.requireSameDimension] at h
    split at h
    · cases h
    · rename_i hunit
      exact Bool.eq_false_iff.2 hunit
  · simp only [isSubset, Choices.isSubset, Choices.requireSame] at h
    split at h <;> cases h

end ValueSet

theorem Exponents.fit_zero : Fit 0 := fun _ => Nat.zero_le _

namespace Quantities

variable {p q : Quantities α}

theorem isDimensionless_iff : q.isDimensionless ↔ q.unit.dims = 0 := by
  rw [← MeasureUnit.dims_one (α := α), ← MeasureUnit.commensurable_iff]
  rfl

theorem add_ok (h : p.unit.dims = q.unit.dims) : p.add q = .ok ⟨p.base.add q.base, p.unit⟩ := by
  have hsame : p.unit.commensurable q.unit := MeasureUnit.commensurable_iff.2 h
  simp only [add, combine, requireSameDimension, hsame]
  rfl

theorem exists_mul (hp : p.unit.dims = 0) (hq : q.unit.dims = 0) :
    ∃ u, p.mul q = .ok ⟨p.base.mul q.base, u⟩ ∧ u.dims = 0 := by
  obtain ⟨u, hu⟩ := MeasureUnit.exists_mul (u := p.unit) (v := q.unit) (by rw [hp, hq]; exact Exponents.fit_zero)
  refine ⟨u.coherent, by rw [mul, hu]; rfl, ?_⟩
  rw [MeasureUnit.dims_coherent, MeasureUnit.dims_of_mul hu, hp, hq, add_zero]

theorem exists_invert (hq : q.unit.dims = 0) :
    ∃ u, q.invert = .ok ⟨q.base.invert, u⟩ ∧ u.dims = 0 := by
  have hpower : ∃ u, q.unit.power (-1) = .ok u := by
    rw [MeasureUnit.power, if_neg (by decide)]
    refine MeasureUnit.exists_derive (fun b => ?_) _
    have hb : q.unit.exponents.get b = 0 := congrFun hq b
    simp [hb]
  obtain ⟨u, hu⟩ := hpower
  refine ⟨u.coherent, by rw [invert, hu]; rfl, ?_⟩
  rw [MeasureUnit.dims_coherent, MeasureUnit.dims_of_inverse hu, hq, neg_zero]

theorem pow_plain (hq : q.unit.dims = 0) (s : Numbers α) : q.pow (plain s) = .ok (plain (q.base.pow s)) := by
  have hplain : (plain s).isDimensionless := isDimensionless_iff.2 MeasureUnit.dims_one
  simp only [pow, requireDimensionless, hplain, isDimensionless_iff.2 hq]
  rfl

theorem sin_ok (hq : q.unit.dims = 0) : q.sin = .ok (plain q.base.sin) := by
  simp only [sin, requireDimensionless, isDimensionless_iff.2 hq]
  rfl

/-- A set of numbers without a dimension, in normal form. -/
structure Bare [Scalar.Ordered α] (q : Quantities α) : Prop where
  canonical : q.base.Canonical
  dims : q.unit.dims = 0

theorem Bare.beq [Scalar.Ordered α] [Scalar.Reading α] (hp : p.Bare) (hq : q.Bare) (h : p.base = q.base) :
    p == q := by
  refine Bool.and_eq_true_iff.2 ⟨MeasureUnit.commensurable_iff.2 (hp.dims.trans hq.dims.symm), ?_⟩
  exact (Numbers.beq_iff_points hp.canonical hq.canonical).2 (congrArg _ h)

end Quantities

end ParameterSolver
