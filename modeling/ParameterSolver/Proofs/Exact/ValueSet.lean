import ParameterSolver.ValueSet.Basic
import ParameterSolver.Proofs.Exact.Image

/-! Sets of values by their elements. A number of a value is rational, in base units; only the set
that bounds it knows of infinities. -/

namespace ParameterSolver

open Exact

namespace SortedSet

variable {κ : Type} [Ord κ]

theorem isEmpty_iff {s : SortedSet κ} : s.isEmpty = true ↔ ∀ x, x ∉ s := by
  simp [isEmpty, List.isEmpty_iff, List.eq_nil_iff_forall_not_mem, mem_def]

theorem mem_of_single {s : SortedSet κ} {x : κ} (h : s.single? = some x) {y : κ} :
    y ∈ s ↔ y = x := by
  unfold single? at h
  split at h
  · rename_i z hz
    cases h
    simp [mem_def, hz]
  · cases h

end SortedSet

namespace Truths

theorem isEmpty_iff {s : Truths} : s.isEmpty = true ↔ ∀ b, b ∉ s := by
  obtain ⟨f, t⟩ := s
  cases f <;> cases t <;> simp [isEmpty, mem_def, contains]

theorem mem_of_single {s : Truths} {b : Bool} (h : s.single? = some b) {c : Bool} :
    c ∈ s ↔ c = b := by
  obtain ⟨f, t⟩ := s
  cases f <;> cases t <;> cases b <;> cases c <;> simp_all [single?, mem_def, contains]

theorem mem_of {b c : Bool} : c ∈ of b ↔ c = b := by
  cases b <;> cases c <;> simp [of, mem_def, contains]

theorem mem_inter {s t : Truths} {b : Bool} : b ∈ s.inter t ↔ b ∈ s ∧ b ∈ t := by
  cases b <;> simp [inter, mem_def, contains]

theorem mem_union {s t : Truths} {b : Bool} : b ∈ s.union t ↔ b ∈ s ∨ b ∈ t := by
  cases b <;> simp [union, mem_def, contains]

theorem mem_of_isSubset {s t : Truths} {b : Bool} (h : s.isSubset t) (hb : b ∈ s) : b ∈ t := by
  cases b <;> simp_all [isSubset, mem_def, contains]

theorem mem_all (b : Bool) : b ∈ all := by cases b <;> rfl

theorem mem_not {s : Truths} {b : Bool} : (!b) ∈ s.not ↔ b ∈ s := by
  cases b <;> simp [not, mem_def, contains]

theorem mem_or {s t : Truths} {b c : Bool} (hb : b ∈ s) (hc : c ∈ t) : (b || c) ∈ s.or t := by
  obtain ⟨f, g⟩ := s
  obtain ⟨f', g'⟩ := t
  cases b <;> cases c <;> simp_all [or, mem_def, contains, isEmpty]

/-- A function of several truth values takes no value outside its image. -/
theorem mem_image {f : List Bool → Bool} {sets : List Truths} {bs : List Bool}
    (h : List.Forall₂ (· ∈ ·) bs sets) : f bs ∈ image f sets := by
  induction h generalizing f with
  | nil => exact mem_of.2 rfl
  | @cons b s bs sets hb _ ih =>
    rw [image, mem_union]
    cases b with
    | false => left; rw [if_pos (by simpa [mem_def, contains] using hb)]; exact ih
    | true => right; rw [if_pos (by simpa [mem_def, contains] using hb)]; exact ih

end Truths

namespace Texts

theorem isEmpty_iff {s : Texts} (h : s.isEmpty = true) (x : String) : x ∉ s := by
  cases s with
  | only l => simpa [mem_def, contains] using SortedSet.isEmpty_iff.1 h x
  | allBut l => cases h

theorem mem_inter {s t : Texts} {x : String} : x ∈ s.inter t ↔ x ∈ s ∧ x ∈ t := by
  cases s <;> cases t <;> simp [inter, mem_def, contains, and_comm]

theorem mem_compl {s : Texts} {x : String} : x ∈ s.compl ↔ x ∉ s := by
  cases s <;> simp [compl, mem_def, contains]

theorem mem_union {s t : Texts} {x : String} : x ∈ s.union t ↔ x ∈ s ∨ x ∈ t := by
  cases s <;> cases t <;> simp [union, mem_def, contains]
  all_goals tauto

theorem mem_of_isSubset {s t : Texts} {x : String} (h : s.isSubset t) (hx : x ∈ s) : x ∈ t := by
  by_contra ht
  exact isEmpty_iff h x (mem_inter.2 ⟨hx, mem_compl.2 ht⟩)

theorem mem_of_single {s : Texts} {x : String} (h : s.single? = some x) {y : String} :
    y ∈ s ↔ y = x := by
  cases s with
  | only l => simpa [mem_def, contains] using SortedSet.mem_of_single h
  | allBut l => cases h

end Texts

namespace ValueSet

variable {s t u : ValueSet Exact} {x y : Value ℚ}

def Holds : ValueSet Exact → Value ℚ → Prop
  | numeric q, .number x => finite x ∈ q.base
  | boolean b, .boolean x => x ∈ b
  | enum c, .enum x => x ∈ c.values
  | text t, .text x => x ∈ t
  | _, _ => False

instance : Membership (Value ℚ) (ValueSet Exact) := ⟨Holds⟩

@[simp] theorem number_mem {q : Quantities Exact} {x : ℚ} :
    Value.number x ∈ numeric q ↔ finite x ∈ q.base := Iff.rfl

@[simp] theorem boolean_mem {b : Truths} {x : Bool} :
    (Value.boolean x : Value ℚ) ∈ (boolean b : ValueSet Exact) ↔ x ∈ b := Iff.rfl

@[simp] theorem enum_mem {c : Choices} {x : String} :
    (Value.enum x : Value ℚ) ∈ (enum c : ValueSet Exact) ↔ x ∈ c.values := Iff.rfl

@[simp] theorem text_mem {t : Texts} {x : String} :
    (Value.text x : Value ℚ) ∈ (text t : ValueSet Exact) ↔ x ∈ t := Iff.rfl

theorem mem_numeric {q : Quantities Exact} :
    x ∈ numeric q ↔ ∃ r, x = .number r ∧ finite r ∈ q.base := by
  cases x <;> simp [Membership.mem, Holds]

theorem mem_number {q : ℚ} : x ∈ number (finite q) ↔ x = .number q := by
  rw [number, mem_numeric]
  simp only [Quantities.plain, Numbers.mem_singleton, exists_eq_right]

theorem mem_boolean {b : Truths} :
    x ∈ (boolean b : ValueSet Exact) ↔ ∃ c, x = .boolean c ∧ c ∈ b := by
  cases x <;> simp [Membership.mem, Holds]

theorem mem_enum {c : Choices} :
    x ∈ (enum c : ValueSet Exact) ↔ ∃ m, x = .enum m ∧ m ∈ c.values := by
  cases x <;> simp [Membership.mem, Holds]

theorem mem_text {t : Texts} :
    x ∈ (text t : ValueSet Exact) ↔ ∃ m, x = .text m ∧ m ∈ t := by
  cases x <;> simp [Membership.mem, Holds]

/-- The numbers of the set are in normal form. -/
def Normal : ValueSet Exact → Prop
  | numeric q => q.base.Normal
  | _ => True

theorem normal_truth (b : Bool) : (truth b : ValueSet Exact).Normal := trivial

theorem mem_truth {b : Bool} : x ∈ (truth b : ValueSet Exact) ↔ x = .boolean b := by
  simp [truth, mem_boolean, Truths.mem_of]

theorem mem_of_isTrue (h : s.isTrue) (hx : x ∈ s) : x = .boolean true := by
  cases s with
  | boolean b =>
    rw [show b = .of true by simpa [isTrue] using h] at hx
    exact mem_truth.1 hx
  | _ => simp [isTrue] at h

theorem mem_of_isFalse (h : s.isFalse) (hx : x ∈ s) : x = .boolean false := by
  cases s with
  | boolean b =>
    rw [show b = .of false by simpa [isFalse] using h] at hx
    exact mem_truth.1 hx
  | _ => simp [isFalse] at h

/-- A set without elements is empty as far as anybody can tell. -/
theorem not_mem_of_isEmpty (hs : s.Normal) (h : s.isEmpty) : x ∉ s := by
  cases s with
  | numeric q =>
    rw [mem_numeric]
    rintro ⟨r, -, hr⟩
    exact (Numbers.Normal.isEmpty_iff hs).1 h r hr
  | boolean b =>
    rw [mem_boolean]
    rintro ⟨c, -, hc⟩
    exact Truths.isEmpty_iff.1 h c hc
  | enum c =>
    rw [mem_enum]
    rintro ⟨m, -, hm⟩
    exact SortedSet.isEmpty_iff.1 h m hm
  | text t =>
    rw [mem_text]
    rintro ⟨m, -, hm⟩
    exact Texts.isEmpty_iff h m hm

theorem combine_ok {α : Type} [Scalar α] {f : Numbers α → Numbers α → Numbers α}
    {a b c : Quantities α} (h : Quantities.combine f a b = .ok c) :
    c.base = f a.base b.base ∧ c.unit = a.unit := by
  unfold Quantities.combine Quantities.requireSameDimension at h
  split at h
  · cases h; exact ⟨rfl, rfl⟩
  · cases h

theorem choices_combine_ok {α : Type} {f : SortedSet String → SortedSet String → SortedSet String}
    {a b c : Choices} (h : Choices.combine (α := α) f a b = .ok c) :
    c.values = f a.values b.values := by
  unfold Choices.combine Choices.requireSame at h
  split at h
  · cases h; rfl
  · cases h

theorem map_ok {ε α β : Type} {f : α → β} {e : Except ε α} {y : β} (h : f <$> e = .ok y) :
    ∃ x, e = .ok x ∧ f x = y := by
  cases e with
  | error => cases h
  | ok x => exact ⟨x, rfl, Except.ok.inj h⟩

theorem mem_inter (hs : s.Normal) (ht : t.Normal) (h : s.inter t = .ok u) :
    x ∈ u ↔ x ∈ s ∧ x ∈ t := by
  cases s <;> cases t <;> simp only [inter] at h <;> try cases h
  case numeric.numeric a b =>
    obtain ⟨c, hc, rfl⟩ := map_ok h
    simp only [mem_numeric, (combine_ok hc).1, Numbers.mem_inter hs ht]
    grind
  case boolean.boolean a b => simp only [mem_boolean, Truths.mem_inter]; grind
  case enum.enum a b =>
    obtain ⟨c, hc, rfl⟩ := map_ok h
    simp only [mem_enum, choices_combine_ok hc, SortedSet.mem_inter]
    grind
  case text.text a b => simp only [mem_text, Texts.mem_inter]; grind

theorem Normal.inter (h : s.inter t = .ok u) : u.Normal := by
  cases s <;> cases t <;> simp only [ValueSet.inter] at h <;> try cases h
  case numeric.numeric a b =>
    obtain ⟨c, hc, rfl⟩ := map_ok h
    rw [Normal, (combine_ok hc).1]
    exact Numbers.normal_inter ..
  case enum.enum a b =>
    obtain ⟨c, -, rfl⟩ := map_ok h
    trivial
  all_goals trivial

theorem mem_union (hs : s.Normal) (ht : t.Normal) (h : s.union t = .ok u) :
    x ∈ u ↔ x ∈ s ∨ x ∈ t := by
  cases s <;> cases t <;> simp only [union] at h <;> try cases h
  case numeric.numeric a b =>
    obtain ⟨c, hc, rfl⟩ := map_ok h
    simp only [mem_numeric, (combine_ok hc).1, Numbers.mem_union hs ht]
    grind
  case boolean.boolean a b => simp only [mem_boolean, Truths.mem_union]; grind
  case enum.enum a b =>
    obtain ⟨c, hc, rfl⟩ := map_ok h
    simp only [mem_enum, choices_combine_ok hc, SortedSet.mem_union]
    grind
  case text.text a b => simp only [mem_text, Texts.mem_union]; grind

theorem Normal.union (hs : s.Normal) (ht : t.Normal) (h : s.union t = .ok u) : u.Normal := by
  cases s <;> cases t <;> simp only [ValueSet.union] at h <;> try cases h
  case numeric.numeric a b =>
    obtain ⟨c, hc, rfl⟩ := map_ok h
    rw [Normal, (combine_ok hc).1]
    exact Numbers.Normal.union hs ht
  case enum.enum a b =>
    obtain ⟨c, -, rfl⟩ := map_ok h
    trivial
  all_goals trivial

theorem mem_of_isSubset (hs : s.Normal) (ht : t.Normal) (h : s.isSubset t = .ok true)
    (hx : x ∈ s) : x ∈ t := by
  cases s <;> cases t <;> simp only [isSubset] at h <;> try cases h
  case numeric.numeric a b =>
    unfold Quantities.isSubset Quantities.requireSameDimension at h
    obtain ⟨r, rfl, hr⟩ := mem_numeric.1 hx
    split at h
    · exact Numbers.mem_of_isSubset hs ht (Except.ok.inj h) hr
    · cases h
  case boolean.boolean a b =>
    obtain ⟨c, rfl, hc⟩ := mem_boolean.1 hx
    exact Truths.mem_of_isSubset (Except.ok.inj h) hc
  case enum.enum a b =>
    unfold Choices.isSubset Choices.requireSame at h
    obtain ⟨m, rfl, hm⟩ := mem_enum.1 hx
    split at h
    · exact SortedSet.isSubset_iff.1 (Except.ok.inj h) m hm
    · cases h
  case text.text a b =>
    obtain ⟨m, rfl, hm⟩ := mem_text.1 hx
    exact Texts.mem_of_isSubset (Except.ok.inj h) hm

/-- Two elements of a set with one element are equal. -/
theorem eq_of_isSingleton (hs : s.Normal) (h : s.isSingleton) (hx : x ∈ s) (hy : y ∈ s) :
    x = y := by
  unfold isSingleton single? at h
  cases s with
  | numeric q =>
    obtain ⟨r, rfl, hr⟩ := mem_numeric.1 hx
    obtain ⟨r', rfl, hr'⟩ := mem_numeric.1 hy
    obtain ⟨z, hz⟩ := Option.isSome_iff_exists.1 (by simpa using h)
    obtain ⟨p, -, hp⟩ := Numbers.Normal.single hs hz
    rw [(hp r).1 hr, (hp r').1 hr']
  | boolean b =>
    obtain ⟨r, rfl, hr⟩ := mem_boolean.1 hx
    obtain ⟨r', rfl, hr'⟩ := mem_boolean.1 hy
    obtain ⟨z, hz⟩ := Option.isSome_iff_exists.1 (by simpa using h)
    rw [(Truths.mem_of_single hz).1 hr, (Truths.mem_of_single hz).1 hr']
  | enum c =>
    obtain ⟨r, rfl, hr⟩ := mem_enum.1 hx
    obtain ⟨r', rfl, hr'⟩ := mem_enum.1 hy
    obtain ⟨z, hz⟩ := Option.isSome_iff_exists.1 (by simpa using h)
    rw [(SortedSet.mem_of_single hz).1 hr, (SortedSet.mem_of_single hz).1 hr']
  | text t =>
    obtain ⟨r, rfl, hr⟩ := mem_text.1 hx
    obtain ⟨r', rfl, hr'⟩ := mem_text.1 hy
    obtain ⟨z, hz⟩ := Option.isSome_iff_exists.1 (by simpa using h)
    rw [(Texts.mem_of_single hz).1 hr, (Texts.mem_of_single hz).1 hr']

/-- What a single value has in common with a set is empty or has an element. -/
theorem exists_mem_inter (hs : s.isSingleton) (h : s.inter t = .ok u) (hu : u.isEmpty = false) :
    ∃ x, x ∈ u := by
  have hn := Normal.inter h
  by_contra hx
  cases s <;> cases t <;> simp only [inter] at h <;> try cases h
  case numeric.numeric a b =>
    obtain ⟨c, -, rfl⟩ := map_ok h
    have he := (Numbers.Normal.isEmpty_iff hn).2 fun q hq => hx ⟨.number q, hq⟩
    exact Bool.false_ne_true (hu.symm.trans he)
  case boolean.boolean a b =>
    have he := Truths.isEmpty_iff.2 fun c hc => hx ⟨.boolean c, hc⟩
    exact Bool.false_ne_true (hu.symm.trans he)
  case enum.enum a b =>
    obtain ⟨c, -, rfl⟩ := map_ok h
    have he := SortedSet.isEmpty_iff.2 fun m hm => hx ⟨.enum m, hm⟩
    exact Bool.false_ne_true (hu.symm.trans he)
  case text.text a b =>
    cases a with
    | allBut l => cases hs
    | only l =>
      obtain ⟨m, hm⟩ : ∃ m, (Texts.only l).inter b = .only m := by
        cases b <;> exact ⟨_, rfl⟩
      rw [hm] at hu hx
      have he := SortedSet.isEmpty_iff.2 fun x hxm => hx ⟨.text x, decide_eq_true hxm⟩
      exact Bool.false_ne_true (hu.symm.trans he)

end ValueSet

end ParameterSolver
