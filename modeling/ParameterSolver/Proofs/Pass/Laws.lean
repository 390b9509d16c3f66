import ParameterSolver.Proofs.Models

/-! The laws that express an operator in the basis, on values: with the new expressions in between
having their values, the operator and its replacement have the same value, where one has any. -/

namespace ParameterSolver

open Exact

namespace Combines

variable {op : Operator} {x y z z' : Value ℚ} {ys zs : List (Value ℚ)}

theorem iff_arithmetic (h : op.has .arithmetic) : Combines op ys x ↔
    ∃ qs q, ys = qs.map .number ∧ op.arithmetic? qs = some q ∧ x = .number q := by
  refine ⟨fun hc => hc.resolve_right ?_, Or.inl⟩
  rintro ⟨bs, b, -, hb, -⟩
  cases op <;> simp_all [Operator.has, Operator.having, Operator.logical?]

theorem iff_logical (h : op.has .logic) : Combines op ys x ↔
    ∃ bs b, ys = bs.map .boolean ∧ op.logical? bs = some b ∧ x = .boolean b := by
  refine ⟨fun hc => hc.resolve_left ?_, Or.inr⟩
  rintro ⟨qs, q, -, hq, -⟩
  cases op <;> simp_all [Operator.has, Operator.having, Operator.logical, Operator.arithmetic?]

theorem not_iff : Combines .not [y] x ↔ ∃ b, y = .boolean b ∧ x = .boolean !b := by
  rw [iff_logical (by decide)]
  constructor
  · rintro ⟨bs, b, hbs, hb, rfl⟩
    obtain _ | ⟨c, _ | ⟨_, _⟩⟩ := bs <;> simp at hbs
    cases hb
    exact ⟨c, hbs, rfl⟩
  · rintro ⟨b, rfl, rfl⟩
    exact ⟨[b], _, rfl, rfl, rfl⟩

theorem or_iff : Combines .or ys x ↔ ∃ bs : List Bool, ys = bs.map .boolean ∧ x = .boolean (bs.any id) := by
  rw [iff_logical (by decide)]
  constructor
  · rintro ⟨bs, b, rfl, hb, rfl⟩
    cases hb
    exact ⟨bs, rfl, rfl⟩
  · rintro ⟨bs, rfl, rfl⟩
    exact ⟨bs, _, rfl, rfl, rfl⟩

theorem neg_iff : Combines .multiply [y, .number (-1)] x ↔ ∃ q, y = .number q ∧ x = .number (-q) := by
  rw [iff_arithmetic (by decide)]
  constructor
  · rintro ⟨qs, q, hqs, hq, rfl⟩
    obtain _ | ⟨a, _ | ⟨b, _ | ⟨_, _⟩⟩⟩ := qs <;> simp at hqs
    obtain ⟨rfl, rfl⟩ := hqs
    cases hq
    exact ⟨a, rfl, by simp⟩
  · rintro ⟨q, rfl, rfl⟩
    exact ⟨[q, -1], _, rfl, rfl, by simp⟩

/-- Values of one kind. -/
theorem exists_map_eq {β : Type} {tag : β → Value ℚ} (h : ∀ y ∈ ys, ∃ b, y = tag b) :
    ∃ bs : List β, ys = bs.map tag := by
  induction ys with
  | nil => exact ⟨[], rfl⟩
  | cons y ys ih =>
    obtain ⟨b, rfl⟩ := h y (by simp)
    obtain ⟨bs, rfl⟩ := ih fun z hz => h z (by simp [hz])
    exact ⟨b :: bs, rfl⟩

/-- Values of one kind whose images are known. -/
theorem exists_of_forall₂ {β : Type} {tag : β → Value ℚ} {f : β → β}
    {R : Value ℚ → Value ℚ → Prop} (hR : ∀ y z, R y z ↔ ∃ b, y = tag b ∧ z = tag (f b))
    (h : List.Forall₂ R ys zs) : ∃ bs : List β, ys = bs.map tag ∧ zs = (bs.map f).map tag := by
  induction h with
  | nil => exact ⟨[], rfl, rfl⟩
  | cons hyz _ ih =>
    obtain ⟨b, rfl, rfl⟩ := (hR _ _).1 hyz
    obtain ⟨bs, rfl, rfl⟩ := ih
    exact ⟨b :: bs, rfl, rfl⟩

theorem exists_of_negated (h : List.Forall₂ (fun y z => Combines .not [y] z) ys zs) :
    ∃ bs : List Bool, ys = bs.map .boolean ∧ zs = (bs.map (! ·)).map .boolean :=
  exists_of_forall₂ (fun _ _ => not_iff) h

theorem exists_of_negatives
    (h : List.Forall₂ (fun y z => Combines .multiply [y, .number (-1)] z) ys zs) :
    ∃ qs : List ℚ, ys = qs.map .number ∧ zs = (qs.map (- ·)).map .number :=
  exists_of_forall₂ (fun _ _ => neg_iff) h

theorem map_number_inj {qs rs : List ℚ} :
    qs.map (Value.number (α := ℚ)) = rs.map .number ↔ qs = rs :=
  List.map_inj_right fun _ _ h => Value.number.inj h

theorem map_boolean_inj {bs cs : List Bool} :
    bs.map (Value.boolean (α := ℚ)) = cs.map .boolean ↔ bs = cs :=
  List.map_inj_right fun _ _ h => Value.boolean.inj h

theorem logical_iff {bs : List Bool} (h : op.has .logic) :
    Combines op (bs.map .boolean) x ↔ ∃ b, op.logical? bs = some b ∧ x = .boolean b := by
  rw [iff_logical h]
  constructor
  · rintro ⟨cs, b, hcs, hb, rfl⟩
    rw [map_boolean_inj.1 hcs]
    exact ⟨b, hb, rfl⟩
  · rintro ⟨b, hb, rfl⟩
    exact ⟨bs, b, rfl, hb, rfl⟩

/-- A difference is the sum with the negatives of what is taken away. -/
theorem subtract_iff (h : List.Forall₂ (fun y z => Combines .multiply [y, .number (-1)] z) ys zs) :
    Combines .subtract (y :: ys) x ↔ Combines .add (y :: zs) x := by
  obtain ⟨qs, rfl, rfl⟩ := exists_of_negatives h
  have hsum : (qs.map (- ·)).sum = -qs.sum := by
    induction qs with
    | nil => simp
    | cons q qs ih => simp_all [List.sum_cons]; ring
  rw [iff_arithmetic (by decide), iff_arithmetic (by decide)]
  constructor
  · rintro ⟨rs, q, hrs, hq, rfl⟩
    obtain ⟨a, l, rfl, ha, hl⟩ := List.map_eq_cons_iff.1 hrs.symm
    cases map_number_inj.1 hl
    cases hq
    exact ⟨a :: qs.map (- ·), _, by simp [← ha], rfl, by simp [hsum, sub_eq_add_neg]⟩
  · rintro ⟨rs, q, hrs, hq, rfl⟩
    obtain ⟨a, l, rfl, ha, hl⟩ := List.map_eq_cons_iff.1 hrs.symm
    cases map_number_inj.1 hl
    cases hq
    exact ⟨a :: qs, _, by simp [← ha], rfl, by simp [hsum, sub_eq_add_neg]⟩

/-- A quotient is the product with the inverse of the divisor. -/
theorem divide_iff (h : Combines .power [y, .number (-1)] z) :
    Combines .divide [x, y] z' ↔ Combines .multiply [x, z] z' := by
  obtain ⟨q, hq, rfl, rfl⟩ : ∃ q : ℚ, q ≠ 0 ∧ y = .number q ∧ z = .number q⁻¹ := by
    obtain ⟨qs, p, hqs, hp, rfl⟩ := (iff_arithmetic (by decide)).1 h
    obtain _ | ⟨a, _ | ⟨b, _ | ⟨_, _⟩⟩⟩ := qs <;> simp at hqs
    obtain ⟨rfl, rfl⟩ := hqs
    norm_num [Operator.arithmetic?] at hp
    exact ⟨a, hp.1, rfl, by rw [← hp.2]⟩
  rw [iff_arithmetic (by decide), iff_arithmetic (by decide)]
  constructor
  · rintro ⟨qs, p, hqs, hp, rfl⟩
    obtain _ | ⟨a, _ | ⟨b, _ | ⟨_, _⟩⟩⟩ := qs <;> simp at hqs
    obtain ⟨rfl, rfl⟩ := hqs
    simp only [Operator.arithmetic?, if_neg hq, Option.some.injEq] at hp
    exact ⟨[a, q⁻¹], _, rfl, rfl, by simp [← hp, div_eq_mul_inv]⟩
  · rintro ⟨qs, p, hqs, hp, rfl⟩
    obtain _ | ⟨a, _ | ⟨b, _ | ⟨_, _⟩⟩⟩ := qs <;> simp at hqs
    obtain ⟨rfl, rfl⟩ := hqs
    cases hp
    exact ⟨[a, q], _, rfl, if_neg hq, by simp [div_eq_mul_inv]⟩

theorem power_neg_one {q : ℚ} (h : q ≠ 0) :
    Combines .power [.number q, .number (-1)] (.number q⁻¹) :=
  Or.inl ⟨[q, -1], _, rfl, by norm_num [Operator.arithmetic?, h], rfl⟩

theorem and_booleans {bs : List Bool} :
    Combines .and (bs.map .boolean) x ↔ x = .boolean (bs.all id) := by
  simp [logical_iff (show Operator.and.has .logic from rfl), Operator.logical?]

theorem or_booleans {bs : List Bool} :
    Combines .or (bs.map .boolean) x ↔ x = .boolean (bs.any id) := by
  simp [logical_iff (show Operator.or.has .logic from rfl), Operator.logical?]

theorem xor_booleans {bs : List Bool} :
    Combines .xor (bs.map .boolean) x ↔ x = .boolean (bs.any id && !bs.all id) := by
  simp [logical_iff (show Operator.xor.has .logic from rfl), Operator.logical?]

theorem not_boolean {b : Bool} : Combines .not [.boolean b] x ↔ x = .boolean !b := by
  simp [not_iff]

theorem any_not (bs : List Bool) : (bs.map (! ·)).any id = !bs.all id := by
  induction bs with
  | nil => rfl
  | cons b bs ih => cases b <;> simp_all

/-- A conjunction is the negation of the disjunction of the negations. -/
theorem and_iff (h : List.Forall₂ (fun y z => Combines .not [y] z) ys zs) (hz : Combines .or zs z) :
    Combines .and ys x ↔ Combines .not [z] x := by
  obtain ⟨bs, rfl, rfl⟩ := exists_of_negated h
  rw [or_booleans.1 hz, and_booleans, not_boolean, any_not, Bool.not_not]

/-- An implication is a disjunction with the negation of the premise. -/
theorem implies_iff (h : Combines .not [y] z) :
    Combines .implies (y :: ys) x ↔ Combines .or (z :: ys) x := by
  obtain ⟨b, rfl, rfl⟩ := not_iff.1 h
  rw [iff_logical (by decide), or_iff]
  constructor
  · rintro ⟨bs, c, hbs, hc, rfl⟩
    obtain ⟨a, l, rfl, ha, rfl⟩ := List.map_eq_cons_iff.1 hbs.symm
    cases ha
    cases hc
    exact ⟨(!b) :: l, rfl, by simp⟩
  · rintro ⟨bs, hbs, rfl⟩
    obtain ⟨a, l, rfl, ha, rfl⟩ := List.map_eq_cons_iff.1 hbs.symm
    cases ha
    exact ⟨b :: l, _, rfl, rfl, by simp⟩

/-- Truth values differ when they are neither all false nor all true. -/
theorem xor_iff {anyTrue noneTrue anyFalse noneFalse uniform : Value ℚ}
    (h : List.Forall₂ (fun y z => Combines .not [y] z) ys zs)
    (h₁ : Combines .or ys anyTrue) (h₂ : Combines .not [anyTrue] noneTrue)
    (h₃ : Combines .or zs anyFalse) (h₄ : Combines .not [anyFalse] noneFalse)
    (h₅ : Combines .or [noneTrue, noneFalse] uniform) :
    Combines .xor ys x ↔ Combines .not [uniform] x := by
  obtain ⟨bs, rfl, rfl⟩ := exists_of_negated h
  rw [or_booleans.1 h₁, not_boolean] at h₂
  rw [or_booleans.1 h₃, not_boolean] at h₄
  subst h₂ h₄
  have h₅' := (@or_booleans _ [_, _]).1 h₅
  subst h₅'
  rw [xor_booleans, not_boolean, any_not]
  simp

theorem round_iff : Combines .round [y] x ↔
    ∃ q, y = .number q ∧ x = .number (Interval.nearest q) := by
  rw [iff_arithmetic (by decide)]
  constructor
  · rintro ⟨qs, p, hqs, hp, rfl⟩
    obtain _ | ⟨a, _ | ⟨_, _⟩⟩ := qs <;> simp at hqs
    cases hp
    exact ⟨a, hqs, rfl⟩
  · rintro ⟨q, rfl, rfl⟩
    exact ⟨[q], _, rfl, rfl, rfl⟩

theorem shift_iff {a : ℚ} :
    Combines .add [y, .number a] x ↔ ∃ q, y = .number q ∧ x = .number (q + a) := by
  rw [iff_arithmetic (by decide)]
  constructor
  · rintro ⟨qs, p, hqs, hp, rfl⟩
    obtain _ | ⟨q, _ | ⟨r, _ | ⟨_, _⟩⟩⟩ := qs <;> simp at hqs
    obtain ⟨rfl, rfl⟩ := hqs
    cases hp
    exact ⟨q, rfl, by simp⟩
  · rintro ⟨q, rfl, rfl⟩
    exact ⟨[q, a], _, rfl, rfl, by simp⟩

/-- The floor is the nearest integer of what is half less. -/
theorem floor_iff (h : Combines .add [y, .number (-(1 / 2))] z) :
    Combines .floor [y] x ↔ Combines .round [z] x := by
  obtain ⟨q, rfl, rfl⟩ := shift_iff.1 h
  rw [round_iff, iff_arithmetic (by decide)]
  constructor
  · rintro ⟨qs, p, hqs, hp, rfl⟩
    obtain _ | ⟨a, _ | ⟨_, _⟩⟩ := qs <;> simp at hqs
    cases hp
    exact ⟨_, rfl, by simp [Interval.nearest, hqs]⟩
  · rintro ⟨r, hr, rfl⟩
    cases hr
    exact ⟨[q], _, rfl, rfl, by simp [Interval.nearest]⟩

/-- The ceiling is the negated floor of the negative. -/
theorem ceil_iff {negated shifted rounded : Value ℚ}
    (h₁ : Combines .multiply [y, .number (-1)] negated)
    (h₂ : Combines .add [negated, .number (-(1 / 2))] shifted)
    (h₃ : Combines .round [shifted] rounded) :
    Combines .ceil [y] x ↔ Combines .multiply [rounded, .number (-1)] x := by
  obtain ⟨q, rfl, rfl⟩ := neg_iff.1 h₁
  obtain ⟨r, hr, rfl⟩ := shift_iff.1 h₂
  cases hr
  obtain ⟨r, hr, rfl⟩ := round_iff.1 h₃
  cases hr
  rw [neg_iff, iff_arithmetic (by decide)]
  constructor
  · rintro ⟨qs, p, hqs, hp, rfl⟩
    obtain _ | ⟨a, _ | ⟨_, _⟩⟩ := qs <;> simp at hqs
    cases hp
    exact ⟨_, rfl, by simp [Interval.nearest, hqs, Int.floor_neg]⟩
  · rintro ⟨r, hr, rfl⟩
    cases hr
    exact ⟨[q], _, rfl, rfl, by simp [Interval.nearest, Int.floor_neg]⟩

/-! The least and the greatest value. -/

theorem numbers_of_compares {R : ℚ → ℚ → Prop} {a b : Set (Value ℚ)}
    (h : Compares R a b x) (hy : ∀ y ∈ ys, y ∈ a ∨ y ∈ b) : ∃ qs : List ℚ, ys = qs.map .number :=
  exists_map_eq fun y hmem => (hy y hmem).elim (h.1 y) (h.2.1 y)

theorem compares_numbers {R : ℚ → ℚ → Prop} (qs rs : List ℚ) :
    Compares R { y | y ∈ qs.map Value.number } { y | y ∈ rs.map Value.number } (.boolean true) ↔
      ∀ q ∈ qs, ∀ r ∈ rs, R q r := by
  constructor
  · rintro ⟨-, -, b, hb, hiff⟩ q hq r hr
    cases hb
    exact hiff.1 rfl q r (List.mem_map_of_mem hq) (List.mem_map_of_mem hr)
  · intro h
    refine ⟨fun y hy => ?_, fun y hy => ?_, true, rfl, fun _ q r hq hr => ?_, fun _ => rfl⟩
    · obtain ⟨q, -, rfl⟩ := List.mem_map.1 hy
      exact ⟨q, rfl⟩
    · obtain ⟨q, -, rfl⟩ := List.mem_map.1 hy
      exact ⟨q, rfl⟩
    · obtain ⟨q', hq', heq⟩ := List.mem_map.1 hq
      obtain ⟨r', hr', heq'⟩ := List.mem_map.1 hr
      cases heq
      cases heq'
      exact h q hq' r hr'

/-- The least value is one of the values that no value is less than. -/
theorem min_iff : Combines .min ys x ↔
    x ∈ ys ∧ Compares (· ≥ ·) { y | y ∈ ys } { y | y ∈ [x] } (.boolean true) := by
  rw [iff_arithmetic (by decide)]
  constructor
  · rintro ⟨qs, q, rfl, hq, rfl⟩
    obtain ⟨hmem, hle⟩ := List.min?_eq_some_iff.1 hq
    refine ⟨List.mem_map_of_mem hmem, (compares_numbers qs [q]).2 ?_⟩
    simpa using hle
  · rintro ⟨hx, hc⟩
    obtain ⟨qs, rfl⟩ := numbers_of_compares hc fun y hy => Or.inl hy
    obtain ⟨q, hq, rfl⟩ := List.mem_map.1 hx
    refine ⟨qs, q, rfl, List.min?_eq_some_iff.2 ⟨hq, ?_⟩, rfl⟩
    simpa using (compares_numbers qs [q]).1 hc

/-- The greatest value is one of the values that is not less than any value. -/
theorem max_iff : Combines .max ys x ↔
    x ∈ ys ∧ Compares (· ≥ ·) { y | y ∈ [x] } { y | y ∈ ys } (.boolean true) := by
  rw [iff_arithmetic (by decide)]
  constructor
  · rintro ⟨qs, q, rfl, hq, rfl⟩
    obtain ⟨hmem, hle⟩ := List.max?_eq_some_iff.1 hq
    refine ⟨List.mem_map_of_mem hmem, (compares_numbers [q] qs).2 ?_⟩
    simpa using hle
  · rintro ⟨hx, hc⟩
    obtain ⟨qs, rfl⟩ := numbers_of_compares hc fun y hy => Or.inr hy
    obtain ⟨q, hq, rfl⟩ := List.mem_map.1 hx
    refine ⟨qs, q, rfl, List.max?_eq_some_iff.2 ⟨hq, ?_⟩, rfl⟩
    simpa using (compares_numbers [q] qs).1 hc

end Combines

end ParameterSolver
