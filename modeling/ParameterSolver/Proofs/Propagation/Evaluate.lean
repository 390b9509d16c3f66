import ParameterSolver.Proofs.Valuation

/-! Forward evaluation. Where the operands take values of their sets, the expression takes a value
of the set that is computed for it. -/

namespace ParameterSolver

open Exact

namespace Exact

theorem ne_nan_of_le {x y : Exact} (h : x ≤ y) : x ≠ nan ∧ y ≠ nan := by
  cases x <;> cases y <;> simp_all [Exact.le_iff]

protected theorem le_of_not_lt {x y : Exact} (hx : x ≠ nan) (hy : y ≠ nan) (h : ¬ y < x) :
    x ≤ y := by
  cases x <;> cases y <;> simp_all [Exact.le_iff, le_iff_lt_or_eq]

theorem lesser_le {x y z : Exact} (h : x ≤ z ∨ y ≤ z) : Scalar.lesser x y ≤ z := by
  unfold Scalar.lesser
  split_ifs with hx hlt
  · exact h.resolve_left fun h => (ne_nan_of_le h).1 (isNaN_iff.1 hx)
  · exact h.elim (fun h => Or.inl (Exact.lt_of_lt_of_le hlt h)) id
  · rw [isNaN_iff] at hx
    exact h.elim id fun h => Exact.le_trans (Exact.le_of_not_lt hx (ne_nan_of_le h).1 hlt) h

theorem le_lesser {x y z : Exact} (h : z ≤ x) (h' : z ≤ y) : z ≤ Scalar.lesser x y := by
  unfold Scalar.lesser
  split_ifs
  · exact h'
  · exact h'
  · exact h

theorem le_greater {x y z : Exact} (h : z ≤ x ∨ z ≤ y) : z ≤ Scalar.greater x y := by
  unfold Scalar.greater
  split_ifs with hx hlt
  · exact h.resolve_left fun h => (ne_nan_of_le h).2 (isNaN_iff.1 hx)
  · exact h.elim (fun h => Or.inl (Exact.lt_of_le_of_lt h hlt)) id
  · rw [isNaN_iff] at hx
    exact h.elim id fun h => Exact.le_trans h (Exact.le_of_not_lt (ne_nan_of_le h).2 hx hlt)

theorem greater_le {x y z : Exact} (h : x ≤ z) (h' : y ≤ z) : Scalar.greater x y ≤ z := by
  unfold Scalar.greater
  split_ifs
  · exact h'
  · exact h'
  · exact h

end Exact

namespace Quantities

variable {a b c : Quantities Exact} {q r : ℚ}

/-- The number is an element of a set in normal form. -/
def Bounds (a : Quantities Exact) (q : ℚ) : Prop := a.base.Normal ∧ finite q ∈ a.base

theorem Bounds.add (ha : a.Bounds q) (hb : b.Bounds r) (h : a.add b = .ok c) :
    c.Bounds (q + r) := by
  rw [Bounds, (ValueSet.combine_ok h).1]
  exact ⟨Numbers.normal_add, Numbers.mem_add ha.1 hb.1 ha.2 hb.2⟩

theorem Bounds.neg (ha : a.Bounds q) : a.neg.Bounds (-q) :=
  ⟨Numbers.normal_neg ha.1, Numbers.mem_neg ha.1 ha.2⟩

theorem mul_ok {α : Type} [Scalar α] {a b c : Quantities α} (h : a.mul b = .ok c) :
    c.base = a.base.mul b.base := by
  unfold mul at h
  cases hu : a.unit.mul b.unit with
  | error e => rw [hu] at h; cases h
  | ok u => rw [hu] at h; cases h; rfl

theorem invert_ok {α : Type} [Scalar α] {a c : Quantities α} (h : a.invert = .ok c) :
    c.base = a.base.invert := by
  unfold invert at h
  cases hu : a.unit.power (-1) with
  | error e => rw [hu] at h; cases h
  | ok u => rw [hu] at h; cases h; rfl

theorem pow_ok {α : Type} [Scalar α] {a b c : Quantities α} (h : a.pow b = .ok c) :
    c.base = a.base.pow b.base := by
  unfold pow requireDimensionless at h
  split at h
  · simp only [bind, Except.bind, pure, Except.pure] at h
    split at h
    · cases h; rfl
    · split at h
      · split at h <;> cases h
        rfl
      · cases h
  · cases h

theorem Bounds.mul (ha : a.Bounds q) (hb : b.Bounds r) (h : a.mul b = .ok c) :
    c.Bounds (q * r) := by
  rw [Bounds, mul_ok h]
  exact ⟨Numbers.normal_mul, Numbers.mem_mul ha.1 hb.1 ha.2 hb.2⟩

theorem Bounds.invert (ha : a.Bounds q) (h0 : q ≠ 0) (h : a.invert = .ok c) : c.Bounds q⁻¹ := by
  rw [Bounds, invert_ok h]
  exact ⟨Numbers.normal_invert ha.1, Numbers.mem_invert ha.1 ha.2 h0⟩

theorem Bounds.pow {n : ℤ} (ha : a.Bounds q) (hb : b.Bounds n) (hs : b.base.isSingleton)
    (h0 : q ≠ 0 ∨ 0 ≤ n) (hn : n.natAbs < 2147483647 ∨ 0 ≤ q) (h : a.pow b = .ok c) :
    c.Bounds (q ^ n) := by
  rw [Bounds, pow_ok h]
  exact ⟨Numbers.normal_pow, Numbers.mem_pow ha.1 hb.1 hs ha.2 hb.2 h0 hn⟩

theorem Bounds.round (ha : a.Bounds q) : a.round.Bounds (Interval.nearest q) :=
  ⟨Numbers.normal_round ha.1, Numbers.mem_round ha.1 ha.2⟩

theorem Bounds.abs (ha : a.Bounds q) : a.abs.Bounds |q| :=
  ⟨Numbers.normal_abs ha.1, Numbers.mem_abs ha.1 ha.2⟩

end Quantities

namespace Propagation

open Quantities

variable {sets : List (Quantities Exact)} {qs : List ℚ} {c : Quantities Exact}

theorem toOption_eq_some {ε α : Type} {e : Except ε α} {x : α} (h : e.toOption = some x) :
    e = .ok x := by
  cases e with
  | error => cases h
  | ok y => exact congrArg _ (Option.some.inj h)

/-- Combining sets from the left bounds what combining numbers from the left gives. -/
theorem foldlM_bounds {f : Quantities Exact → Quantities Exact → Option (Quantities Exact)}
    {op : ℚ → ℚ → ℚ} (hf : ∀ {a b c q r}, a.Bounds q → b.Bounds r → f a b = some c →
      c.Bounds (op q r)) {a : Quantities Exact} {q : ℚ} (ha : a.Bounds q)
    (h : List.Forall₂ (fun q a => a.Bounds q) qs sets) (hc : sets.foldlM f a = some c) :
    c.Bounds (qs.foldl op q) := by
  induction h generalizing a q with
  | nil => cases hc; exact ha
  | cons hb _ ih =>
    rw [List.foldlM_cons] at hc
    obtain ⟨d, hd, hc⟩ := Option.bind_eq_some_iff.1 hc
    exact ih (hf ha hb hd) hc

theorem reduce?_bounds {f : Quantities Exact → Quantities Exact → Option (Quantities Exact)}
    {op : ℚ → ℚ → ℚ} (hf : ∀ {a b c q r}, a.Bounds q → b.Bounds r → f a b = some c →
      c.Bounds (op q r)) (h : List.Forall₂ (fun q a => a.Bounds q) qs sets)
    (hc : reduce? f sets = some c) : ∃ q l, qs = q :: l ∧ c.Bounds (l.foldl op q) := by
  cases h with
  | nil => cases hc
  | cons ha h => exact ⟨_, _, rfl, foldlM_bounds hf ha h hc⟩

theorem foldl_add (a : ℚ) (l : List ℚ) : l.foldl (· + ·) a = a + l.sum := by
  induction l generalizing a with
  | nil => simp
  | cons b l ih => rw [List.foldl_cons, ih, List.sum_cons, add_assoc]

theorem foldl_sub (a : ℚ) (l : List ℚ) : l.foldl (· - ·) a = a - l.sum := by
  induction l generalizing a with
  | nil => simp
  | cons b l ih => rw [List.foldl_cons, ih, List.sum_cons, sub_sub]

theorem foldl_mul (a : ℚ) (l : List ℚ) : l.foldl (· * ·) a = a * l.prod := by
  induction l generalizing a with
  | nil => simp
  | cons b l ih => rw [List.foldl_cons, ih, List.prod_cons, mul_assoc]

theorem shift?_bounds {a : Quantities Exact} {q x : ℚ} (ha : a.Bounds q)
    (h : shift? a (finite x) = some c) : c.Bounds (q + x) :=
  ha.add ⟨Numbers.normal_singleton _, Numbers.mem_singleton.2 rfl⟩ (toOption_eq_some h)

section Extremum

variable {end? : Quantities Exact → Option Exact} {pick : Exact → Exact → Exact} {P : Exact → Prop}
  {start r : Exact}

theorem foldlM_pick_of_all (hp : ∀ {x y}, P x → P y → P (pick x y)) (h0 : P start)
    (hs : ∀ a ∈ sets, ∀ m, end? a = some m → P m)
    (h : sets.foldlM (fun acc a => (end? a).map (pick acc)) start = some r) : P r := by
  induction sets generalizing start with
  | nil => cases h; exact h0
  | cons a sets ih =>
    rw [List.foldlM_cons] at h
    obtain ⟨d, hd, h⟩ := Option.bind_eq_some_iff.1 h
    obtain ⟨m, hm, rfl⟩ := Option.map_eq_some_iff.1 hd
    exact ih (hp h0 (hs a (by simp) m hm)) (fun b hb => hs b (by simp [hb])) h

theorem foldlM_pick_of_one (hp : ∀ {x y}, P x ∨ P y → P (pick x y))
    (hs : P start ∨ ∃ a ∈ sets, ∀ m, end? a = some m → P m)
    (h : sets.foldlM (fun acc a => (end? a).map (pick acc)) start = some r) : P r := by
  induction sets generalizing start with
  | nil => cases h; simpa using hs
  | cons a sets ih =>
    rw [List.foldlM_cons] at h
    obtain ⟨d, hd, h⟩ := Option.bind_eq_some_iff.1 h
    obtain ⟨m, hm, rfl⟩ := Option.map_eq_some_iff.1 hd
    refine ih ?_ h
    rcases hs with h0 | ⟨b, hb, hP⟩
    · exact Or.inl (hp (Or.inl h0))
    · rcases List.mem_cons.1 hb with rfl | hb
      · exact Or.inl (hp (Or.inr (hP m hm)))
      · exact Or.inr ⟨b, hb, hP⟩

end Extremum

theorem extremum?_ok {pick : Exact → Exact → Exact} {start : Exact}
    (h : extremum? pick start sets = some c) : ∃ lo hi, c.base = .closed lo hi ∧
      sets.foldlM (fun acc a => a.base.min?.map (pick acc)) start = some lo ∧
      sets.foldlM (fun acc a => a.base.max?.map (pick acc)) start = some hi := by
  unfold extremum? at h
  simp only [Option.bind_eq_bind, Option.bind_eq_some_iff] at h
  obtain ⟨first, -, h⟩ := h
  split at h
  · simp at h
  · simp only [Option.bind_eq_some_iff] at h
    obtain ⟨lo, hlo, hi, hhi, h⟩ := h
    cases h
    exact ⟨lo, hi, rfl, hlo, hhi⟩

/-- A number of the list lies in one of the sets, and every set holds a number of the list. -/
theorem forall₂_mem (h : List.Forall₂ (fun q a => a.Bounds q) qs sets) :
    (∀ q ∈ qs, ∃ a ∈ sets, a.Bounds q) ∧ ∀ a ∈ sets, ∃ q ∈ qs, a.Bounds q := by
  induction h with
  | nil => simp
  | cons hb _ ih =>
    refine ⟨fun q hq => ?_, fun a ha => ?_⟩
    · rcases List.mem_cons.1 hq with rfl | hq
      · exact ⟨_, by simp, hb⟩
      · obtain ⟨a, ha, hab⟩ := ih.1 q hq
        exact ⟨a, by simp [ha], hab⟩
    · rcases List.mem_cons.1 ha with rfl | ha
      · exact ⟨_, by simp, hb⟩
      · obtain ⟨q, hq, hab⟩ := ih.2 a ha
        exact ⟨q, by simp [hq], hab⟩

theorem min_bounds {q : ℚ} (h : List.Forall₂ (fun q a => a.Bounds q) qs sets)
    (hq : qs.min? = some q) (hc : extremum? Scalar.lesser Scalar.infinity sets = some c) :
    c.Bounds q := by
  obtain ⟨hmem, hle⟩ := List.min?_eq_some_iff.1 hq
  obtain ⟨hone, hall⟩ := forall₂_mem h
  obtain ⟨lo, hi, hb, hlo, hhi⟩ := extremum?_ok hc
  rw [Bounds, hb]
  refine ⟨Numbers.normal_closed .., Numbers.mem_closed ?_ ?_⟩
  · obtain ⟨a, ha, hab⟩ := hone q hmem
    exact foldlM_pick_of_one (P := (· ≤ finite q)) lesser_le
      (Or.inr ⟨a, ha, fun m hm => hab.1.min?_le hm hab.2⟩) hlo
  · refine foldlM_pick_of_all (P := (finite q ≤ ·)) le_lesser (by simp [Exact.le_iff]) ?_ hhi
    intro a ha m hm
    obtain ⟨r, hr, hab⟩ := hall a ha
    exact Exact.le_trans (finite_le_finite.2 (hle r hr)) (hab.1.le_max? hm hab.2)

theorem max_bounds {q : ℚ} (h : List.Forall₂ (fun q a => a.Bounds q) qs sets)
    (hq : qs.max? = some q) (hc : extremum? Scalar.greater (-Scalar.infinity) sets = some c) :
    c.Bounds q := by
  obtain ⟨hmem, hle⟩ := List.max?_eq_some_iff.1 hq
  obtain ⟨hone, hall⟩ := forall₂_mem h
  obtain ⟨lo, hi, hb, hlo, hhi⟩ := extremum?_ok hc
  rw [Bounds, hb]
  refine ⟨Numbers.normal_closed .., Numbers.mem_closed ?_ ?_⟩
  · refine foldlM_pick_of_all (P := (· ≤ finite q)) greater_le (by simp [Exact.le_iff]) ?_ hlo
    intro a ha m hm
    obtain ⟨r, hr, hab⟩ := hall a ha
    exact Exact.le_trans (hab.1.min?_le hm hab.2) (finite_le_finite.2 (hle r hr))
  · obtain ⟨a, ha, hab⟩ := hone q hmem
    exact foldlM_pick_of_one (P := (finite q ≤ ·)) le_greater
      (Or.inr ⟨a, ha, fun m hm => hab.1.le_max? hm hab.2⟩) hhi

/-- A power whose exponent is one integer, and no negative base has an exponent beyond the range of
`Interval.integer?`. -/
def PowerInRange (qs : List ℚ) (sets : List (Quantities Exact)) : Prop :=
  (∀ a ∈ sets[1]?, a.base.isSingleton) ∧
    ∀ a n, qs = [a, n] → n.num.natAbs < 2147483647 ∨ 0 ≤ a

theorem arithmetic?_bounds {op : Operator} {q : ℚ} {operands : List (ValueSet Exact)}
    (h : List.Forall₂ (fun q a => a.Bounds q) qs sets) (hq : op.arithmetic? qs = some q)
    (hp : op = .power → PowerInRange qs sets)
    (ho : operands.mapM ValueSet.quantities? = some sets)
    (hc : arithmetic? op operands = some c) : c.Bounds q := by
  unfold arithmetic? at hc
  simp only [ho, Option.bind_eq_bind, Option.bind_some, Option.bind_eq_some_iff] at hc
  obtain ⟨first, hfirst, hc⟩ := hc
  cases op
  case add =>
    cases hq
    obtain ⟨r, l, rfl, hb⟩ := reduce?_bounds (fun ha hb h => ha.add hb (toOption_eq_some h)) h hc
    rwa [foldl_add] at hb
  case subtract =>
    obtain ⟨r, l, rfl, hb⟩ := reduce?_bounds (fun {a b c q r} ha hb h =>
      show c.Bounds (q - r) by rw [sub_eq_add_neg]; exact ha.add hb.neg (toOption_eq_some h)) h hc
    cases hq
    rwa [foldl_sub] at hb
  case multiply =>
    cases hq
    obtain ⟨r, l, rfl, hb⟩ := reduce?_bounds (fun ha hb h => ha.mul hb (toOption_eq_some h)) h hc
    rwa [foldl_mul] at hb
  case divide =>
    obtain _ | ⟨ha, _ | ⟨hb, _ | ⟨_, _⟩⟩⟩ := h <;> simp [Operator.arithmetic?] at hq hfirst hc
    obtain ⟨h0, rfl⟩ := hq
    obtain ⟨d, hd, hc⟩ := Option.bind_eq_some_iff.1 hc
    subst hfirst
    rw [div_eq_mul_inv]
    exact ha.mul (hb.invert h0 (toOption_eq_some hd)) (toOption_eq_some hc)
  case power =>
    obtain _ | ⟨ha, _ | ⟨hb, _ | ⟨_, _⟩⟩⟩ := h <;> simp [Operator.arithmetic?] at hq hfirst hc
    obtain ⟨⟨hd, h0⟩, rfl⟩ := hq
    obtain ⟨hs, hn⟩ := hp rfl
    subst hfirst
    rename_i a n _
    have hnum : ((n.num : ℤ) : ℚ) = n := Rat.coe_int_num_of_den_eq_one hd
    exact ha.pow (by rwa [hnum]) (by simpa using hs)
      (h0.imp id (by rw [← hnum]; exact_mod_cast id)) (hn _ _ rfl) (toOption_eq_some hc)
  case round =>
    obtain _ | ⟨ha, _ | ⟨_, _⟩⟩ := h <;> simp [Operator.arithmetic?] at hq hfirst hc
    subst hfirst hq hc
    exact ha.round
  case abs =>
    obtain _ | ⟨ha, _ | ⟨_, _⟩⟩ := h <;> simp [Operator.arithmetic?] at hq hfirst hc
    subst hfirst hq hc
    exact ha.abs
  case floor =>
    obtain _ | ⟨ha, _ | ⟨_, _⟩⟩ := h <;> simp [Operator.arithmetic?] at hq hfirst hc
    obtain ⟨d, hd, rfl⟩ := hc
    subst hfirst hq
    rw [half_eq, neg_finite] at hd
    have hr := (shift?_bounds ha hd).round
    rwa [Interval.nearest, neg_add_cancel_right] at hr
  case ceil =>
    obtain _ | ⟨ha, _ | ⟨_, _⟩⟩ := h <;> simp [Operator.arithmetic?] at hq hfirst hc
    obtain ⟨d, hd, rfl⟩ := hc
    subst hfirst hq
    rw [half_eq, neg_finite] at hd
    have hr := (shift?_bounds ha.neg hd).round.neg
    rwa [Interval.nearest, neg_add_cancel_right, Int.floor_neg, Int.cast_neg, neg_neg] at hr
  case min => exact min_bounds h hq hc
  case max => exact max_bounds h hq hc
  all_goals simp [Operator.arithmetic?] at hq

theorem foldl_or_mem {bs : List Bool} {ts : List Truths} {b : Bool} {t : Truths} (hb : b ∈ t)
    (h : List.Forall₂ (· ∈ ·) bs ts) : (b || bs.any id) ∈ ts.foldl Truths.or t := by
  induction h generalizing b t with
  | nil => simpa using hb
  | @cons c s bs ts hc _ ih =>
    have := ih (Truths.mem_or hb hc)
    simpa [Bool.or_assoc] using this

theorem logic?_mem {op : Operator} {bs : List Bool} {b : Bool} {ts : List Truths} {t : Truths}
    {operands : List (ValueSet Exact)} (h : List.Forall₂ (· ∈ ·) bs ts)
    (hb : op.logical? bs = some b) (ho : operands.mapM ValueSet.truths? = some ts)
    (hc : logic? op operands = some t) : b ∈ t := by
  unfold logic? at hc
  rw [ho] at hc
  obtain _ | ⟨h0, h⟩ := h
  · cases op <;> simp at hc
  · rename_i b0 t0 bs ts
    have hall : List.Forall₂ (· ∈ ·) (b0 :: bs) (t0 :: ts) := .cons h0 h
    cases op <;> simp only [Option.bind_eq_bind, Option.bind_some, Option.some.injEq,
      reduceCtorEq] at hc <;> subst hc
    case or =>
      cases hb
      exact foldl_or_mem h0 h
    case not =>
      obtain _ | ⟨_, _⟩ := h
      · cases hb
        exact Truths.mem_not.2 h0
      · cases hb
    case and =>
      cases hb
      exact Truths.mem_image hall
    case implies =>
      cases hb
      exact Truths.mem_image (f := impliesOf) hall
    case xor =>
      cases hb
      exact Truths.mem_image (f := xorOf) hall

section Relations

variable {s t : ValueSet Exact} {r : Truths} {x y z : Value ℚ}

theorem equals?_mem (hs : s.Normal) (ht : t.Normal) (hx : x ∈ s) (hy : y ∈ t)
    (h : equals? s t = some r) (hz : z.Says (x = y)) : z ∈ (.boolean r : ValueSet Exact) := by
  unfold equals? at h
  obtain ⟨u, hu, h⟩ := Option.bind_eq_some_iff.1 h
  cases h
  have hmem := fun w => ValueSet.mem_inter (x := w) hs ht (toOption_eq_some hu)
  have hn := ValueSet.Normal.inter (toOption_eq_some hu)
  obtain ⟨b, rfl, hb⟩ := hz
  rw [ValueSet.boolean_mem]
  cases b with
  | true =>
    obtain rfl : x = y := hb.1 rfl
    have hxu : x ∈ u := (hmem x).2 ⟨hx, hy⟩
    simpa [Truths.mem_def, Truths.contains] using fun he => ValueSet.not_mem_of_isEmpty hn he hxu
  | false =>
    have hne : x ≠ y := fun hxy => by simpa using hb.2 hxy
    have he : s.isSingleton → t.isSingleton → u.isEmpty = true := by
      intro hs1 ht1
      by_contra hu'
      obtain ⟨w, hw⟩ := ValueSet.exists_mem_inter hs1 (toOption_eq_some hu) (by simpa using hu')
      obtain ⟨hws, hwt⟩ := (hmem w).1 hw
      exact hne ((ValueSet.eq_of_isSingleton hs hs1 hx hws).trans
        (ValueSet.eq_of_isSingleton ht ht1 hwt hy))
    rw [Truths.mem_def, Truths.contains, if_neg (by simp)]
    grind

/-- The set operand is known as `t`, which has all of `extent` and, if known exactly, no more. -/
theorem belongs?_mem {extent : Set (Value ℚ)} {exact : Bool} (hs : s.Normal) (ht : t.Normal)
    (hx : x ∈ s) (hsub : ∀ y ∈ extent, y ∈ t) (hne : extent.Nonempty)
    (hexact : exact → ∀ y ∈ t, y ∈ extent) (h : belongs? s t exact = some r)
    (hz : z.Says (x ∈ extent)) : z ∈ (.boolean r : ValueSet Exact) := by
  unfold belongs? at h
  obtain ⟨u, hu, h⟩ := Option.bind_eq_some_iff.1 h
  have hmem := fun w => ValueSet.mem_inter (x := w) hs ht (toOption_eq_some hu)
  have hn := ValueSet.Normal.inter (toOption_eq_some hu)
  obtain ⟨b, rfl, hb⟩ := hz
  rw [ValueSet.boolean_mem]
  split at h
  · rename_i he
    cases h
    refine Truths.mem_of.2 (Bool.eq_false_iff.2 fun hbt => ?_)
    exact ValueSet.not_mem_of_isEmpty hn he ((hmem x).2 ⟨hx, hsub x (hb.1 hbt)⟩)
  · obtain ⟨included, hi, h⟩ := Option.bind_eq_some_iff.1 h
    cases h
    cases b with
    | true => rfl
    | false =>
      have hout : x ∉ extent := fun hin => by simpa using hb.2 hin
      rw [Truths.mem_def, Truths.contains, if_neg (by simp), Bool.not_eq_true', ← Bool.not_eq_true,
        Bool.and_eq_true, Bool.or_eq_true]
      rintro ⟨rfl, hex⟩
      have hxt := ValueSet.mem_of_isSubset hs ht (toOption_eq_some hi) hx
      rcases hex with hex | hex
      · exact hout (hexact hex x hxt)
      · obtain ⟨y, hy⟩ := hne
        rw [ValueSet.eq_of_isSingleton ht hex hxt (hsub y hy)] at hout
        exact hout hy

/-- Whether all numbers of one kind exceed all numbers of another is decided by the ends of the
sets they lie in. -/
theorem exceeds?_mem {strict : Bool} {A B : ℚ → Prop} (hs : s.Normal) (ht : t.Normal)
    (hq : ∀ q, A q → .number q ∈ s) (hr : ∀ q, B q → .number q ∈ t) (hq0 : ∃ q, A q)
    (hr0 : ∃ q, B q) (h : exceeds? s t strict = some r)
    (hz : z.Says (∀ q r, A q → B r → if strict then r < q else r ≤ q)) :
    z ∈ (.boolean r : ValueSet Exact) := by
  unfold exceeds? at h
  simp only [Option.bind_eq_bind, Option.bind_eq_some_iff] at h
  obtain ⟨a, ha, b, hb, h⟩ := h
  obtain ⟨aMin, hamin, aMax, hamax, bMin, hbmin, bMax, hbmax, h⟩ : ∃ aMin, a.base.min? = some aMin ∧
      ∃ aMax, a.base.max? = some aMax ∧ ∃ bMin, b.base.min? = some bMin ∧
      ∃ bMax, b.base.max? = some bMax ∧ (if strict then ⟨aMin ≤ bMax, bMin < aMax⟩
        else ⟨aMin < bMax, bMin ≤ aMax⟩ : Truths) = r := by
    split at h
    · cases h
    · simpa [Option.bind_eq_some_iff] using h
  cases s <;> cases ha
  cases t <;> cases hb
  have hlow : ∀ q, A q → aMin ≤ finite q ∧ finite q ≤ aMax := fun q h =>
    ⟨Numbers.Normal.min?_le hs hamin (hq q h), Numbers.Normal.le_max? hs hamax (hq q h)⟩
  have hhigh : ∀ q, B q → bMin ≤ finite q ∧ finite q ≤ bMax := fun q h =>
    ⟨Numbers.Normal.min?_le ht hbmin (hr q h), Numbers.Normal.le_max? ht hbmax (hr q h)⟩
  obtain ⟨c, rfl, hc⟩ := hz
  rw [ValueSet.boolean_mem, Truths.mem_def, Truths.contains]
  cases c with
  | true =>
    obtain ⟨p, hp⟩ := hq0
    obtain ⟨p', hp'⟩ := hr0
    have hlt := hc.1 rfl p p' hp hp'
    cases strict with
    | true =>
      subst h
      refine decide_eq_true (Exact.lt_of_le_of_lt (hhigh p' hp').1 ?_)
      exact Exact.lt_of_lt_of_le (finite_lt_finite.2 hlt) (hlow p hp).2
    | false =>
      subst h
      refine decide_eq_true (Exact.le_trans (hhigh p' hp').1 ?_)
      exact Exact.le_trans (finite_le_finite.2 hlt) (hlow p hp).2
  | false =>
    obtain ⟨p, p', hp, hp', hlt⟩ : ∃ p p', A p ∧ B p' ∧ ¬ if strict then p' < p else p' ≤ p := by
      by_contra hall
      push Not at hall
      simpa using hc.2 hall
    cases strict with
    | true =>
      subst h
      refine decide_eq_true (Exact.le_trans (hlow p hp).1 ?_)
      exact Exact.le_trans (finite_le_finite.2 (not_lt.1 hlt)) (hhigh p' hp').2
    | false =>
      subst h
      refine decide_eq_true (Exact.lt_of_le_of_lt (hlow p hp).1 ?_)
      exact Exact.lt_of_lt_of_le (finite_lt_finite.2 (not_le.1 hlt)) (hhigh p' hp').2

end Relations

/-! Expressions. What is known of each operand holds all values that it stands for, and for an
operand whose set is known exactly no others. -/

open ParameterSolver.Valuation

structure Covers (g : Generation Exact) (v : Valuation) (isExact : NodeId → Bool) (o : NodeId)
    (s : ValueSet Exact) : Prop where
  normal : s.Normal
  mem : ∀ x ∈ extent g v o, x ∈ s
  exact : isExact o → ∀ x ∈ s, x ∈ extent g v o
  nonempty : (extent g v o).Nonempty

variable {g : Generation Exact} {v : Valuation} {isExact : NodeId → Bool} {e : Expression}
  {x : Value ℚ} {known : List (ValueSet Exact)} {s : ValueSet Exact} {l : List NodeId}

theorem forall₂_of_mapM {α β : Type} {f : α → Option β} {l : List α} {m : List β}
    (h : l.mapM f = some m) : List.Forall₂ (fun a b => f a = some b) l m := by
  induction l generalizing m with
  | nil => cases h; exact .nil
  | cons a l ih =>
    rw [List.mapM_cons] at h
    obtain ⟨b, hb, h⟩ := Option.bind_eq_some_iff.1 h
    obtain ⟨m, hm, h⟩ := Option.bind_eq_some_iff.1 h
    cases h
    exact .cons hb (ih hm)

/-- Operands whose values are all of one kind, and what is known of them. -/
theorem forall₂_kind {β γ : Type} {tag : β → Value ℚ} {f : ValueSet Exact → Option γ}
    {R : β → γ → Prop} {bs : List β} {cs : List γ}
    (hR : ∀ {s b c}, s.Normal → tag b ∈ s → f s = some c → R b c)
    (h : List.Forall₂ (fun o s => s.Normal ∧ v o ∈ s) l known) (hv : l.map v = bs.map tag)
    (hs : List.Forall₂ (fun s c => f s = some c) known cs) : List.Forall₂ R bs cs := by
  induction h generalizing bs cs with
  | nil =>
    cases hs
    rw [List.map_eq_nil_iff.1 hv.symm]
    exact .nil
  | cons hos _ ih =>
    obtain _ | ⟨hf, hs⟩ := hs
    cases bs with
    | nil => cases hv
    | cons b bs =>
      rw [List.map_cons, List.map_cons, List.cons.injEq] at hv
      rw [hv.1] at hos
      exact .cons (hR hos.1 hos.2 hf) (ih hv.2 hs)

theorem forall₂_quantities (h : List.Forall₂ (fun o s => s.Normal ∧ v o ∈ s) l known)
    (hv : l.map v = qs.map .number) (hs : known.mapM ValueSet.quantities? = some sets) :
    List.Forall₂ (fun q a => a.Bounds q) qs sets := by
  refine forall₂_kind (fun {s q a} hn hq hs => ?_) h hv (forall₂_of_mapM hs)
  cases s <;> cases hs
  exact ⟨hn, hq⟩

theorem forall₂_truths {bs : List Bool} {ts : List Truths}
    (h : List.Forall₂ (fun o s => s.Normal ∧ v o ∈ s) l known)
    (hv : l.map v = bs.map .boolean) (hs : known.mapM ValueSet.truths? = some ts) :
    List.Forall₂ (· ∈ ·) bs ts := by
  refine forall₂_kind (fun {s b t} _ hb hs => ?_) h hv (forall₂_of_mapM hs)
  cases s <;> cases hs
  exact hb

/-- All operands have their value read, and none of them is a union. -/
theorem forall₂_values (hc : Chooses g v) (h : List.Forall₂ (Covers g v isExact) l known)
    (hu : ∀ o ∈ l, ¬ g.isUnion o) : List.Forall₂ (fun o s => s.Normal ∧ v o ∈ s) l known := by
  induction h with
  | nil => exact .nil
  | cons hos _ ih =>
    rw [List.forall_mem_cons] at hu
    exact .cons ⟨hos.normal, hos.mem _ (hc.mem_extent_self hu.1)⟩ (ih hu.2)

theorem Covers.number_mem {o : NodeId} (ho : Covers g v isExact o s) (hc : Chooses g v) (q : ℚ)
    (hq : .number q ∈ spread g v o) : .number q ∈ s :=
  ho.mem _ (hc.spread_subset _ hq)

/-- A node that stands for something stands for some number, if for nothing else. -/
theorem exists_number {o : NodeId} (h : (extent g v o).Nonempty)
    (hq : ∀ y ∈ spread g v o, ∃ q, y = .number q) : ∃ q, .number q ∈ spread g v o := by
  obtain ⟨y, m, hm, -⟩ := h
  obtain ⟨q, hq⟩ := hq _ (mem_spread hm)
  exact ⟨q, hq ▸ mem_spread hm⟩

theorem compares_mem {R : ℚ → ℚ → Prop} {a b : NodeId} {s t : ValueSet Exact} {strict : Bool}
    {r : Truths} (hc : Chooses g v) (ha : Covers g v isExact a s) (hb : Covers g v isExact b t)
    (hR : ∀ q r, R q r ↔ if strict then r < q else r ≤ q)
    (hx : Compares R (spread g v a) (spread g v b) x) (h : exceeds? s t strict = some r) :
    x ∈ (.boolean r : ValueSet Exact) := by
  obtain ⟨hq, hr, hx⟩ := hx
  simp only [hR] at hx
  exact exceeds?_mem ha.normal hb.normal (ha.number_mem hc) (hb.number_mem hc)
    (exists_number ha.nonempty hq) (exists_number hb.nonempty hr) h hx

theorem relation?_mem {r : Truths} (hc : Chooses g v) (hd : Denotes g v e x)
    (hrel : e.op.has .relation) (hu : ∀ o ∈ e.valueOperands, ¬ g.isUnion o)
    (h : List.Forall₂ (Covers g v isExact) e.operands known)
    (hr : relation? e.op known (e.operands.map isExact) = some r) :
    x ∈ (.boolean r : ValueSet Exact) := by
  obtain ⟨a, b, hab⟩ := hd.relation hrel
  obtain ⟨op, l, asserted⟩ := e
  subst hab
  obtain _ | ⟨ha, _ | ⟨hb, _ | ⟨_, _⟩⟩⟩ := h
  have value : ∀ {o s}, Covers g v isExact o s → ¬ g.isUnion o → v o ∈ s := fun ho hu =>
    ho.mem _ (hc.mem_extent_self hu)
  cases op <;> simp [Operator.has, Operator.having, Operator.relational] at hrel
  case is =>
    exact equals?_mem ha.normal hb.normal (value ha (hu a (by simp [Expression.valueOperands])))
      (value hb (hu b (by simp [Expression.valueOperands]))) hr hd
  case isSubset =>
    exact belongs?_mem ha.normal hb.normal (value ha (hu a (by simp [Expression.valueOperands])))
      hb.mem hb.nonempty hb.exact hr hd
  case isSuperset =>
    exact belongs?_mem hb.normal ha.normal (value hb (hu b (by simp [Expression.valueOperands])))
      ha.mem ha.nonempty ha.exact hr hd
  case greaterOrEqual => exact compares_mem hc ha hb (by simp) hd hr
  case greaterThan => exact compares_mem hc ha hb (by simp) hd hr
  case lessOrEqual => exact compares_mem hc hb ha (by simp) hd.flip hr
  case lessThan => exact compares_mem hc hb ha (by simp) hd.flip hr

/-- The exponent is known as one value, and no negative base has an exponent out of range. -/
def PowerReadable (v : Valuation) (e : Expression) (known : List (ValueSet Exact)) : Prop :=
  e.op = .power → (∀ s ∈ known[1]?, s.isSingleton) ∧ ∀ a n, e.operands.map v = [.number a, .number n] →
    n.num.natAbs < 2147483647 ∨ 0 ≤ a

theorem valueOperands_eq (h : e.op.has .arithmetic ∨ e.op.has .logic) :
    e.valueOperands = e.operands := by
  obtain ⟨op, l, a⟩ := e
  cases op <;> simp_all [Operator.has, Operator.having, Operator.logical] <;> rfl

/-- Of the operators that combine sets only unions have a meaning here. -/
theorem not_denotes_of_set (h : e.op.has .set) (he : e.op ≠ .union) : ¬ Denotes g v e x := by
  obtain ⟨op, l, a⟩ := e
  intro hd
  cases op <;> simp_all [Operator.has, Operator.having, Denotes, Operator.Denotes, Combines,
    Operator.arithmetic?, Operator.logical?]

theorem PowerReadable.inRange (hp : PowerReadable v e known) (hq : e.operands.map v = qs.map .number)
    (hs : known.mapM ValueSet.quantities? = some sets) : e.op = .power → PowerInRange qs sets := by
  intro he
  obtain ⟨h1, h2⟩ := hp he
  refine ⟨fun a ha => ?_, fun a n hqs => h2 a n (by rw [hq, hqs]; rfl)⟩
  cases forall₂_of_mapM hs with
  | nil => cases ha
  | cons _ hf =>
    cases hf with
    | nil => cases ha
    | @cons t _ _ _ ht _ =>
      cases ha
      cases t <;> cases ht
      simpa [ValueSet.isSingleton, ValueSet.single?, Quantities.single?, Numbers.isSingleton]
        using h1 _ rfl

theorem evaluateKnown?_mem (hc : Chooses g v) (hd : Denotes g v e x) (he : e.op ≠ .union)
    (hu : ∀ o ∈ e.valueOperands, ¬ g.isUnion o) (hp : PowerReadable v e known)
    (h : List.Forall₂ (Covers g v isExact) e.operands known)
    (hs : evaluateKnown? e.op known (e.operands.map isExact) = some s) : s.Normal ∧ x ∈ s := by
  unfold evaluateKnown? at hs
  split_ifs at hs with hl hr hset
  · obtain ⟨t, ht, rfl⟩ := Option.map_eq_some_iff.1 hs
    obtain ⟨bs, b, hb, hlog, rfl⟩ := hd.logic hl
    rw [valueOperands_eq (Or.inr hl)] at hu
    obtain ⟨ts, hts, -⟩ := Option.bind_eq_some_iff.1 ht
    exact ⟨trivial, logic?_mem (forall₂_truths (forall₂_values hc h hu) hb hts) hlog hts ht⟩
  · obtain ⟨t, ht, rfl⟩ := Option.map_eq_some_iff.1 hs
    exact ⟨trivial, relation?_mem hc hd hr hu h ht⟩
  · exact absurd hd (not_denotes_of_set hset he)
  · have ha : e.op.has .arithmetic := by
      cases hop : e.op <;> simp_all [Operator.has, Operator.having, Operator.logical,
        Operator.relational]
    obtain ⟨c, hc', rfl⟩ := Option.map_eq_some_iff.1 hs
    obtain ⟨qs, q, hq, har, rfl⟩ := hd.arithmetic ha
    rw [valueOperands_eq (Or.inl ha)] at hu
    obtain ⟨sets, hsets, -⟩ := Option.bind_eq_some_iff.1 hc'
    exact arithmetic?_bounds (forall₂_quantities (forall₂_values hc h hu) hq hsets) har
      (hp.inRange hq hsets) hsets hc'

theorem reduce?_union (hn : ∀ t ∈ known, t.Normal)
    (h : reduce? (fun a b => (a.union b).toOption) known = some s) :
    s.Normal ∧ ∀ x, x ∈ s ↔ ∃ t ∈ known, x ∈ t := by
  cases known with
  | nil => cases h
  | cons t known =>
    rw [List.forall_mem_cons] at hn
    obtain ⟨ht, hn⟩ := hn
    rw [reduce?] at h
    induction known generalizing t with
    | nil => cases h; exact ⟨ht, by simp⟩
    | cons u known ih =>
      rw [List.forall_mem_cons] at hn
      rw [List.foldlM_cons] at h
      obtain ⟨w, hw, h⟩ := Option.bind_eq_some_iff.1 h
      have hmem := fun x => ValueSet.mem_union (x := x) ht hn.1 (toOption_eq_some hw)
      obtain ⟨h1, h2⟩ := ih w h (ht.union hn.1 (toOption_eq_some hw)) hn.2
      refine ⟨h1, fun x => ?_⟩
      simp only [h2, List.mem_cons, exists_eq_or_imp, hmem, or_assoc]

variable {values : NodeId → Option (ValueSet Exact)}

theorem evaluate?_cases
    (h : ∀ o ∈ l, ∀ s, values o = some s → Covers g v isExact o s)
    {op : Operator} {exact : List Bool} (hs : evaluate? op (l.map values) exact = some s) :
    (∃ known, l.mapM values = some known ∧ evaluateKnown? op known exact = some s) ∨
      unknown? op = some s := by
  unfold evaluate? at hs
  split at hs
  · rename_i t ht
    have hmem := List.mem_of_find?_eq_some ht
    have hempty := List.find?_some ht
    simp only [List.mem_filterMap, List.mem_map, id_eq, exists_eq_right] at hmem
    obtain ⟨o, ho, hot⟩ := hmem
    have hcov := h o ho t hot
    obtain ⟨y, hy⟩ := hcov.nonempty
    exact absurd (hcov.mem y hy) (ValueSet.not_mem_of_isEmpty hcov.normal hempty)
  · rw [List.mapM_map] at hs
    split at hs
    · rename_i known hk
      rcases Option.or_eq_some_iff.1 hs with hs | ⟨-, hs⟩
      · exact Or.inl ⟨known, hk, hs⟩
      · exact Or.inr hs
    · exact Or.inr hs

theorem forall₂_covers
    (h : ∀ o ∈ l, ∀ s, values o = some s → Covers g v isExact o s)
    (hk : l.mapM values = some known) : List.Forall₂ (Covers g v isExact) l known := by
  have hf := forall₂_of_mapM hk
  clear hk
  induction hf with
  | nil => exact .nil
  | cons ho _ ih =>
    rw [List.forall_mem_cons] at h
    exact .cons (h.1 _ ho) (ih h.2)

/-- The value of an expression lies in the set that is computed for it. -/
theorem evaluate?_mem (hc : Chooses g v) (hd : Denotes g v e x) (he : e.op ≠ .union)
    (hu : ∀ o ∈ e.valueOperands, ¬ g.isUnion o)
    (hp : ∀ known, e.operands.mapM values = some known → PowerReadable v e known)
    (h : ∀ o ∈ e.operands, ∀ s, values o = some s → Covers g v isExact o s)
    (hs : evaluate? e.op (e.operands.map values) (e.operands.map isExact) = some s) :
    s.Normal ∧ x ∈ s := by
  rcases evaluate?_cases h hs with ⟨known, hk, hs⟩ | hs
  · exact evaluateKnown?_mem hc hd he hu (hp known hk) (forall₂_covers h hk) hs
  · unfold unknown? at hs
    split_ifs at hs with hpred
    cases hs
    obtain ⟨b, rfl⟩ := Operator.Denotes.boolean hd hpred
    exact ⟨trivial, Truths.mem_all b⟩

theorem normal_of_covers (h : List.Forall₂ (Covers g v isExact) l known) :
    ∀ t ∈ known, t.Normal := by
  induction h with
  | nil => simp
  | cons ho _ ih => exact List.forall_mem_cons.2 ⟨ho.normal, ih⟩

/-- The set that is computed for a union holds what the sets of the operands hold. -/
theorem evaluate?_union {op : Operator} (hop : op = .union)
    (h : ∀ o ∈ l, ∀ s, values o = some s → Covers g v isExact o s)
    (hs : evaluate? op (l.map values) (l.map isExact) = some s) :
    ∃ known, l.mapM values = some known ∧ s.Normal ∧ ∀ x, x ∈ s ↔ ∃ t ∈ known, x ∈ t := by
  subst hop
  rcases evaluate?_cases h hs with ⟨known, hk, hs⟩ | hs
  · exact ⟨known, hk, reduce?_union (normal_of_covers (forall₂_covers h hk)) hs⟩
  · cases hs

end Propagation

end ParameterSolver
