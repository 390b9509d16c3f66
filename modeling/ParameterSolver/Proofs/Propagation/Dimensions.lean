import ParameterSolver.Proofs.Blueprint.Inference
import ParameterSolver.Proofs.Numbers.Maps
import ParameterSolver.Proofs.Propagation.Strict
import ParameterSolver.Proofs.Propagation.Sweep

/-! Evaluation of sets of known dimensions. Where an operator asks for operands of one dimension and
gets them, no operation on sets fails because of units, so that the strict evaluation gives what
evaluation gives; and the numbers that come out are of the dimension that the operator makes of those of
its operands. -/

namespace ParameterSolver

variable {α β γ : Type} {a b s v : ValueSet α} {p q c : Quantities α}
  {op : Operator} {d : Dimension → ℤ} {exact : List Bool}

theorem eq_numeric_of_quantities? (h : s.quantities? = some q) : s = .numeric q := by
  cases s <;> cases h
  rfl

/-! What an operation makes of a set without elements has none either, whatever its unit is. -/

namespace Quantities

variable [Scalar α]

theorem isEmpty_of_add (h : p.add q = .ok c) (hp : p.isEmpty) : c.isEmpty := by
  rw [isEmpty, (ValueSet.combine_ok h).1]
  exact Numbers.isEmpty_pairwise (Or.inl hp)

theorem isEmpty_of_mul (h : p.mul q = .ok c) (he : p.isEmpty ∨ q.isEmpty) : c.isEmpty := by
  rw [isEmpty, mul_ok h]
  exact Numbers.isEmpty_pairwise he

theorem isEmpty_of_invert (h : p.invert = .ok c) (hp : p.isEmpty) : c.isEmpty := by
  rw [isEmpty, invert_ok h]
  exact Numbers.isEmpty_map hp

theorem isEmpty_neg (hp : p.isEmpty) : p.neg.isEmpty := Numbers.isEmpty_map hp

theorem dims_of_mul (h : p.mul q = .ok c) : c.unit.dims = p.unit.dims + q.unit.dims := by
  unfold mul at h
  cases hunit : p.unit.mul q.unit with
  | error e =>
    rw [hunit] at h
    cases h
  | ok u =>
    rw [hunit] at h
    cases h
    rw [MeasureUnit.dims_coherent, MeasureUnit.dims_of_mul hunit]

theorem dims_of_invert (h : p.invert = .ok c) : c.unit.dims = -p.unit.dims := by
  unfold invert at h
  cases hunit : p.unit.power (-1) with
  | error e =>
    rw [hunit] at h
    cases h
  | ok u =>
    rw [hunit] at h
    cases h
    rw [MeasureUnit.dims_coherent, MeasureUnit.dims_of_inverse hunit]

end Quantities

namespace Strict

@[simp] theorem pure_eq (x : β) : (pure x : Attempt α β) = known (some x) := rfl

@[simp] theorem run_known (x : Option β) : (known x : Attempt α β).run = .ok x := rfl

@[simp] theorem known_some_bind (x : β) (f : β → Attempt α γ) : known (some x) >>= f = f x := rfl

@[simp] theorem known_none_bind (f : β → Attempt α γ) : (known none >>= f : Attempt α γ) = known none := rfl

@[simp] theorem map_known (f : β → γ) (x : Option β) :
    (f <$> known x : Attempt α γ) = known (x.map f) := by
  cases x <;> rfl

/-- An operation that can only fail because of its units is not stopped on sets of one dimension. -/
theorem attempt_eq {r : Except (SetError α) β}
    (hr : ∀ u v, r = .error (.unitMismatch u v) →
      ∃ p q, a = .numeric p ∧ b = .numeric q ∧ p.unit.commensurable q.unit = false)
    (h : a.Comparable b) : attempt a b r = known r.toOption := by
  unfold attempt
  split
  · rfl
  · rename_i u v
    obtain ⟨p, q, hp, hq, hunit⟩ := hr u v rfl
    rw [if_pos]
    · rfl
    · simpa using h p q hp hq hunit
  · rfl

/-- Two folds that agree on what keeps to an invariant. -/
theorem foldlM_known {P : β → Prop} {f : β → γ → Option β} {f' : β → γ → Attempt α β} {l : List γ}
    {x : β} (hf : ∀ y, P y → ∀ z ∈ l, f' y z = known (f y z) ∧ ∀ w, f y z = some w → P w) (hx : P x) :
    l.foldlM f' x = known (l.foldlM f x) ∧ ∀ w, l.foldlM f x = some w → P w := by
  induction l generalizing x with
  | nil => exact ⟨rfl, by rintro _ ⟨⟩; exact hx⟩
  | cons z l ih =>
    obtain ⟨hz, hl⟩ := hf x hx z (by simp)
    rw [List.foldlM_cons, List.foldlM_cons, hz]
    cases hy : f x z with
    | none => exact ⟨rfl, nofun⟩
    | some y => exact ih (fun y hy z hz => hf y hy z (.tail _ hz)) (hl y hy)

theorem compare_eq (h : p.unit.dims = q.unit.dims) : compare p q = known (some ()) := by
  have hunit : p.unit.commensurable q.unit := MeasureUnit.commensurable_iff.2 h
  rw [compare, Quantities.requireSameDimension, if_pos hunit]
  rfl

theorem attempt_op {f : ValueSet α → ValueSet α → Except (SetError α) (ValueSet α)}
    (hf : ValueSet.Dimensional f) (h : a.Comparable b) : attempt a b (f a b) = known (f a b).toOption :=
  attempt_eq (hf.mismatch a b) h

theorem reduce_known {P : β → Prop} {f : β → β → Option β} {f' : β → β → Attempt α β} {l : List β}
    (hf : ∀ y z, P y → P z → f' y z = known (f y z) ∧ ∀ w, f y z = some w → P w) (hl : ∀ x ∈ l, P x) :
    reduce f' l = known (Propagation.reduce? f l) ∧
      ∀ w, Propagation.reduce? f l = some w → P w := by
  cases l with
  | nil => exact ⟨rfl, nofun⟩
  | cons x l =>
    obtain ⟨hx, hl⟩ := List.forall_mem_cons.1 hl
    exact foldlM_known (fun y hy z hz => hf y z hy (hl z hz)) hx

/-! Arithmetic. -/

variable [Scalar α]

theorem add_eq (h : (ValueSet.numeric p).Comparable (.numeric q)) :
    add p q = known (p.add q).toOption :=
  attempt_eq (fun _ _ he => ⟨p, q, rfl, rfl, Quantities.error_of_combine he⟩) h

/-- Sums of terms of one dimension are of this dimension. -/
theorem reduce_add (f : Quantities α → Quantities α) (hf : ∀ q, (f q).unit = q.unit)
    {l : List (Quantities α)} (hl : ∀ q ∈ l, q.unit.dims = d) :
    reduce (fun a b => add a (f b)) l =
        known (Propagation.reduce? (fun a b => (a.add (f b)).toOption) l) ∧
      ∀ c, Propagation.reduce? (fun a b => (a.add (f b)).toOption) l = some c → c.unit.dims = d := by
  refine reduce_known (fun a b ha hb => ⟨add_eq ?_, fun c hc => ?_⟩) hl
  · have hfits {q : Quantities α} (hq : q.unit.dims = d) : (ValueSet.numeric q).Fits d :=
      (ValueSet.measures_numeric.2 hq).fits
    exact (hfits ha).comparable (hfits ((congrArg MeasureUnit.dims (hf b)).trans hb))
  · rw [(ValueSet.combine_ok (Propagation.toOption_eq_some hc)).2, ha]

theorem forM_eq_pure {m : Type → Type} [Monad m] [LawfulMonad m] {f : β → m PUnit} {l : List β}
    (h : ∀ x ∈ l, f x = pure ⟨⟩) : l.forM f = pure ⟨⟩ := by
  induction l with
  | nil => rfl
  | cons x l ih =>
    obtain ⟨hx, hl⟩ := List.forall_mem_cons.1 h
    rw [List.forM_eq_forM, List.forM_cons, hx, pure_bind, ← List.forM_eq_forM, ih hl]

theorem extremum_eq (pick : α → α → α) (start : α) {l : List (Quantities α)}
    (hl : ∀ q ∈ l, q.unit.dims = d) : extremum pick start l = known (Propagation.extremum? pick start l) := by
  cases l with
  | nil => rfl
  | cons p l =>
    have hp := hl p (by simp)
    have hcompare : (p :: l).forM (compare p) = pure ⟨⟩ :=
      forM_eq_pure fun q hq => compare_eq (hp.trans (hl q hq).symm)
    rw [extremum, List.head?_cons, known_some_bind, hcompare, pure_bind]

theorem shift_eq (p : Quantities α) (x : α) : shift p x = known (Propagation.shift? p x) := by
  refine add_eq fun p' q' hp hq hunit => ?_
  cases hp
  cases hq
  rw [MeasureUnit.commensurable_iff.2 rfl] at hunit
  cases hunit

theorem arithmetic_eq {l : List (ValueSet α)}
    (h : Blueprint.needsSameUnit op → ∃ d, ∀ s ∈ l, s.Measures d) :
    arithmetic op l = known (Propagation.arithmetic? op l) := by
  cases hsets : l.mapM ValueSet.quantities? with
  | none => simp [arithmetic, Propagation.arithmetic?, hsets]
  | some sets =>
    have hdims (hop : Blueprint.needsSameUnit op) : ∃ d, ∀ q ∈ sets, q.unit.dims = d := by
      obtain ⟨d, hd⟩ := h hop
      refine ⟨d, fun q hq => ?_⟩
      obtain ⟨s, hs, hsq⟩ := (Knowledge.mem_of_mapM hsets).2 q hq
      exact hd s hs q (eq_numeric_of_quantities? hsq)
    cases hfirst : sets.head? with
    | none => simp [arithmetic, Propagation.arithmetic?, hsets, hfirst]
    | some first =>
      unfold arithmetic Propagation.arithmetic?
      rw [hsets, known_some_bind, hfirst, known_some_bind, Option.bind_eq_bind, Option.bind_some]
      rw [hfirst, Option.bind_eq_bind, Option.bind_some]
      cases op <;> dsimp only
      case add =>
        obtain ⟨d, hd⟩ := hdims rfl
        exact (reduce_add id (fun _ => rfl) hd).1
      case subtract =>
        obtain ⟨d, hd⟩ := hdims rfl
        exact (reduce_add Quantities.neg (fun _ => rfl) hd).1
      case floor => rw [shift_eq, map_known]
      case ceil => rw [shift_eq, map_known]
      case cos =>
        rw [shift_eq]
        cases Propagation.shift? first Scalar.halfPi <;> rfl
      case min =>
        obtain ⟨d, hd⟩ := hdims rfl
        exact extremum_eq _ _ hd
      case max =>
        obtain ⟨d, hd⟩ := hdims rfl
        exact extremum_eq _ _ hd

/-! Relations and sets. -/

theorem equals_eq (h : a.Comparable b) : equals a b = known (Propagation.equals? a b) := by
  unfold equals Propagation.equals?
  rw [attempt_op ValueSet.dimensional_inter h]
  cases (a.inter b).toOption <;> rfl

theorem belongs_eq (h : a.Comparable b) (isExact : Bool) :
    belongs a b isExact = known (Propagation.belongs? a b isExact) := by
  unfold belongs Propagation.belongs?
  rw [attempt_op ValueSet.dimensional_inter h, attempt_eq (fun _ _ => ValueSet.error_of_isSubset) h]
  cases (a.inter b).toOption with
  | none => rfl
  | some common =>
    rw [known_some_bind, Option.bind_eq_bind, Option.bind_some]
    split_ifs
    · rfl
    · cases (a.isSubset b).toOption <;> rfl

theorem exceeds_eq (ha : a.Measures d) (hb : b.Measures d) (strict : Bool) :
    exceeds a b strict = known (Propagation.exceeds? a b strict) := by
  unfold exceeds
  cases hp : a.quantities? with
  | none => simp [Propagation.exceeds?, hp]
  | some p =>
    cases hq : b.quantities? with
    | none => simp [Propagation.exceeds?, hp, hq]
    | some q =>
      have hpd := ha p (eq_numeric_of_quantities? hp)
      have hqd := hb q (eq_numeric_of_quantities? hq)
      rw [known_some_bind, known_some_bind, compare_eq (hpd.trans hqd.symm), known_some_bind]

theorem relation_eq {l : List (ValueSet α)} (hl : ∀ s ∈ l, s.Measures d) :
    relation op l exact = known (Propagation.relation? op l exact) := by
  match l with
  | [] | [_] => rfl
  | a :: b :: l =>
    have ha := hl a (by simp)
    have hb := hl b (by simp)
    have hab := ha.fits.comparable hb.fits
    have hba := hb.fits.comparable ha.fits
    unfold relation Propagation.relation?
    dsimp only
    cases op <;> dsimp only
    case is => exact equals_eq hab
    case isSubset => exact belongs_eq hab _
    case isSuperset => exact belongs_eq hba _
    case greaterOrEqual => exact exceeds_eq ha hb _
    case lessOrEqual => exact exceeds_eq hb ha _
    case greaterThan => exact exceeds_eq ha hb _
    case lessThan => exact exceeds_eq hb ha _

omit [Scalar α] in
/-- Sets of one dimension combine to a set of this dimension. -/
theorem reduce_op {f : ValueSet α → ValueSet α → Except (SetError α) (ValueSet α)}
    (hf : ValueSet.Dimensional f) {l : List (ValueSet α)} (hl : ∀ s ∈ l, s.Measures d) :
    reduce (fun a b => attempt a b (f a b)) l =
        known (Propagation.reduce? (fun a b => (f a b).toOption) l) ∧
      ∀ s, Propagation.reduce? (fun a b => (f a b).toOption) l = some s → s.Measures d :=
  reduce_known (fun _ _ ha hb => ⟨attempt_op hf (ha.fits.comparable hb.fits),
    fun _ hc => hf.measures ha (Propagation.toOption_eq_some hc)⟩) hl

theorem sets_eq {l : List (ValueSet α)} (hl : ∀ s ∈ l, s.Measures d) :
    sets op l exact = known (Propagation.sets? op l exact) ∧
      ∀ s, Propagation.sets? op l exact = some s → s.Measures d := by
  unfold sets Propagation.sets?
  dsimp only
  generalize exact.all id = isExact
  cases op
  case union => exact reduce_op ValueSet.dimensional_union hl
  case intersection => exact reduce_op ValueSet.dimensional_inter hl
  case symmetricDifference =>
    cases isExact with
    | true => exact reduce_op ValueSet.dimensional_symmDiff hl
    | false => exact reduce_op ValueSet.dimensional_union hl
  case difference =>
    cases isExact with
    | true => exact reduce_op ValueSet.dimensional_diff hl
    | false =>
      refine ⟨rfl, fun s hs => hl s (List.mem_of_mem_head? hs)⟩
  all_goals exact ⟨rfl, fun s hs => absurd hs.symm (Option.some_ne_none s)⟩

theorem evaluateKnown_eq {l : List (ValueSet α)}
    (h : Blueprint.needsSameUnit op → ∃ d, ∀ s ∈ l, s.Measures d) :
    evaluateKnown op l exact = known (Propagation.evaluateKnown? op l exact) := by
  unfold evaluateKnown Propagation.evaluateKnown?
  split_ifs with hlogic hrelation hset
  · rfl
  · obtain ⟨d, hd⟩ := h (by simp [Blueprint.needsSameUnit, hrelation])
    rw [relation_eq hd, map_known]
  · by_cases hop : Blueprint.needsSameUnit op
    · obtain ⟨d, hd⟩ := h hop
      exact (sets_eq hd).1
    · cases op <;> first | rfl | exact absurd rfl hop
  · rw [arithmetic_eq h, map_known]

/-- Operands without elements are not combined, and the others are of one dimension if they have to
be. -/
theorem evaluate_eq {l : List (Option (ValueSet α))}
    (h : Blueprint.needsSameUnit op → ∃ d, ∀ s, some s ∈ l → s.Fits d) :
    evaluate op l exact = .ok (Propagation.evaluate? op l exact) := by
  unfold evaluate Propagation.evaluate?
  cases hfed : (l.filterMap id).find? ValueSet.isEmpty with
  | some empty => rfl
  | none =>
    cases hvalues : l.mapM id with
    | none => rfl
    | some values =>
      dsimp only
      rw [evaluateKnown_eq]
      · rfl
      intro hop
      obtain ⟨d, hd⟩ := h hop
      refine ⟨d, fun s hs => ?_⟩
      obtain ⟨o, ho, rfl⟩ := (Knowledge.mem_of_mapM hvalues).2 s hs
      refine hd s ho (Bool.eq_false_iff.2 ?_)
      exact List.find?_eq_none.1 hfed s (List.mem_filterMap.2 ⟨_, ho, rfl⟩)

end Strict

/-! The dimensions of what is evaluated. -/

namespace Propagation

variable [Scalar α] {l : List (ValueSet α)}

/-- Arithmetic is done on sets of numbers, at least one. -/
theorem exists_sets (h : arithmetic? op l = some c) :
    ∃ first rest, l.mapM ValueSet.quantities? = some (first :: rest) := by
  unfold arithmetic? at h
  obtain ⟨sets, hsets, h⟩ := Option.bind_eq_some_iff.1 h
  obtain ⟨first, hfirst, -⟩ := Option.bind_eq_some_iff.1 h
  obtain ⟨rest, rfl⟩ := List.head?_eq_some_iff.1 hfirst
  exact ⟨first, rest, hsets⟩

theorem unit_of_shift? {x : α} (h : shift? p x = some c) : c.unit = p.unit :=
  (ValueSet.combine_ok (toOption_eq_some h)).2

theorem unit_of_extremum? {pick : α → α → α} {start : α} {rest : List (Quantities α)}
    (h : extremum? pick start (p :: rest) = some c) : c.unit = p.unit := by
  unfold extremum? at h
  rw [List.head?_cons, Option.bind_eq_bind, Option.bind_some] at h
  dsimp only at h
  split_ifs at h
  · cases h
  · obtain ⟨lo, -, h⟩ := Option.bind_eq_some_iff.1 h
    obtain ⟨hi, -, h⟩ := Option.bind_eq_some_iff.1 h
    cases h
    rfl

/-- The dimensions of factors add up, and none of the factors of a product with elements is empty. -/
theorem dims_of_product {l : List (Quantities α)}
    (h : l.foldlM (fun a b => (a.mul b).toOption) p = some c) :
    c.unit.dims = p.unit.dims + (l.map fun q => q.unit.dims).sum ∧
      (c.isEmpty = false → p.isEmpty = false ∧ ∀ q ∈ l, q.isEmpty = false) := by
  induction l generalizing p with
  | nil =>
    cases h
    simp
  | cons q l ih =>
    rw [List.foldlM_cons] at h
    obtain ⟨x, hx, h⟩ := Option.bind_eq_some_iff.1 h
    have hx := toOption_eq_some hx
    obtain ⟨hdims, hfed⟩ := ih h
    refine ⟨?_, fun hc => ?_⟩
    · rw [hdims, Quantities.dims_of_mul hx, List.map_cons, List.sum_cons, add_assoc]
    · obtain ⟨hxe, hl⟩ := hfed hc
      have hp := eq_false_of_imp (fun hp => Quantities.isEmpty_of_mul hx (Or.inl hp)) hxe
      have hq := eq_false_of_imp (fun hq => Quantities.isEmpty_of_mul hx (Or.inr hq)) hxe
      exact ⟨hp, List.forall_mem_cons.2 ⟨hq, hl⟩⟩

theorem dims_of_keepsDimension (hop : op.keepsDimension) (hl : ∀ s ∈ l, s.Measures d)
    (h : arithmetic? op l = some c) : c.unit.dims = d := by
  obtain ⟨first, rest, hsets⟩ := exists_sets h
  have hdims : ∀ q ∈ first :: rest, q.unit.dims = d := fun q hq => by
    obtain ⟨s, hs, hsq⟩ := (Knowledge.mem_of_mapM hsets).2 q hq
    exact hl s hs q (eq_numeric_of_quantities? hsq)
  have hfirst := hdims first (by simp)
  unfold arithmetic? at h
  rw [hsets, Option.bind_eq_bind, Option.bind_some, List.head?_cons, Option.bind_eq_bind,
    Option.bind_some] at h
  cases op
  case add => exact (Strict.reduce_add id (fun _ => rfl) hdims).2 c h
  case subtract => exact (Strict.reduce_add Quantities.neg (fun _ => rfl) hdims).2 c h
  case round =>
    cases h
    exact hfirst
  case abs =>
    cases h
    exact hfirst
  case floor =>
    obtain ⟨q, hq, rfl⟩ := Option.map_eq_some_iff.1 h
    exact (congrArg MeasureUnit.dims (unit_of_shift? hq)).trans hfirst
  case ceil =>
    obtain ⟨q, hq, rfl⟩ := Option.map_eq_some_iff.1 h
    exact (congrArg MeasureUnit.dims (unit_of_shift? hq)).trans hfirst
  case min => exact (congrArg MeasureUnit.dims (unit_of_extremum? h)).trans hfirst
  case max => exact (congrArg MeasureUnit.dims (unit_of_extremum? h)).trans hfirst
  all_goals first | cases h | cases hop

theorem dims_of_multiply (h : arithmetic? .multiply l = some c) :
    ∃ sets, l.mapM ValueSet.quantities? = some sets ∧
      c.unit.dims = (sets.map fun q => q.unit.dims).sum := by
  obtain ⟨first, rest, hsets⟩ := exists_sets h
  unfold arithmetic? at h
  rw [hsets, Option.bind_eq_bind, Option.bind_some] at h
  refine ⟨_, hsets, ?_⟩
  rw [List.map_cons, List.sum_cons]
  exact (dims_of_product h).1

theorem dims_of_divide (h : arithmetic? .divide l = some c) :
    ∃ p q rest, l.mapM ValueSet.quantities? = some (p :: q :: rest) ∧
      c.unit.dims = p.unit.dims - q.unit.dims := by
  obtain ⟨first, rest, hsets⟩ := exists_sets h
  unfold arithmetic? at h
  rw [hsets, Option.bind_eq_bind, Option.bind_some, List.head?_cons, Option.bind_eq_bind,
    Option.bind_some] at h
  cases rest with
  | nil => cases h
  | cons second rest =>
    obtain ⟨inverse, hinverse, hc⟩ := Option.bind_eq_some_iff.1 h
    refine ⟨_, _, _, hsets, ?_⟩
    rw [Quantities.dims_of_mul (toOption_eq_some hc),
      Quantities.dims_of_invert (toOption_eq_some hinverse), sub_eq_add_neg]

/-- An expression with operands of one dimension is of this dimension if its operator keeps it. -/
theorem measures_of_keepsDimension (hop : op.keepsDimension) (hl : ∀ s ∈ l, s.Measures d)
    (h : evaluateKnown? op l exact = some v) : v.Measures d := by
  unfold evaluateKnown? at h
  split_ifs at h
  · obtain ⟨t, -, rfl⟩ := Option.map_eq_some_iff.1 h
    exact ValueSet.measures_boolean
  · obtain ⟨t, -, rfl⟩ := Option.map_eq_some_iff.1 h
    exact ValueSet.measures_boolean
  · exact (Strict.sets_eq hl).2 v h
  · obtain ⟨c, hc, rfl⟩ := Option.map_eq_some_iff.1 h
    exact ValueSet.measures_numeric.2 (dims_of_keepsDimension hop hl hc)

end Propagation

end ParameterSolver
