import ParameterSolver.Proofs.Continuum.Coarse
import ParameterSolver.Proofs.Pass.Reductions
import ParameterSolver.Proofs.Propagation.SetOperators
import ParameterSolver.Proofs.ValueSet.Dimensions

/-! The values of the formulas that the laws have, over the real numbers. A negative is a product and an
inverse a power with a constant, and a set with too many intervals is combined with a constant as its hull.
Up to that the formulas have the values of the operators. -/

namespace ParameterSolver

open Scalar Scalar.Ordered Scalar.Reading

section Coarse

variable {α : Type} [Scalar α] {s : ValueSet α} {op : Operator} {l : List (ValueSet α)}

/-- The set, or its hull if it has too many intervals. -/
def ValueSet.coarse : ValueSet α → ValueSet α
  | numeric q => numeric (q.map Numbers.coarse)
  | s => s

/-- The set has few enough intervals to be combined one by one with a constant. -/
def ValueSet.Few (s : ValueSet α) : Prop :=
  ∀ q, s = numeric q → q.base.intervals.length ≤ Numbers.maxPairs

theorem ValueSet.Few.coarse (h : s.Few) : s.coarse = s := by
  cases s with
  | numeric q =>
    obtain ⟨base, unit⟩ := q
    rw [ValueSet.coarse, Quantities.map, Numbers.coarse_of_few (h _ rfl)]
  | _ => rfl

namespace Propagation

/-- What an operator evaluates to over literals. -/
def onLiterals? (op : Operator) (l : List (ValueSet α)) : Option (ValueSet α) :=
  evaluate? op (l.map some) (l.map fun _ => true)

/-- The sets whose number of intervals decides how exact the tree of an operator is. -/
def delicate (op : Operator) (l : List (ValueSet α)) : List (ValueSet α) :=
  match op with
  | .subtract | .divide => l.tail
  | .ceil => (onLiterals? .ceil l).toList
  | _ => []

/-- What an operator evaluates to over literals if those sets take part as their hulls as soon as they
have too many intervals. -/
def coarsely? (op : Operator) (l : List (ValueSet α)) : Option (ValueSet α) :=
  match op, l with
  | .subtract, first :: rest | .divide, first :: rest => onLiterals? op (first :: rest.map .coarse)
  | .ceil, _ => (onLiterals? .ceil l).map .coarse
  | _, _ => onLiterals? op l

theorem coarsely?_eq (h : ∀ s ∈ delicate op l, s.Few) : coarsely? op l = onLiterals? op l := by
  have hmap {l : List (ValueSet α)} (h : ∀ s ∈ l, s.Few) : l.map .coarse = l :=
    (List.map_congr_left fun s hs => (h s hs).coarse).trans (List.map_id l)
  unfold coarsely?
  split
  · exact congrArg (fun l => onLiterals? _ (_ :: l)) (hmap h)
  · exact congrArg (fun l => onLiterals? _ (_ :: l)) (hmap h)
  · cases hv : onLiterals? .ceil l with
    | none => rfl
    | some v =>
      rw [Option.map_some, (h v (by simp [delicate, hv])).coarse]
  · rfl

end Propagation

end Coarse

theorem Quantities.base_eq_of_beq {p q : Quantities Continuum} (h : p == q) : p.base = q.base :=
  Numbers.ext_of_beq (Bool.and_eq_true_iff.1 h).2

theorem ValueSet.not_beq_of_coarse {s : ValueSet Continuum} {q : Quantities Continuum}
    (h : s == (numeric q).coarse) (hmany : Numbers.maxPairs < q.base.intervals.length) :
    (s == numeric q) = false := by
  cases s with
  | numeric p =>
    refine Bool.eq_false_iff.2 fun heq => ?_
    have hsame : q.base.coarse = q.base :=
      (Quantities.base_eq_of_beq h).symm.trans (Quantities.base_eq_of_beq heq)
    have hfew := Numbers.length_coarse_le q.base
    rw [hsame] at hfew
    omega
  | _ => rfl

/-- The sums `x + c`. -/
def Quantities.shift {α : Type} [Scalar α] (q : Quantities α) (c : α) : Quantities α :=
  ⟨q.base.add (.singleton c), q.unit⟩

/-- The operator computes with numbers. -/
def Operator.computes (op : Operator) : Bool := op.has .arithmetic && !op.has .set

namespace Propagation

variable {α : Type} [Scalar α] {op : Operator} {q p : Quantities α} {qs : List (Quantities α)}
  {exact : List Bool}

theorem evaluate?_numeric (hop : op.computes) (h : ∀ q ∈ qs, q.isEmpty = false) :
    evaluate? op ((qs.map ValueSet.numeric).map some) exact =
      (arithmetic? op (qs.map .numeric)).map .numeric := by
  have hkind : op.has .logic = false ∧ op.has .relation = false ∧ op.has .set = false ∧
      op.isPredicate = false := by
    revert hop
    cases op <;> decide
  obtain ⟨hlogic, hrelation, hset, hpredicate⟩ := hkind
  rw [evaluate?_of_nonempty (by simpa [ValueSet.isEmpty] using h)]
  simp [evaluateKnown?, unknown?, hlogic, hrelation, hset, hpredicate]

theorem evaluate?_relation {a b : ValueSet α} (hop : op.has .relation) (ha : a.isEmpty = false)
    (hb : b.isEmpty = false) (exact : List Bool) :
    evaluate? op ([a, b].map some) exact = some (.boolean ((relation? op [a, b] exact).getD .all)) := by
  have hkind : op.has .logic = false ∧ op.isPredicate := by
    revert hop
    cases op <;> decide
  rw [evaluate?_of_nonempty (by simp [ha, hb])]
  simp only [evaluateKnown?, unknown?, hkind, hop]
  cases relation? op [a, b] exact <;> rfl

omit [Scalar α] in
theorem mapM_quantities (qs : List (Quantities α)) :
    (qs.map ValueSet.numeric).mapM ValueSet.quantities? = some qs := by
  rw [List.mapM_map]
  exact List.mapM_pure.trans (congrArg some (List.map_id qs))

theorem arithmetic?_add : arithmetic? .add ((q :: qs).map .numeric) =
    qs.foldlM (fun a b => (a.add b).toOption) q := by
  simp only [arithmetic?, mapM_quantities]
  rfl

/-- A difference is the sum with the negatives. -/
theorem arithmetic?_subtract : arithmetic? .subtract ((q :: qs).map .numeric) =
    (qs.map Quantities.neg).foldlM (fun a b => (a.add b).toOption) q := by
  simp only [arithmetic?, mapM_quantities, List.foldlM_map]
  rfl

theorem shift?_eq (c : α) : shift? q c = some (q.shift c) := by
  have hsum := Quantities.add_ok (p := q) (q := ⟨.singleton c, q.unit⟩) rfl
  rw [shift?, hsum]
  rfl

theorem arithmetic?_multiply : arithmetic? .multiply [.numeric p, .numeric q] = (p.mul q).toOption := by
  change List.foldlM (fun a b : Quantities α => (a.mul b).toOption) p [q] = _
  simp

/-- The sums of sets without a dimension. -/
theorem foldlM_add (hq : q.unit.dims = 0) (hqs : ∀ p ∈ qs, p.unit.dims = 0) :
    qs.foldlM (fun a b => (a.add b).toOption) q =
      some ⟨(qs.map Quantities.base).foldl Numbers.add q.base, q.unit⟩ := by
  induction qs generalizing q with
  | nil => rfl
  | cons p qs ih =>
    obtain ⟨hp, hqs⟩ := List.forall_mem_cons.1 hqs
    rw [List.foldlM_cons, Quantities.add_ok (hq.trans hp.symm)]
    exact ih hq hqs

theorem onLiterals?_numeric (qs : List (Quantities α)) (hop : op.computes) (h : ∀ q ∈ qs, q.isEmpty = false) :
    onLiterals? op (qs.map .numeric) = (arithmetic? op (qs.map .numeric)).map .numeric :=
  evaluate?_numeric hop h

end Propagation

namespace Estimate

section Counts

variable {α : Type} [Scalar α] {r : Estimate α} {rs : List (Estimate α)} {q : Quantities α}
  {qs : List (Quantities α)} {op : Operator}

/-- What is known of a node is a set of numbers that has elements. -/
structure Counts (r : Estimate α) (q : Quantities α) : Prop where
  value : r.value = some (.numeric q)
  fed : q.isEmpty = false

theorem value_combine (hop : op.computes) (hrs : List.Forall₂ Counts rs qs) :
    (combine op rs).value = (Propagation.arithmetic? op (qs.map .numeric)).map .numeric := by
  have hvalues : rs.map value = (qs.map ValueSet.numeric).map some ∧ ∀ q ∈ qs, q.isEmpty = false := by
    induction hrs with
    | nil => simp
    | cons hr _ ih => exact ⟨by simp [hr.value, ih.1], List.forall_mem_cons.2 ⟨hr.fed, ih.2⟩⟩
  rw [combine, hvalues.1]
  exact Propagation.evaluate?_numeric hop hvalues.2

omit [Scalar α] in
theorem counts_given (h : q.isEmpty = false) : (given (.numeric q)).Counts q := ⟨rfl, h⟩

end Counts

section Steps

variable {r : Estimate Continuum} {q : Quantities Continuum} {c : Continuum}

theorem counts_constant (hc : isFinite c) :
    (interpretation.constant c).Counts (.plain (Numbers.singleton c)) := by
  obtain ⟨x, rfl⟩ := Continuum.isFinite_iff.1 hc
  obtain ⟨j, hj, -⟩ := Numbers.exists_singleton x
  refine counts_given ?_
  change (Numbers.singleton (Continuum.number x)).isEmpty = false
  rw [hj]
  rfl

/-- The sum with a constant. -/
theorem Counts.shift (hr : r.Counts q) (hq : q.Bare) (hc : isFinite c) :
    (interpretation.node .add [r, interpretation.constant c]).Counts (q.shift c) := by
  have hconstant := counts_constant hc
  refine ⟨?_, Numbers.isEmpty_add hq.canonical (canonical_number c) hr.fed hconstant.fed⟩
  change (combine .add _).value = _
  rw [value_combine rfl (.cons hr (.cons hconstant .nil)), Propagation.arithmetic?_add,
    Propagation.foldlM_add hq.dims (by simp [Quantities.plain])]
  rfl

/-- The negative. -/
theorem Counts.negative (hr : r.Counts q) (hq : q.Bare) : ∃ u, u.dims = 0 ∧
    (interpretation.negative r).Counts ⟨q.base.coarse.neg, u⟩ := by
  obtain ⟨u, hu, hdims⟩ := Quantities.exists_mul (q := .plain (.singleton (-1))) hq.dims
    MeasureUnit.dims_one
  have hone : isFinite (-1 : Continuum) := isFinite_neg isFinite_one
  refine ⟨u, hdims, ?_, Numbers.isEmpty_neg hq.canonical.coarse (Numbers.isEmpty_coarse hr.fed)⟩
  change (combine .multiply _).value = _
  rw [value_combine rfl (.cons hr (.cons (counts_constant hone) .nil)), List.map_cons, List.map_cons,
    List.map_nil, Propagation.arithmetic?_multiply, hu, ← Numbers.mul_neg_one hq.canonical]
  rfl

theorem Counts.round (hr : r.Counts q) (hq : q.Bare) :
    (interpretation.node .round [r]).Counts q.round := by
  refine ⟨?_, Numbers.isEmpty_round hq.canonical hr.fed⟩
  change (combine .round _).value = _
  rw [value_combine rfl (.cons hr .nil)]
  rfl

end Steps

end Estimate

namespace Propagation

open Estimate

/-- The operator has a value over the literals, and its tree the one that is coarse in places. -/
def Coarsely (op : Operator) (ss : List (ValueSet Continuum)) : Prop :=
  ∃ v w v', onLiterals? op ss = some v ∧ coarsely? op ss = some w ∧
    (interpretation.reduced op (ss.map .given)).value = some v' ∧ v' == w

section Trees

variable {op : Operator} {q p d : Quantities Continuum} {qs : List (Quantities Continuum)}

theorem isFinite_half : isFinite (0.5 : Continuum) := Continuum.isFinite_iff.2 ⟨_, Continuum.half_eq⟩

/-- The tree of an operator that has none of the sets made coarse. -/
theorem coarsely_of_value (qs : List (Quantities Continuum)) (hop : op.computes) (hfed : ∀ q ∈ qs, q.isEmpty = false)
    (hsame : coarsely? op (qs.map .numeric) = onLiterals? op (qs.map .numeric)) (hd : d.Bare)
    (hvalue : arithmetic? op (qs.map .numeric) = some d)
    (htree : (interpretation.reduced op ((qs.map ValueSet.numeric).map .given)).value =
      some (.numeric d)) : Coarsely op (qs.map .numeric) := by
  have hdirect : onLiterals? op (qs.map .numeric) = some (.numeric d) := by
    rw [onLiterals?_numeric qs hop hfed, hvalue]
    rfl
  exact ⟨_, _, _, hdirect, hsame.trans hdirect, htree, hd.beq hd rfl⟩

theorem coarsely_floor (hq : q.Bare) (hfed : q.isEmpty = false) : Coarsely .floor [.numeric q] := by
  have hhalf : isFinite (-0.5 : Continuum) := isFinite_neg isFinite_half
  have hshift : (q.shift (-0.5)).Bare := ⟨Numbers.canonical_add, hq.dims⟩
  refine coarsely_of_value [q] (d := (q.shift (-0.5)).round) rfl (by simpa using hfed) rfl
    ⟨hshift.canonical.round, hq.dims⟩ ?_ (((counts_given hfed).shift hq hhalf).round hshift).value
  change (shift? q (-0.5)).map _ = _
  rw [shift?_eq]
  rfl

theorem coarsely_cos (hq : q.Bare) (hfed : q.isEmpty = false) : Coarsely .cos [.numeric q] := by
  have hpi : isFinite (halfPi : Continuum) := Continuum.isFinite_iff.2 ⟨_, rfl⟩
  have hshift : (q.shift halfPi).Bare := ⟨Numbers.canonical_add, hq.dims⟩
  have hsin := Quantities.sin_ok hshift.dims
  refine coarsely_of_value [q] (d := .plain (q.shift halfPi).base.sin) rfl (by simpa using hfed)
    rfl ⟨hshift.canonical.sin Continuum.sineBounded, MeasureUnit.dims_one⟩ ?_ ?_
  · change (shift? q halfPi).bind (fun q => q.sin.toOption) = _
    rw [shift?_eq]
    exact congrArg Except.toOption hsin
  · refine (value_combine rfl (.cons ((counts_given hfed).shift hq hpi) .nil)).trans ?_
    exact congrArg (fun r => (Except.toOption r).map ValueSet.numeric) hsin

theorem coarsely_sqrt (hq : q.Bare) (hfed : q.isEmpty = false) : Coarsely .sqrt [.numeric q] := by
  have hpow := Quantities.pow_plain hq.dims (.singleton 0.5)
  refine coarsely_of_value [q] (d := .plain (q.base.pow (.singleton 0.5))) rfl
    (by simpa using hfed) rfl ⟨Numbers.canonical_pow, MeasureUnit.dims_one⟩ (congrArg Except.toOption hpow) ?_
  refine (value_combine rfl (.cons (counts_given hfed) (.cons (counts_constant isFinite_half) .nil))).trans ?_
  exact congrArg (fun r => (Except.toOption r).map ValueSet.numeric) hpow

theorem onLiterals?_ceil (hfed : q.isEmpty = false) :
    onLiterals? .ceil [.numeric q] = some (.numeric (q.neg.shift (-0.5)).round.neg) := by
  refine (onLiterals?_numeric [q] rfl (by simpa using hfed)).trans ?_
  change ((shift? q.neg (-0.5)).map _).map _ = _
  rw [shift?_eq]
  rfl

/-- The value of the ceiling is the negative of a rounded set, and that takes part as its hull. -/
theorem coarsely_ceil (hq : q.Bare) (hfed : q.isEmpty = false) : Coarsely .ceil [.numeric q] := by
  have hhalf : isFinite (-0.5 : Continuum) := isFinite_neg isFinite_half
  let rounded := (q.neg.shift (-0.5)).round
  have hrounded : rounded.base.Canonical := Numbers.canonical_add.round
  have hdirect : onLiterals? .ceil [.numeric q] = some (.numeric rounded.neg) := onLiterals?_ceil hfed
  have hcoarse : coarsely? .ceil [.numeric q] = some (.numeric (rounded.neg.map Numbers.coarse)) := by
    change (onLiterals? .ceil [.numeric q]).map _ = _
    rw [hdirect]
    rfl
  -- one constant after the other: the first sum is taken with the set that is coarse already
  obtain ⟨u, hu, hnegative⟩ := (counts_given hfed).negative hq
  have hnegated : (⟨q.base.coarse.neg, u⟩ : Quantities Continuum).Bare := ⟨hq.canonical.coarse.neg, hu⟩
  have hround := (hnegative.shift hnegated hhalf).round ⟨Numbers.canonical_add, hu⟩
  obtain ⟨u', hu', htree⟩ := hround.negative ⟨Numbers.canonical_add.round, hu⟩
  refine ⟨_, _, _, hdirect, hcoarse, htree.value, Quantities.Bare.beq ?_ ?_ ?_⟩
  · exact ⟨Numbers.canonical_add.round.coarse.neg, hu'⟩
  · exact ⟨hrounded.neg.coarse, hq.dims⟩
  · change (Numbers.round (q.base.coarse.neg.add _)).coarse.neg = rounded.base.neg.coarse
    rw [Numbers.neg_coarse hrounded, ← Numbers.neg_coarse hq.canonical, Numbers.coarse_add_singleton hhalf]
    rfl

theorem exists_negatives (h : ∀ q ∈ qs, q.Bare ∧ q.isEmpty = false) :
    ∃ ns, List.Forall₂ Counts (((qs.map ValueSet.numeric).map given).map interpretation.negative) ns ∧
      ns.map Quantities.base = qs.map (fun q => q.base.coarse.neg) ∧ ∀ n ∈ ns, n.unit.dims = 0 := by
  induction qs with
  | nil => exact ⟨[], .nil, rfl, by simp⟩
  | cons q qs ih =>
    obtain ⟨⟨hq, hfed⟩, hqs⟩ := List.forall_mem_cons.1 h
    obtain ⟨u, hu, hn⟩ := (counts_given hfed).negative hq
    obtain ⟨ns, hns, hbases, hdims⟩ := ih hqs
    exact ⟨_ :: ns, .cons hn hns, by rw [List.map_cons, hbases]; rfl, List.forall_mem_cons.2 ⟨hu, hdims⟩⟩

theorem onLiterals?_subtract (q : Quantities Continuum) (qs : List (Quantities Continuum))
    (h : ∀ p ∈ q :: qs, p.unit.dims = 0 ∧ p.isEmpty = false) :
    onLiterals? .subtract ((q :: qs).map .numeric) =
      some (.numeric ⟨(qs.map fun q => q.base.neg).foldl Numbers.add q.base, q.unit⟩) := by
  obtain ⟨hq, hqs⟩ := List.forall_mem_cons.1 h
  have hneg : ∀ p ∈ qs.map Quantities.neg, p.unit.dims = 0 :=
    List.forall_mem_map.2 fun p hp => (hqs p hp).1
  rw [onLiterals?_numeric _ rfl fun p hp => (h p hp).2, arithmetic?_subtract, foldlM_add hq.1 hneg,
    List.map_map]
  rfl

theorem coarsely?_subtract (h : ∀ p ∈ q :: qs, p.unit.dims = 0 ∧ p.isEmpty = false) :
    coarsely? .subtract ((q :: qs).map .numeric) =
      some (.numeric ⟨(qs.map fun q => q.base.coarse.neg).foldl Numbers.add q.base, q.unit⟩) := by
  obtain ⟨hq, hqs⟩ := List.forall_mem_cons.1 h
  have hmap : (qs.map ValueSet.numeric).map ValueSet.coarse =
      (qs.map (Quantities.map Numbers.coarse)).map .numeric := by simp [ValueSet.coarse]
  change onLiterals? .subtract (.numeric q :: (qs.map ValueSet.numeric).map .coarse) = _
  rw [hmap]
  refine (onLiterals?_subtract q (qs.map (Quantities.map Numbers.coarse)) ?_).trans ?_
  · refine List.forall_mem_cons.2 ⟨hq, List.forall_mem_map.2 fun p hp => ?_⟩
    exact ⟨(hqs p hp).1, Numbers.isEmpty_coarse (hqs p hp).2⟩
  · rw [List.map_map]
    rfl

theorem coarsely_subtract (h : ∀ p ∈ q :: qs, p.Bare ∧ p.isEmpty = false) :
    Coarsely .subtract ((q :: qs).map .numeric) := by
  obtain ⟨⟨hq, hfed⟩, hqs⟩ := List.forall_mem_cons.1 h
  have hdims : ∀ p ∈ q :: qs, p.unit.dims = 0 ∧ p.isEmpty = false := fun p hp =>
    ⟨(h p hp).1.dims, (h p hp).2⟩
  obtain ⟨ns, hns, hbases, hzero⟩ := exists_negatives hqs
  have htree : (combine .add (given (.numeric q) :: _)).value = _ :=
    value_combine rfl (.cons (counts_given hfed) hns)
  rw [arithmetic?_add, foldlM_add hq.dims hzero, hbases] at htree
  have hsum : (⟨(qs.map fun q => q.base.coarse.neg).foldl Numbers.add q.base, q.unit⟩ :
      Quantities Continuum).Bare := ⟨Numbers.canonical_foldl_add hq.canonical, hq.dims⟩
  exact ⟨_, _, _, onLiterals?_subtract q qs hdims, coarsely?_subtract hdims, htree, hsum.beq hsum rfl⟩

theorem onLiterals?_divide (hp : p.Bare) (hq : q.Bare) (hpfed : p.isEmpty = false)
    (hqfed : q.isEmpty = false) : ∃ u, u.dims = 0 ∧
      onLiterals? .divide [.numeric p, .numeric q] = some (.numeric ⟨p.base.mul q.base.invert, u⟩) := by
  obtain ⟨u, hu, hdims⟩ := Quantities.exists_invert hq.dims
  obtain ⟨w, hw, hw0⟩ := Quantities.exists_mul (q := ⟨q.base.invert, u⟩) hp.dims hdims
  refine ⟨w, hw0, (onLiterals?_numeric [p, q] rfl (by simp [hpfed, hqfed])).trans ?_⟩
  change (q.invert.toOption.bind fun i => (p.mul i).toOption).map _ = _
  rw [hu]
  exact congrArg (fun r => (Except.toOption r).map ValueSet.numeric) hw

theorem value_inverse (hq : q.Bare) (hfed : q.isEmpty = false) :
    (interpretation.node .power [given (.numeric q), interpretation.constant (-1)]).value =
      some (.numeric (.plain q.base.coarse.invert)) := by
  have hone : isFinite (-1 : Continuum) := isFinite_neg isFinite_one
  have hpow := Quantities.pow_plain hq.dims (.singleton (-1))
  rw [Numbers.pow_neg_one hq.canonical] at hpow
  refine (value_combine rfl (.cons (counts_given hfed) (.cons (counts_constant hone) .nil))).trans ?_
  exact congrArg (fun r => (Except.toOption r).map ValueSet.numeric) hpow

/-- Zero alone has no inverse. The tree is then left with the set of the inverses, which is empty as the
product is. -/
theorem coarsely_divide (hp : p.Bare) (hq : q.Bare) (hpfed : p.isEmpty = false)
    (hqfed : q.isEmpty = false) : Coarsely .divide [.numeric p, .numeric q] := by
  have hqcoarse : (q.map Numbers.coarse).Bare := ⟨hq.canonical.coarse, hq.dims⟩
  obtain ⟨u, -, hdirect⟩ := onLiterals?_divide hp hq hpfed hqfed
  obtain ⟨u', hu', hcoarse⟩ := onLiterals?_divide hp hqcoarse hpfed (Numbers.isEmpty_coarse hqfed)
  let inverse : Quantities Continuum := .plain q.base.coarse.invert
  have hinverse : inverse.Bare := ⟨hq.canonical.coarse.invert, MeasureUnit.dims_one⟩
  have hpower := value_inverse hq hqfed
  have hproduct : (⟨p.base.mul q.base.coarse.invert, u'⟩ : Quantities Continuum).Bare :=
    ⟨Numbers.canonical_mul, hu'⟩
  by_cases hempty : inverse.isEmpty
  · have htree : (interpretation.reduced .divide [given (.numeric p), given (.numeric q)]).value =
        some (.numeric inverse) := by
      change evaluate? .multiply [some (.numeric p), _] _ = _
      rw [hpower]
      simp [evaluate?, ValueSet.isEmpty, hpfed, inverse, hempty]
      rfl
    exact ⟨_, _, _, hdirect, hcoarse, htree, hinverse.beq hproduct (Numbers.mul_of_isEmpty hempty).symm⟩
  · obtain ⟨w, hw, hw0⟩ := Quantities.exists_mul hp.dims hinverse.dims
    have htree : (combine .multiply [given (.numeric p), _]).value = _ :=
      value_combine rfl (.cons (counts_given hpfed) (.cons ⟨hpower, Bool.eq_false_iff.2 hempty⟩ .nil))
    rw [List.map_cons, List.map_cons, List.map_nil, arithmetic?_multiply, hw] at htree
    exact ⟨_, _, _, hdirect, hcoarse, htree, Quantities.Bare.beq ⟨Numbers.canonical_mul, hw0⟩ hproduct rfl⟩

/-- A relation with its operands turned around is another one. -/
theorem coarsely_turned {a b : ValueSet Continuum} (hop : op = .lessOrEqual ∨ op = .isSuperset)
    (ha : a.isEmpty = false) (hb : b.isEmpty = false) : Coarsely op [a, b] := by
  have hturned : ∃ op', op'.has .relation ∧
      interpretation.reduced op ([a, b].map given) = combine op' ([b, a].map given) ∧
      relation? op [a, b] [true, true] = relation? op' [b, a] [true, true] ∧
      coarsely? op [a, b] = onLiterals? op [a, b] := by
    rcases hop with rfl | rfl
    · exact ⟨.greaterOrEqual, rfl, rfl, rfl, rfl⟩
    · exact ⟨.isSubset, rfl, rfl, rfl, rfl⟩
  have hrelation : op.has .relation := by rcases hop with rfl | rfl <;> rfl
  obtain ⟨op', hrelation', htree, heq, hcoarse⟩ := hturned
  have hdirect := evaluate?_relation hrelation ha hb [true, true]
  have hvalue := evaluate?_relation hrelation' hb ha [true, true]
  rw [← heq] at hvalue
  exact ⟨_, _, _, hdirect, hcoarse.trans hdirect, (congrArg value htree).trans hvalue,
    beq_self_eq_true (α := Truths) _⟩

theorem exists_quantities {ss : List (ValueSet Continuum)} (h : ∀ s ∈ ss, s.kind = .numeric) :
    ∃ qs : List (Quantities Continuum), ss = qs.map .numeric := by
  have hmem : ss ∈ Set.range (List.map ValueSet.numeric) := by
    rw [Set.range_list_map]
    intro s hs
    have hkind := h s hs
    cases s with
    | numeric q => exact ⟨q, rfl⟩
    | _ => cases hkind
  obtain ⟨qs, hqs⟩ := hmem
  exact ⟨qs, hqs.symm⟩

theorem coarsely_of_reduces {ss : List (ValueSet Continuum)} (hop : op.reduces)
    (harity : op.arity.accepts ss.length)
    (hss : ∀ s ∈ ss, s.Canonical ∧ s.Measures 0 ∧ s.isEmpty = false)
    (hkind : op.has .arithmetic → ∀ s ∈ ss, s.kind = .numeric) : Coarsely op ss := by
  by_cases harithmetic : op.has .arithmetic
  · obtain ⟨qs, rfl⟩ := exists_quantities (hkind harithmetic)
    have hqs : ∀ q ∈ qs, q.Bare ∧ q.isEmpty = false := fun q hq =>
      have hq := hss _ (List.mem_map_of_mem hq)
      ⟨⟨hq.1, ValueSet.measures_numeric.1 hq.2.1⟩, hq.2.2⟩
    rw [List.length_map] at harity
    have hone {q : Quantities Continuum} (h : qs = [q]) := hqs q (by simp [h])
    cases op
    case subtract =>
      obtain ⟨q, _, qs, rfl⟩ := Arity.eq_cons_cons harity
      exact coarsely_subtract hqs
    case divide =>
      obtain ⟨p, q, rfl⟩ := Arity.eq_pair harity
      obtain ⟨hp, hpfed⟩ := hqs p (by simp)
      obtain ⟨hq, hqfed⟩ := hqs q (by simp)
      exact coarsely_divide hp hq hpfed hqfed
    case floor =>
      obtain ⟨q, rfl⟩ := Arity.eq_singleton harity
      exact coarsely_floor (hone rfl).1 (hone rfl).2
    case ceil =>
      obtain ⟨q, rfl⟩ := Arity.eq_singleton harity
      exact coarsely_ceil (hone rfl).1 (hone rfl).2
    case cos =>
      obtain ⟨q, rfl⟩ := Arity.eq_singleton harity
      exact coarsely_cos (hone rfl).1 (hone rfl).2
    case sqrt =>
      obtain ⟨q, rfl⟩ := Arity.eq_singleton harity
      exact coarsely_sqrt (hone rfl).1 (hone rfl).2
    case lessOrEqual | isSuperset => cases harithmetic
    all_goals cases hop
  · have hturned : (op = .lessOrEqual ∨ op = .isSuperset) ∧ op.arity = .exactly 2 := by
      revert hop harithmetic
      cases op <;> decide
    obtain ⟨hturned, htwo⟩ := hturned
    rw [htwo] at harity
    obtain ⟨a, b, rfl⟩ := Arity.eq_pair harity
    exact coarsely_turned hturned (hss a (by simp)).2.2 (hss b (by simp)).2.2

end Trees

end Propagation

end ParameterSolver
