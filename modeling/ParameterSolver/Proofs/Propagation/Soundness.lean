import ParameterSolver.Analysis
import ParameterSolver.Blueprint.Basic
import ParameterSolver.Proofs.Propagation.Sweep

/-! Propagation finds no contradiction in a graph that has a solution, however many sweeps it makes,
as long as no negative base is raised to a power that is out of range for repeated squaring. Beyond
that range a solution is lost. -/

namespace ParameterSolver

open Exact ParameterSolver.Valuation Propagation

namespace Knowledge

variable {g : Generation Exact} {v : Valuation} {k : Knowledge Exact} {id : NodeId}
  {s : ValueSet Exact}

theorem normal_values (p : Parameter Exact) : p.values.Normal := by
  unfold Parameter.values Domain.values
  split
  · exact Numbers.normal_unbounded
  · exact Numbers.normal_atLeast _
  · exact Numbers.normal_ofInterval? fun _ => Interval.valid_of_ofBounds?
  all_goals trivial

/-- Nothing is known to begin with that a value of a leaf could contradict. -/
theorem initial?_spec {n : Node Exact} (hg : g.Regular) (hv : Solves g v)
    (hn : g.node? id = some n) (hs : initial? n = some s) : s.Normal ∧
      (∀ x ∈ extent g v id, x ∈ s) ∧ (∀ t, g.given? id = some t → s = t) ∧
      (g.IsSet id → ∀ x ∈ s, x ∈ extent g v id) := by
  cases n with
  | expression e => cases hs
  | parameter p =>
    have hexp : g.expression? id = none := by rw [Generation.expression?, hn]; rfl
    have hgiv : g.given? id = none := by rw [Generation.given?, hn]; rfl
    have hu : ¬ g.isUnion id := by rintro ⟨e, he, -⟩; simp [hexp] at he
    have hset : ¬ g.IsSet id := by
      rintro (⟨t, ht⟩ | ⟨e, he, -⟩)
      · simp [hgiv] at ht
      · simp [hexp] at he
    obtain ⟨hall, hwithin⟩ := hv.fits id _ hn
    rw [extent_eq_singleton hu hgiv]
    suffices s.Normal ∧ v id ∈ s from
      ⟨this.1, by simpa using this.2, by simp [hgiv], fun h => absurd h hset⟩
    cases hs
    cases hw : p.within with
    | none => exact ⟨normal_values p, hall⟩
    | some bound =>
      cases hi : p.values.inter bound with
      | error => simpa [hi, Except.toOption] using And.intro (normal_values p) hall
      | ok t =>
        have ht := (ValueSet.mem_inter (normal_values p) (hg.within id p hn bound hw) hi).2
          ⟨hall, hwithin bound hw⟩
        simpa [hi, Except.toOption] using And.intro (ValueSet.Normal.inter hi) ht
  | literal t u =>
    have hgiv : g.given? id = some t := by rw [Generation.given?, hn]; rfl
    cases hs
    rw [extent_of_given hgiv]
    exact ⟨hg.given hgiv, fun x hx => hx, by simp [hgiv], fun _ x hx => hx⟩
  | constant c =>
    have hgiv : g.given? id = some s := by rw [Generation.given?, hn]; exact hs
    rw [extent_of_given hgiv]
    exact ⟨hg.given hgiv, fun x hx => hx, by simp [hgiv], fun _ x hx => hx⟩

theorem Sound.learnInitial (h : Sound g v k) (hg : g.Regular) (hv : Solves g v) {n : Node Exact}
    (hn : g.node? id = some n) : Sound g v (k.learnInitial id n) := by
  unfold Knowledge.learnInitial
  split
  · exact h
  · rename_i s hs
    obtain ⟨hnorm, hmem, hgiv, hset⟩ := initial?_spec hg hv hn hs
    have hval : ∀ {j t}, (k.values.insert id s).get? j = some t →
        (j = id ∧ t = s) ∨ k.value? j = some t := NodeMap.get?_insert_cases
    refine ⟨fun j t ht => ?_, fun j t ht => ?_, fun j t u hj hu => ?_, fun j t hj ht => ?_,
      fun j hj => ?_, h.emptied⟩
    · rcases hval ht with ⟨rfl, rfl⟩ | ht
      · exact hnorm
      · exact h.normal j t ht
    · rcases hval ht with ⟨rfl, rfl⟩ | ht
      · exact hmem
      · exact h.holds j t ht
    · rcases hval hu with ⟨rfl, rfl⟩ | hu
      · exact hgiv t hj
      · exact h.given j t u hj hu
    · rcases hval ht with ⟨rfl, rfl⟩ | ht
      · exact hset hj
      · exact h.sets j t hj ht
    · dsimp only at hj
      split_ifs at hj with hisg
      · obtain ⟨y, hy⟩ := Option.isSome_iff_exists.1 hj
        rcases NodeMap.get?_insert_cases hy with ⟨rfl, -⟩ | hy
        · left
          cases n with
          | literal t u => exact ⟨t, by rw [Generation.given?, hn]; rfl⟩
          | constant c => exact ⟨s, by rw [Generation.given?, hn]; exact hs⟩
          | parameter p => cases hisg
          | expression e => cases hisg
        · exact h.exact j (by rw [NodeMap.contains, hy]; rfl)
      · exact h.exact j hj

theorem sound_seed (hg : g.Regular) (hv : Solves g v) : Sound g v (seed g) := by
  have h0 : Sound g v ⟨.empty, .empty, .empty, [], false⟩ := by
    constructor <;> simp [value?, NodeMap.contains]
  refine h0.foldl fun x hmem k h => h.learnInitial hg hv ?_
  rw [Generation.node?, Generation.get?, NodeMap.mem_toList.1 hmem]
  rfl

end Knowledge

namespace Propagation

variable {g : Generation Exact} {v : Valuation}

theorem sound_iterate (hg : g.Regular) (hv : Solves g v) (hp : PowersReadable g v)
    (order : List NodeId) (budget : ℕ) (p : Propagation Exact) (h : p.knowledge.Sound g v) :
    (iterate g order budget p).knowledge.Sound g v := by
  induction budget generalizing p with
  | zero => exact h
  | succ budget ih =>
    unfold iterate
    dsimp only
    split_ifs
    · exact ih _ (h.sweep hg hv hp order)
    · exact h.sweep hg hv hp order

theorem sound_run (hg : g.Regular) (hv : Solves g v) (hp : PowersReadable g v) (budget : ℕ) :
    (run g budget).knowledge.Sound g v :=
  sound_iterate hg hv hp _ budget _ (Knowledge.sound_seed hg hv)

end Propagation

/-! A graph to look at: `x` lies in `[1, 3]`, its square in `[4, 10]`, and the square is at least each
of `x` and `2`. -/

namespace Sample

def square : Generation Exact :=
  let (x, b) := (Blueprint.empty : Blueprint Exact).addParameter
    (Parameter.real.withBound (.interval (finite 1) (finite 3) .one))
  let (two, b) := b.addLiteral (.number (finite 2))
  let (power, b) := b.addExpression .power [x, two]
  let (box, b) := b.addLiteral (.interval (finite 4) (finite 10) .one)
  let (_, b) := b.addAssertion .isSubset [power, box]
  let (parts, b) := b.addExpression .union [x, two]
  (b.addAssertion .greaterOrEqual [power, parts]).2.generation

theorem square_node {id : NodeId} {n : Node Exact} (h : square.node? id = some n) :
    (id = .nth 0 ∧ n = .parameter
      (Parameter.real.withBound (.interval (finite 1) (finite 3) .one))) ∨
    (id = .nth 1 ∧ n = .literal (.number (finite 2)) none) ∨
    (id = .nth 2 ∧ n = .expression ⟨.power, [.nth 0, .nth 1], false⟩) ∨
    (id = .nth 3 ∧ n = .literal (.interval (finite 4) (finite 10) .one) none) ∨
    (id = .nth 4 ∧ n = .expression ⟨.isSubset, [.nth 2, .nth 3], true⟩) ∨
    (id = .nth 5 ∧ n = .expression ⟨.union, [.nth 0, .nth 1], false⟩) ∨
    (id = .nth 6 ∧ n = .expression ⟨.greaterOrEqual, [.nth 2, .nth 5], true⟩) := by
  match id, h with
  | .nth 0, h => exact Or.inl ⟨rfl, (Option.some.inj h).symm⟩
  | .nth 1, h => exact Or.inr (Or.inl ⟨rfl, (Option.some.inj h).symm⟩)
  | .nth 2, h => exact Or.inr (Or.inr (Or.inl ⟨rfl, (Option.some.inj h).symm⟩))
  | .nth 3, h => exact Or.inr (Or.inr (Or.inr (Or.inl ⟨rfl, (Option.some.inj h).symm⟩)))
  | .nth 4, h => exact Or.inr (Or.inr (Or.inr (Or.inr (Or.inl ⟨rfl, (Option.some.inj h).symm⟩))))
  | .nth 5, h =>
    exact Or.inr (Or.inr (Or.inr (Or.inr (Or.inr (Or.inl ⟨rfl, (Option.some.inj h).symm⟩)))))
  | .nth 6, h =>
    exact Or.inr (Or.inr (Or.inr (Or.inr (Or.inr (Or.inr ⟨rfl, (Option.some.inj h).symm⟩)))))
  | .nth (k + 7), h => cases h

def squareValue : Valuation
  | .nth 0 => .number 3
  | .nth 1 => .number 2
  | .nth 2 | .nth 3 => .number 9
  | _ => .boolean true

theorem square_given {id : NodeId} {s : ValueSet Exact} (h : square.given? id = some s) :
    (id = .nth 1 ∧ s = .number (finite 2)) ∨
      (id = .nth 3 ∧ s = .interval (finite 4) (finite 10) .one) := by
  obtain ⟨n, hn, hs⟩ := Option.bind_eq_some_iff.1 h
  rcases square_node hn with ⟨rfl, rfl⟩ | ⟨rfl, rfl⟩ | ⟨rfl, rfl⟩ | ⟨rfl, rfl⟩ | ⟨rfl, rfl⟩ |
    ⟨rfl, rfl⟩ | ⟨rfl, rfl⟩ <;> cases hs
  · exact Or.inl ⟨rfl, rfl⟩
  · exact Or.inr ⟨rfl, rfl⟩

theorem square_expression {id : NodeId} {e : Expression} (h : square.expression? id = some e) :
    (id = .nth 2 ∧ e = ⟨.power, [.nth 0, .nth 1], false⟩) ∨
    (id = .nth 4 ∧ e = ⟨.isSubset, [.nth 2, .nth 3], true⟩) ∨
    (id = .nth 5 ∧ e = ⟨.union, [.nth 0, .nth 1], false⟩) ∨
    (id = .nth 6 ∧ e = ⟨.greaterOrEqual, [.nth 2, .nth 5], true⟩) := by
  have hnode := square_node (Generation.expression?_eq.1 h)
  clear h
  rcases hnode with ⟨rfl, hn⟩ | ⟨rfl, hn⟩ | ⟨rfl, hn⟩ | ⟨rfl, hn⟩ | ⟨rfl, hn⟩ | ⟨rfl, hn⟩ |
    ⟨rfl, hn⟩ <;> cases hn <;> simp

theorem square_regular : square.Regular where
  literal id s u h := by
    rcases square_given (show square.given? id = some s by rw [Generation.given?, h]; rfl) with
      ⟨-, rfl⟩ | ⟨-, rfl⟩
    · exact Numbers.normal_singleton _
    · exact Numbers.normal_scale (Numbers.normal_closed ..) _
  within id p h s hs := by
    rcases square_node h with ⟨-, hn⟩ | ⟨-, hn⟩ | ⟨-, hn⟩ | ⟨-, hn⟩ | ⟨-, hn⟩ | ⟨-, hn⟩ | ⟨-, hn⟩ <;>
      cases hn
    cases hs
    exact Numbers.normal_scale (Numbers.normal_closed ..) _
  values id e h o ho := by
    rintro ⟨e', he', hop⟩
    rcases square_expression he' with ⟨rfl, rfl⟩ | ⟨rfl, rfl⟩ | ⟨rfl, rfl⟩ | ⟨rfl, rfl⟩ <;> cases hop
    rcases square_expression h with ⟨-, rfl⟩ | ⟨-, rfl⟩ | ⟨-, rfl⟩ | ⟨-, rfl⟩ <;>
      simp [Expression.valueOperands] at ho
  asserted id e h ha := by
    rcases square_expression h with ⟨-, rfl⟩ | ⟨-, rfl⟩ | ⟨-, rfl⟩ | ⟨-, rfl⟩ <;> simp at ha <;> rfl

theorem square_solves : Solves square squareValue where
  fits id n h := by
    rcases square_node h with ⟨rfl, rfl⟩ | ⟨rfl, rfl⟩ | ⟨rfl, rfl⟩ | ⟨rfl, rfl⟩ | ⟨rfl, rfl⟩ |
      ⟨rfl, rfl⟩ | ⟨rfl, rfl⟩
    · refine ⟨Numbers.mem_unbounded 3, fun s hs => ?_⟩
      cases hs
      exact (by decide +kernel : finite 3 ∈ (Quantities.interval (finite 1) (finite 3) .one).base)
    · rintro s ⟨⟩ -
      exact Numbers.mem_singleton.2 rfl
    · exact Or.inl ⟨[3, 2], 9, rfl, by norm_num [Operator.arithmetic?], rfl⟩
    · rintro s ⟨⟩ -
      exact (by decide +kernel : finite 9 ∈ (Quantities.interval (finite 4) (finite 10) .one).base)
    · refine ⟨true, rfl, iff_of_true rfl ?_⟩
      change Value.number 9 ∈ extent square squareValue (.nth 3)
      rw [extent_of_given (s := .interval (finite 4) (finite 10) .one) rfl]
      exact (by decide +kernel : finite 9 ∈ (Quantities.interval (finite 4) (finite 10) .one).base)
    · simp [Node.Allows, Operator.Denotes]
    · have hhigh : spread square squareValue (.nth 2) = {.number 9} := by
        ext y
        simp [spread, show Knowledge.members square (.nth 2) = [.nth 2] from rfl, squareValue]
      have hlow : spread square squareValue (.nth 5) = {.number 3, .number 2} := by
        ext y
        simp [spread, show Knowledge.members square (.nth 5) = [.nth 0, .nth 1] from rfl,
          squareValue]
      refine ⟨by simp [Valuation.read, hhigh], by simp [Valuation.read, hlow], true, rfl, ?_⟩
      simp only [Valuation.read, hhigh, hlow, Set.mem_singleton_iff, Set.mem_insert_iff,
        Value.number.injEq, true_iff]
      rintro q r rfl (rfl | rfl) <;> norm_num
  chooses id s h := by
    rcases square_given h with ⟨rfl, rfl⟩ | ⟨rfl, rfl⟩
    · exact Numbers.mem_singleton.2 rfl
    · exact (by decide +kernel : finite 9 ∈ (Quantities.interval (finite 4) (finite 10) .one).base)
  satisfies id e h ha := by
    rcases square_expression h with ⟨rfl, rfl⟩ | ⟨rfl, rfl⟩ | ⟨rfl, rfl⟩ | ⟨rfl, rfl⟩ <;>
      simp at ha <;> rfl

theorem square_powersReadable : PowersReadable square squareValue := by
  intro id e h hop
  rcases square_expression h with ⟨-, rfl⟩ | ⟨-, rfl⟩ | ⟨-, rfl⟩ | ⟨-, rfl⟩ <;> cases hop
  refine ⟨fun b hb => ?_, fun a n hab => ?_⟩
  · cases hb
    exact ⟨.number (finite 2), rfl, by decide +kernel⟩
  · cases hab
    exact Or.inl (by decide)

/-- The number `-1` and a power of it. -/
def huge : Generation Exact :=
  let (x, b) := (Blueprint.empty : Blueprint Exact).addParameter
    (Parameter.real.withBound (.number (finite (-1))))
  let (n, b) := b.addLiteral (.number (finite 2147483648))
  (b.addExpression .power [x, n]).2.generation

def hugeValue : Valuation
  | .nth 0 => .number (-1)
  | .nth 1 => .number 2147483648
  | _ => .number 1

theorem huge_node {id : NodeId} {n : Node Exact} (h : huge.node? id = some n) :
    (id = .nth 0 ∧ n = .parameter (Parameter.real.withBound (.number (finite (-1))))) ∨
    (id = .nth 1 ∧ n = .literal (.number (finite 2147483648)) none) ∨
    (id = .nth 2 ∧ n = .expression ⟨.power, [.nth 0, .nth 1], false⟩) := by
  match id, h with
  | .nth 0, h => exact Or.inl ⟨rfl, (Option.some.inj h).symm⟩
  | .nth 1, h => exact Or.inr (Or.inl ⟨rfl, (Option.some.inj h).symm⟩)
  | .nth 2, h => exact Or.inr (Or.inr ⟨rfl, (Option.some.inj h).symm⟩)
  | .nth (k + 3), h => cases h

theorem huge_expression {id : NodeId} {e : Expression} (h : huge.expression? id = some e) :
    e = ⟨.power, [.nth 0, .nth 1], false⟩ := by
  have hnode := huge_node (Generation.expression?_eq.1 h)
  rcases hnode with ⟨-, hn⟩ | ⟨-, hn⟩ | ⟨-, hn⟩ <;> cases hn
  rfl

theorem huge_regular : huge.Regular where
  literal id s u h := by
    rcases huge_node h with ⟨-, hn⟩ | ⟨-, hn⟩ | ⟨-, hn⟩ <;> cases hn
    exact Numbers.normal_singleton _
  within id p h s hs := by
    rcases huge_node h with ⟨-, hn⟩ | ⟨-, hn⟩ | ⟨-, hn⟩ <;> cases hn
    cases hs
    exact Numbers.normal_singleton _
  values id e h o ho := by
    rintro ⟨e', he', hop⟩
    rw [huge_expression he'] at hop
    cases hop
  asserted id e h ha := by
    rw [huge_expression h] at ha
    cases ha

theorem huge_solves : Solves huge hugeValue where
  fits id n h := by
    rcases huge_node h with ⟨rfl, rfl⟩ | ⟨rfl, rfl⟩ | ⟨rfl, rfl⟩
    · refine ⟨Numbers.mem_unbounded (-1), fun s hs => ?_⟩
      cases hs
      exact Numbers.mem_singleton.2 rfl
    · rintro s ⟨⟩ -
      exact Numbers.mem_singleton.2 rfl
    · refine Or.inl ⟨[-1, 2147483648], 1, rfl, ?_, rfl⟩
      have heven : (-1 : ℚ) ^ (2147483648 : ℤ) = 1 := Even.neg_one_zpow ⟨1073741824, by norm_num⟩
      simpa [Operator.arithmetic?] using heven
  chooses id s h := by
    obtain ⟨n, hn, hs⟩ := Option.bind_eq_some_iff.1 h
    rcases huge_node hn with ⟨rfl, rfl⟩ | ⟨rfl, rfl⟩ | ⟨rfl, rfl⟩ <;> cases hs
    exact Numbers.mem_singleton.2 rfl
  satisfies id e h ha := by
    rw [huge_expression h] at ha
    cases ha

end Sample

namespace Propagation

/-- A power of a negative number with an exponent out of range is lost. -/
theorem pow_eq_empty {q : ℚ} {n : ℤ} (hq : q < 0) (hn : 2147483647 ≤ n.natAbs) :
    (Numbers.singleton (finite q)).pow (.singleton (finite n)) = ⟨[]⟩ := by
  have hs : ∀ x : ℚ, (Numbers.singleton (finite x)).intervals
      = [⟨⟨finite x, true⟩, ⟨finite x, true⟩⟩] := by
    intro x
    have hf : Interval.Fits ⟨finite x, true⟩ ⟨finite x, true⟩ := Or.inr ⟨rfl, rfl, rfl⟩
    simp [Numbers.singleton, Numbers.ofInterval?, Interval.singleton?, Interval.closed?,
      Interval.ofBounds?_eq hf, Bound.normalized]
  have hi : Interval.integer? (⟨⟨finite n, true⟩, ⟨finite n, true⟩⟩ : Interval Exact) = none := by
    simp only [Interval.integer?, Interval.isSingleton, Interval.toInt?_intCast]
    simp [Option.filter, hn]
  have hv : (⟨⟨finite q, true⟩, ⟨finite q, true⟩⟩ : Interval Exact).Valid :=
    Interval.valid_iff.2 ⟨Or.inr ⟨rfl, rfl, rfl⟩, by simp [Bound.normalized], by simp [Bound.normalized]⟩
  have hb : (Interval.atLeast? (0 : Exact)).bind
      (Interval.inter? ⟨⟨finite q, true⟩, ⟨finite q, true⟩⟩) = none := by
    cases hb : (Interval.atLeast? (0 : Exact)).bind
        (Interval.inter? ⟨⟨finite q, true⟩, ⟨finite q, true⟩⟩) with
    | none => rfl
    | some k =>
      obtain ⟨j, -, hk⟩ := Option.bind_eq_some_iff.1 hb
      obtain ⟨p, hp⟩ := (Interval.valid_of_ofBounds? hk).exists_mem
      obtain ⟨hpq, hp0⟩ := (Interval.mem_nonneg_part hv).1 ⟨k, hb, hp⟩
      have := (Interval.mem_iff.1 hpq).2.le rfl
      linarith
  simp [Numbers.pow, Numbers.pairwise, hs, Numbers.maxPairs, Interval.pow, hi, hb, Numbers.ofIntervals]

theorem evaluate?_power_huge {q : ℚ} {n : ℤ} (hq : q < 0) (hn : 2147483647 ≤ n.natAbs) :
    evaluate? .power [some (.number (finite q)), some (.number (finite n))] [false, true]
      = some (.numeric (.plain ⟨[]⟩)) := by
  have he : ∀ x : ℚ, (ValueSet.number (finite x)).isEmpty = false := fun x =>
    Bool.eq_false_iff.2 fun h => ValueSet.not_mem_of_isEmpty (s := .number (finite x))
      (x := .number x) (Numbers.normal_singleton (finite x)) h (Numbers.mem_singleton.2 rfl)
  have hp : ∀ s t : Numbers Exact, (Quantities.plain s).pow (.plain t) = .ok (.plain (s.pow t)) :=
    fun _ _ => rfl
  have ha : arithmetic? .power [.number (finite q), .number (finite n)] = some (.plain ⟨[]⟩) := by
    change ((Quantities.plain _).pow (.plain _)).toOption = _
    rw [hp, pow_eq_empty hq hn]
    rfl
  have hk : evaluateKnown? .power [.number (finite q), .number (finite n)] [false, true]
      = some (.numeric (.plain ⟨[]⟩)) := by
    simp [evaluateKnown?, Operator.has, Operator.having, Operator.logical, Operator.relational, ha]
  simp [evaluate?, he, hk]

end Propagation

namespace Analysis

variable {g : Generation Exact} {v : Valuation}

/-- However many sweeps are made, what is known of a node holds the value that it has in any
solution, and no contradiction is reported of a graph that has one. The range of the exponents is
needed: out of it the power of a negative number has no value at all. -/
theorem value_mem_of_solves (hg : g.Regular) (hv : Solves g v) (hp : PowersReadable g v)
    (budget : ℕ) (mappings : List (NodeMap NodeId)) :
    (∀ id s, (ofSteps g budget mappings).value? id = some s → ¬ g.isUnion id → v id ∈ s) ∧
      (ofSteps g budget mappings).contradictions = [] ∧
      ∀ (q : ℚ) (n : ℤ), q < 0 → 2147483647 ≤ n.natAbs →
        evaluate? .power [some (.number (finite q)), some (.number (finite n))] [false, true]
          = some (.numeric (.plain .empty)) := by
  have h := Propagation.sound_run hg hv hp budget
  refine ⟨fun id s hs hu => h.value_mem hv hu hs, ?_, fun q n => evaluate?_power_huge⟩
  change (g.sortByFirstOrigin (Propagation.run g budget).knowledge.emptied).map _ = []
  simp [h.emptied, Generation.sortByFirstOrigin]

theorem value_mem_of_solves_square : Sample.square.Regular ∧
    Solves Sample.square Sample.squareValue ∧ PowersReadable Sample.square Sample.squareValue ∧
    (ofSteps Sample.square 64 []).contradictions = [] :=
  ⟨Sample.square_regular, Sample.square_solves, Sample.square_powersReadable,
    (value_mem_of_solves Sample.square_regular Sample.square_solves Sample.square_powersReadable
      64 []).2.1⟩

/-- The number `-1` has the power `1`, but the exponent is too large to find that. -/
theorem contradiction_of_huge_exponent : Sample.huge.Regular ∧
    Solves Sample.huge Sample.hugeValue ∧ Sample.hugeValue (.nth 2) = .number 1 ∧
    (ofSteps Sample.huge 64 []).contradictions.map (·.node) = [.nth 2] :=
  ⟨Sample.huge_regular, Sample.huge_solves, rfl, by decide +kernel⟩

end Analysis

end ParameterSolver
