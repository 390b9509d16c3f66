import ParameterSolver.Proofs.Blueprint.Reachable
import ParameterSolver.Proofs.Solve.Rounds

/-! A graph and its canonical form have the same solutions. Where every operand has one value, the
parameters determine the value of every node, so a solution is an assignment of the parameters. -/

namespace ParameterSolver

open Exact ParameterSolver.Valuation

namespace Expression

/-- The operands that stand for one value each. -/
def singles (e : Expression) : List NodeId :=
  match e.op, e.operands with
  | .isSubset, [a, _] => [a]
  | .isSuperset, [_, b] => [b]
  | _, operands => operands

/-- The operands that stand for sets. -/
def sets (e : Expression) : List NodeId :=
  match e.op, e.operands with
  | .isSubset, [_, b] => [b]
  | .isSuperset, [a, _] => [a]
  | _, _ => []

theorem mem_operands_of_mem_singles (e : Expression) {o : NodeId} (h : o ∈ e.singles) :
    o ∈ e.operands := by
  unfold singles at h
  split at h <;> simp_all

theorem denotes_congr {e : Expression} {r r' : NodeId → Reading} {x : Value ℚ}
    (h : ∀ o ∈ e.singles, r' o = r o) (hs : ∀ o ∈ e.sets, (r' o).extent = (r o).extent) :
    e.op.Denotes (e.operands.map r') x ↔ e.op.Denotes (e.operands.map r) x := by
  obtain ⟨op, operands, asserted⟩ := e
  dsimp only
  unfold singles at h
  split at h
  · rename_i a b hop hl
    obtain rfl : op = .isSubset := hop
    obtain rfl : operands = [a, b] := hl
    simp only [List.map_cons, List.map_nil, Operator.Denotes]
    rw [h a (by simp), hs b (by simp [sets])]
  · rename_i a b hop hl
    obtain rfl : op = .isSuperset := hop
    obtain rfl : operands = [a, b] := hl
    simp only [List.map_cons, List.map_nil, Operator.Denotes]
    rw [h b (by simp), hs a (by simp [sets])]
  · rw [List.map_congr_left h]

end Expression

namespace Operator

variable {op : Operator} {rs : List Reading} {x y : Value ℚ} {p : Prop}

theorem says_unique (hx : x.Says p) (hy : y.Says p) : x = y := by
  obtain ⟨b, rfl, hb⟩ := hx
  obtain ⟨c, rfl, hc⟩ := hy
  rw [Bool.eq_iff_iff.2 (hb.trans hc.symm)]

theorem combines_unique {xs : List (Value ℚ)} (hx : Combines op xs x) (hy : Combines op xs y) :
    x = y := by
  have hnumber : Function.Injective (Value.number : ℚ → Value ℚ) := fun _ _ h => by cases h; rfl
  have hboolean : Function.Injective (Value.boolean : Bool → Value ℚ) := fun _ _ h => by
    cases h
    rfl
  have hmixed : ∀ {qs q bs b}, op.arithmetic? qs = some q → op.logical? bs = some b → False := by
    intro qs q bs b hq hb
    cases op <;> simp_all [arithmetic?, logical?]
  rcases hx with ⟨qs, q, hqs, hq, rfl⟩ | ⟨bs, b, hbs, hb, rfl⟩
  · rcases hy with ⟨qs', q', hqs', hq', rfl⟩ | ⟨bs, b, -, hb, -⟩
    · obtain rfl := hnumber.list_map (hqs.symm.trans hqs')
      rw [Option.some.inj (hq.symm.trans hq')]
    · exact (hmixed hq hb).elim
  · rcases hy with ⟨qs, q, -, hq, -⟩ | ⟨bs', b', hbs', hb', rfl⟩
    · exact (hmixed hq hb).elim
    · obtain rfl := hboolean.list_map (hbs.symm.trans hbs')
      rw [Option.some.inj (hb.symm.trans hb')]

/-- Operators other than the union are functions. -/
theorem Denotes.unique (hx : op.Denotes rs x) (hy : op.Denotes rs y) (h : op ≠ .union) :
    x = y := by
  by_cases hr : op.has .relation
  · obtain ⟨a, b, rfl⟩ := hx.relation hr
    cases op <;> simp [has, having, relational] at hr
    case is | isSubset | isSuperset => exact says_unique hx hy
    all_goals exact says_unique hx.2.2 hy.2.2
  · have hcombines : ∀ z, op.Denotes rs z → Combines op (rs.map (·.value)) z := by
      cases op <;> simp_all [Denotes, has, having, relational]
    exact combines_unique (hcombines x hx) (hcombines y hy)

end Operator

/-- A node with one value for each assignment of the parameters. -/
def Node.Single : Node Exact → Prop
  | .parameter _ | .expression _ => True
  | n => ∃ s x, n.given? = some s ∧ ∀ y, y ∈ s ↔ y = x

/-- The operators whose expressions have one value. The strict comparisons are not among them
because they are weakened on the way. -/
def Operator.kept : List Operator :=
  [.add, .subtract, .multiply, .divide, .power, .round, .floor, .ceil, .abs, .min, .max, .or, .not,
    .and, .implies, .xor, .greaterOrEqual, .lessOrEqual, .is, .isSubset, .isSuperset]

namespace Generation

/-- A graph over parameters and single values, and sets that values are looked up in. -/
structure Plain (g : Generation Exact) : Prop where
  kept : ∀ id e, g.node? id = some (.expression e) → e.op ∈ Operator.kept
  singles : ∀ id e, g.node? id = some (.expression e) →
    ∀ o ∈ e.singles, ∀ n, g.node? o = some n → n.Single
  sets : ∀ id e, g.node? id = some (.expression e) →
    ∀ o ∈ e.sets, ∃ s u, g.node? o = some (.literal s u)

variable {g : Generation Exact} {v w : Valuation} {id o : NodeId} {e : Expression}

theorem not_isUnion_of_ne (h : ∀ id e, g.node? id = some (.expression e) → e.op ≠ .union) :
    ¬ g.isUnion id := by
  rintro ⟨e, he, hop⟩
  exact h id e (expression?_eq.1 he) hop

theorem Plain.meant (hp : g.Plain) (h : g.node? id = some (.expression e)) :
    e.op ∈ Operator.meant ∧ e.op ≠ .union := by
  have hkept := hp.kept id e h
  revert hkept
  cases e.op <;> decide

theorem Plain.relaxed (hp : g.Plain) (h : g.node? id = some (.expression e)) :
    e.op.relaxed = e.op := by
  have hkept := hp.kept id e h
  revert hkept
  cases e.op <;> decide

theorem Plain.not_isUnion (hp : g.Plain) : ¬ g.isUnion id :=
  not_isUnion_of_ne fun _ _ h => (hp.meant h).2

end Generation

namespace Valuation

/-- The leaves and the expressions have their values, and a union is the collection of the values of
its operands. -/
def FitsListed (g : Generation Exact) (v : Valuation) : Prop :=
  ∀ id n, g.node? id = some n → n.Allows (listed g v) (v id)

variable {g : Generation Exact} {v w : Valuation} {id o : NodeId} {e : Expression}

theorem read_eq_listed (h : ¬ g.isUnion o) : read g v o = listed g v o := by
  have hm := members_of_not_isUnion h
  simp only [read, listed, Reading.mk.injEq, true_and, and_true]
  ext x
  simp only [extent, hm, List.mem_singleton, exists_eq_left, Set.mem_ofPred_eq,
    Generation.givenSet?]
  cases g.given? o <;> simp [spread, hm]

/-- Without unions there is only one way to read a graph. -/
theorem fits_iff_fitsListed (h : ∀ o, ¬ g.isUnion o) : Fits g v ↔ FitsListed g v := by
  have hread : read g v = listed g v := funext fun o => read_eq_listed (h o)
  rw [Fits, FitsListed, hread]

/-- Without strict comparisons, models are what fits with the assertions true. -/
theorem models_iff (h : ∀ id e, g.node? id = some (.expression e) → e.op.relaxed = e.op) :
    Models g v ↔ FitsListed g v ∧ Satisfies g v := by
  constructor
  · intro hm
    refine ⟨fun id n hn => ?_, fun id e he ha => ?_⟩
    · cases n with
      | expression e =>
        have hd := (hm id _ hn).1
        rwa [h id e hn] at hd
      | _ => exact hm id _ hn
    · exact (hm id _ (Generation.expression?_eq.1 he)).2 ha
  · rintro ⟨hf, hs⟩ id n hn
    cases n with
    | expression e =>
      refine ⟨?_, fun ha => hs id e (Generation.expression?_eq.2 hn) ha⟩
      rw [h id e hn]
      exact hf id _ hn
    | _ => exact hf id _ hn

/-- The parameters determine the values of a plain graph. The induction is on the order of creation:
operands are older, and all that a set is read for is its elements. -/
theorem eq_of_parameters (hg : g.Linked) (ha : g.Ascending) (hp : g.Plain) (hv : FitsListed g v)
    (hw : FitsListed g w) (h : ∀ id p, g.node? id = some (.parameter p) → w id = v id)
    {n : Node Exact} (hn : g.node? id = some n) (hsingle : n.Single) : w id = v id := by
  induction hk : id.rank using Nat.strong_induction_on generalizing id n with
  | _ k ih =>
  subst hk
  have hv' := hv id n hn
  have hw' := hw id n hn
  cases n with
  | parameter p => exact h id p hn
  | literal s u =>
    obtain ⟨_, x, hs, hx⟩ := hsingle
    cases hs
    rw [(hx _).1 (hv' s rfl ⟨x, (hx x).2 rfl⟩), (hx _).1 (hw' s rfl ⟨x, (hx x).2 rfl⟩)]
  | constant c =>
    obtain ⟨s, x, hs, hx⟩ := hsingle
    rw [(hx _).1 (hv' s hs ⟨x, (hx x).2 rfl⟩), (hx _).1 (hw' s hs ⟨x, (hx x).2 rfl⟩)]
  | expression e =>
    have hread : ∀ o ∈ e.singles, listed g w o = listed g v o := by
      intro o ho
      have hmem := e.mem_operands_of_mem_singles ho
      obtain ⟨m, hm⟩ := Generation.contains_iff.1 (hg.contains hn hmem)
      have hlt := ha id o (by rwa [Generation.operands_of_node? hn])
      have heq := ih o.rank hlt hm (hp.singles id e hn o ho m hm) rfl
      refine (outlines_of_node? (show g.node? o = g.node? o from rfl)).listed heq fun m hm => ?_
      rw [mem_members_of_not_isUnion hp.not_isUnion] at hm
      rw [hm, heq]
    have hsets : ∀ o ∈ e.sets, (listed g w o).extent = (listed g v o).extent := by
      intro o ho
      obtain ⟨s, u, hs⟩ := hp.sets id e hn o ho
      simp [listed, Generation.givenSet?, Generation.given?, hs, Node.given?]
    exact ((Expression.denotes_congr hread hsets).1 hw').unique hv' (hp.meant hn).2

end Valuation

variable {g : Generation Exact} {b : Blueprint Exact} {config : Config} {sol : Solution Exact}
  {v : Valuation}

/-- What is accepted over operators with a meaning can be solved for, if it has no unions. -/
theorem tame_of_build (hb : b.Reachable) (hg : b.build = .ok g)
    (h : ∀ id e, g.node? id = some (.expression e) → e.op ∈ Operator.meant ∧ e.op ≠ .union) :
    g.Tame ∧ g.Ascending := by
  obtain ⟨hfaults, rfl⟩ := Blueprint.of_build hg
  have hsane := Blueprint.sane_of_reachable hb
  refine ⟨⟨hsane.linked, fun id n hn e he => ?_⟩, hsane.ascending⟩
  subst he
  refine ⟨(h id e hn).1, fun hop => ⟨?_, fun o _ => ?_⟩⟩
  · rw [← Bool.not_eq_true]
    intro hasserted
    have hpred := hsane.asserts hfaults id e hn hasserted
    revert hop hpred
    cases e.op <;> decide
  · exact Generation.not_isUnion_of_ne fun id e hn => (h id e hn).2

theorem relaxed_of_isCanonical {op : Operator} (h : op.isCanonical) : op.relaxed = op := by
  revert h
  cases op <;> decide

/-- An assignment of the parameters solves a plain graph exactly if it extends to a solution of the
canonical form. -/
theorem satisfies_iff_of_solve (hb : b.Reachable) (hg : b.build = .ok g) (hp : g.Plain)
    (h : solve config g = .ok sol) (hv : Fits g v) :
    Satisfies g v ↔ ∃ w, FitsListed sol.last w ∧ Satisfies sol.last w ∧
      ∀ id p, g.node? id = some (.parameter p) → ∃ m, sol.resolve? id = some m ∧ w m = v id := by
  obtain ⟨htame, hasc⟩ := tame_of_build hb hg fun id e hn => hp.meant hn
  obtain ⟨hcarries, hcanonical⟩ := carries_of_solve htame h
  have hfirst : ∀ u, Models g u ↔ FitsListed g u ∧ Satisfies g u := fun u =>
    models_iff fun id e hn => hp.relaxed hn
  have hlast : ∀ w, Models sol.last w ↔ FitsListed sol.last w ∧ Satisfies sol.last w := fun w =>
    models_iff fun id e hn => relaxed_of_isCanonical (hcanonical id e hn)
  have hlisted := (fits_iff_fitsListed fun o => hp.not_isUnion).1 hv
  constructor
  · intro hs
    obtain ⟨w, hw, hval⟩ := hcarries.forth v ((hfirst v).2 ⟨hlisted, hs⟩)
    refine ⟨w, ((hlast w).1 hw).1, ((hlast w).1 hw).2, fun id p hn => ?_⟩
    obtain ⟨j, _, hj, -⟩ := hcarries.parameters id p hn
    exact ⟨j, hj, hval id j hj⟩
  · rintro ⟨w, hfits, hs, hparameters⟩
    obtain ⟨u, hu, hval⟩ := hcarries.back w ((hlast w).2 ⟨hfits, hs⟩)
    obtain ⟨hufits, husat⟩ := (hfirst u).1 hu
    have hagree : ∀ id p, g.node? id = some (.parameter p) → u id = v id := by
      intro id p hn
      obtain ⟨m, hm, hwm⟩ := hparameters id p hn
      rw [← hval id m hm, hwm]
    intro id e he ha
    rw [← husat id e he ha]
    exact (eq_of_parameters htame.linked hasc hp hlisted hufits hagree
      (Generation.expression?_eq.1 he) trivial).symm

/-! A graph to look at: the smaller of `x` and `y` is at most one. -/

namespace Sample

def smaller : Blueprint Exact :=
  let b := (Blueprint.empty.addParameter .real).2
  let b := (b.addParameter .real).2
  let b := (b.addLiteral (.number (finite 1))).2
  let b := (b.addExpression .min [.nth 0, .nth 1]).2
  (b.addAssertion .lessOrEqual [.nth 3, .nth 2]).2

theorem smaller_reachable : smaller.Reachable :=
  .assertion (.expression (.literal (.parameter (.parameter .empty _) _) _) _ _) _ _

def smallerValue : Valuation
  | .nth 0 | .nth 3 => .number 0
  | .nth 1 => .number 2
  | .nth 2 => .number 1
  | _ => .boolean true

theorem smaller_node {id : NodeId} {n : Node Exact} (h : smaller.generation.node? id = some n) :
    (id = .nth 0 ∧ n = .parameter .real) ∨ (id = .nth 1 ∧ n = .parameter .real) ∨
    (id = .nth 2 ∧ n = .literal (.number (finite 1)) none) ∨
    (id = .nth 3 ∧ n = .expression ⟨.min, [.nth 0, .nth 1], false⟩) ∨
    (id = .nth 4 ∧ n = .expression ⟨.lessOrEqual, [.nth 3, .nth 2], true⟩) := by
  have hmem := Generation.mem_nodes.2 h
  rw [show smaller.generation.nodes = [(.nth 0, .parameter .real), (.nth 1, .parameter .real),
    (.nth 2, .literal (.number (finite 1)) none),
    (.nth 3, .expression ⟨.min, [.nth 0, .nth 1], false⟩),
    (.nth 4, .expression ⟨.lessOrEqual, [.nth 3, .nth 2], true⟩)] from rfl] at hmem
  simpa using hmem

theorem smaller_plain : smaller.generation.Plain where
  kept id e h := by
    rcases smaller_node h with ⟨-, hn⟩ | ⟨-, hn⟩ | ⟨-, hn⟩ | ⟨-, hn⟩ | ⟨-, hn⟩ <;> cases hn <;> decide
  singles id e h o ho n hn := by
    rcases smaller_node hn with ⟨-, rfl⟩ | ⟨-, rfl⟩ | ⟨-, rfl⟩ | ⟨-, rfl⟩ | ⟨-, rfl⟩
    case inr.inr.inl =>
      exact ⟨_, .number 1, rfl, fun y => ValueSet.mem_number⟩
    all_goals trivial
  sets id e h o ho := by
    rcases smaller_node h with ⟨-, hn⟩ | ⟨-, hn⟩ | ⟨-, hn⟩ | ⟨-, hn⟩ | ⟨-, hn⟩ <;> cases hn <;>
      simp [Expression.sets] at ho

theorem smaller_fits : Fits smaller.generation smallerValue := by
  have hspread : ∀ id, ¬ smaller.generation.isUnion id →
      spread smaller.generation smallerValue id = {smallerValue id} := by
    intro id hid
    ext y
    simp [spread, members_of_not_isUnion hid]
  intro id n h
  rcases smaller_node h with ⟨rfl, rfl⟩ | ⟨rfl, rfl⟩ | ⟨rfl, rfl⟩ | ⟨rfl, rfl⟩ | ⟨rfl, rfl⟩
  · exact ⟨Numbers.mem_unbounded 0, fun s hs => by cases hs⟩
  · exact ⟨Numbers.mem_unbounded 2, fun s hs => by cases hs⟩
  · rintro s ⟨⟩ -
    exact Numbers.mem_singleton.2 rfl
  · exact Or.inl ⟨[0, 2], 0, rfl, by norm_num [Operator.arithmetic?], rfl⟩
  · refine ⟨?_, ?_, true, rfl, ?_⟩
    all_goals
      simp only [Valuation.read, hspread _ smaller_plain.not_isUnion, Set.mem_singleton_iff]
    · rintro y rfl
      exact ⟨0, rfl⟩
    · rintro y rfl
      exact ⟨1, rfl⟩
    · refine iff_of_true trivial fun q r hq hr => ?_
      cases hq
      cases hr
      norm_num

theorem smaller_satisfies : Satisfies smaller.generation smallerValue := by
  intro id e h ha
  rcases smaller_node (Generation.expression?_eq.1 h) with ⟨-, hn⟩ | ⟨-, hn⟩ | ⟨-, hn⟩ | ⟨-, hn⟩ |
    ⟨rfl, -⟩
  case inr.inr.inr.inr => rfl
  all_goals
    cases hn
    try cases ha

end Sample

theorem exists_of_isOk {ε β : Type} {r : Except ε β} (h : r.isOk) : ∃ x, r = .ok x := by
  cases r with
  | ok x => exact ⟨x, rfl⟩
  | error e => cases h

theorem satisfies_iff_of_solve_smaller : ∃ sol, solve {} Sample.smaller.generation = .ok sol ∧
    ∃ w, FitsListed sol.last w ∧ Satisfies sol.last w ∧
      ∀ id p, Sample.smaller.generation.node? id = some (.parameter p) →
        ∃ m, sol.resolve? id = some m ∧ w m = Sample.smallerValue id := by
  have hbuild : Sample.smaller.build = .ok Sample.smaller.generation := by
    rfl
  have hok : (solve {} Sample.smaller.generation).isOk := by
    decide +kernel
  obtain ⟨sol, hsol⟩ := exists_of_isOk hok
  exact ⟨sol, hsol, (satisfies_iff_of_solve Sample.smaller_reachable hbuild Sample.smaller_plain
    hsol Sample.smaller_fits).1 Sample.smaller_satisfies⟩

end ParameterSolver
