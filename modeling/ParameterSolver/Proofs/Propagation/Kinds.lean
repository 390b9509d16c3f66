import ParameterSolver.Proofs.Propagation.Measured

/-! Which nodes come to be known as sets of numbers. The check of units passes over a node that it has no
unit for. A union of members of two enumerations is such a node: it has no value of its own, so that a
relation that holds between it and a length makes it a set of lengths. In a graph without such relations
sweeps come to know only those nodes as sets of numbers that stand for numbers. -/

namespace ParameterSolver

variable {α : Type} [Scalar α]

theorem Operator.isPredicate_eq_false_iff {op : Operator} :
    op.isPredicate = false ↔ op.has .arithmetic ∨ op.has .set := by
  cases op <;> decide

/-- The relation bounds its operand `a`, where it holds, by what is known of its operand `b`. -/
inductive Expression.Bounds (e : Expression) (a b : NodeId) : Prop
  | is (hop : e.op = .is) (ha : a ∈ e.operands) (hb : b ∈ e.operands) : Bounds e a b
  | order (hop : e.op = .greaterOrEqual) (ha : a ∈ e.operands) (hb : b ∈ e.operands) : Bounds e a b
  | subset {rest : List NodeId} (hop : e.op = .isSubset) (hops : e.operands = a :: b :: rest) : Bounds e a b

namespace Generation

/-- The node stands for numbers: it is a leaf that is a set of numbers, an expression of arithmetic, or an
expression of sets with such an operand. -/
inductive Numeric (g : Generation α) : NodeId → Prop
  | leaf {id : NodeId} {n : Node α} {q : Quantities α} (hn : g.node? id = some n)
    (hq : Knowledge.initial? n = some (.numeric q)) : Numeric g id
  | arithmetic {id : NodeId} {e : Expression} (he : g.expression? id = some e)
    (hop : e.op.has .arithmetic) : Numeric g id
  | set {id o : NodeId} {e : Expression} (he : g.expression? id = some e) (hop : e.op.has .set)
    (ho : o ∈ e.operands) (h : Numeric g o) : Numeric g id

/-- The node may be bounded by numbers: if it is an expression of sets, it stands for numbers. -/
def TakesNumbers (g : Generation α) (id : NodeId) : Prop :=
  ∀ e, g.expression? id = some e → e.op.has .set → g.Numeric id

/-- No relation bounds an expression of sets by numbers unless the expression stands for numbers. -/
def WellKinded (g : Generation α) : Prop :=
  ∀ id e a b, g.expression? id = some e → e.Bounds a b → g.Numeric b → g.TakesNumbers a

variable {g : Generation α} {id a m : NodeId} {e : Expression}

theorem Numeric.takesNumbers (h : g.Numeric id) : g.TakesNumbers id := fun _ _ _ => h

/-- What is built from numbers stands for them. -/
theorem Quantity.numeric (hg : g.Accepted) (h : g.Quantity id) : g.Numeric id := by
  induction h with
  | leaf hn hq => exact .leaf hn hq
  | @expression id e he hop ho ih =>
    obtain harith | hset : e.op.has .arithmetic ∨ e.op.has .set := by
      revert hop
      cases e.op <;> decide
    · exact .arithmetic he harith
    · obtain ⟨o, ho'⟩ := List.exists_mem_of_ne_nil _ (Operator.ne_nil_of_arity (hg.arity he))
      exact .set he hset ho' (ih o ho')

/-- A union is made of numbers if it stands for any, and so are its members. -/
theorem TakesNumbers.of_members (hg : g.Accepted) (hn : ∀ id, g.Numeric id → g.Quantity id)
    (h : g.TakesNumbers a) (hm : m ∈ Knowledge.members g a) : g.TakesNumbers m := by
  unfold Knowledge.members at hm
  split at hm
  · rename_i e he
    split_ifs at hm with hop
    · have ha := hn a (h e he (by rw [hop]; rfl))
      cases ha with
      | leaf hnode hq =>
        cases (expression?_eq.1 he).symm.trans hnode
        cases hq
      | expression he' _ ho =>
        cases he.symm.trans he'
        exact ((ho m hm).numeric hg).takesNumbers
    · rwa [List.mem_singleton.1 hm]
  · rwa [List.mem_singleton.1 hm]

theorem Numeric.of_members (hm : m ∈ Knowledge.members g a) (h : g.Numeric m) : g.Numeric a := by
  unfold Knowledge.members at hm
  split at hm
  · rename_i e he
    split_ifs at hm with hop
    · exact .set he (by rw [hop]; rfl) hm h
    · rwa [← List.mem_singleton.1 hm]
  · rwa [← List.mem_singleton.1 hm]

/-! A graph of numbers only, where every expression is a predicate or built from numbers. -/

theorem quantity_of_expressions (h : ∀ id e, g.expression? id = some e → e.op.isPredicate ∨ g.Quantity id)
    (hid : g.Numeric id) : g.Quantity id := by
  have hexpression {e : Expression} (he : g.expression? id = some e)
      (hop : e.op.has .arithmetic ∨ e.op.has .set) : g.Quantity id :=
    (h id e he).resolve_left (Bool.eq_false_iff.1 (Operator.isPredicate_eq_false_iff.2 hop))
  cases hid with
  | leaf hn hq => exact .leaf hn hq
  | arithmetic he hop => exact hexpression he (.inl hop)
  | set he hop => exact hexpression he (.inr hop)

theorem wellKinded_of_expressions (hg : g.Accepted)
    (h : ∀ id e, g.expression? id = some e → e.op.isPredicate ∨ g.Quantity id) : g.WellKinded := by
  rintro id e a b he - - s hs hop
  have hpred : s.op.isPredicate = false := Operator.isPredicate_eq_false_iff.2 (.inr hop)
  exact ((h a s hs).resolve_left (Bool.eq_false_iff.1 hpred)).numeric hg

end Generation

/-! Forward, the value of an expression is a set of numbers only if the expression stands for numbers. -/

namespace Propagation

variable {op : Operator} {l : List (ValueSet α)} {exact : List Bool} {q : Quantities α}

omit [Scalar α] in
/-- Sets combine to one of numbers only if the first of them is one. -/
theorem exists_numeric_of_reduce? {f : ValueSet α → ValueSet α → Except (SetError α) (ValueSet α)}
    (hf : ValueSet.Dimensional f)
    (h : reduce? (fun a b => (f a b).toOption) l = some (.numeric q)) : ∃ p, .numeric p ∈ l := by
  cases l with
  | nil => cases h
  | cons s l =>
    have hfirst : ∃ p, s = .numeric p := by
      unfold reduce? at h
      dsimp only at h
      induction l generalizing s with
      | nil => exact ⟨q, Option.some.inj h⟩
      | cons t l ih =>
        rw [List.foldlM_cons] at h
        obtain ⟨c, hc, h⟩ := Option.bind_eq_some_iff.1 h
        obtain ⟨p, rfl⟩ := ih c h
        obtain ⟨r, hr, -⟩ := hf.unit s t p (toOption_eq_some hc)
        exact ⟨r, hr⟩
    obtain ⟨p, rfl⟩ := hfirst
    exact ⟨p, .head l⟩

theorem exists_numeric_of_sets? (h : sets? op l exact = some (.numeric q)) : ∃ p, .numeric p ∈ l := by
  unfold sets? at h
  dsimp only at h
  generalize exact.all id = isExact at h
  cases op
  case union => exact exists_numeric_of_reduce? ValueSet.dimensional_union h
  case intersection => exact exists_numeric_of_reduce? ValueSet.dimensional_inter h
  case symmetricDifference =>
    cases isExact with
    | true => exact exists_numeric_of_reduce? ValueSet.dimensional_symmDiff h
    | false => exact exists_numeric_of_reduce? ValueSet.dimensional_union h
  case difference =>
    cases isExact with
    | true => exact exists_numeric_of_reduce? ValueSet.dimensional_diff h
    | false => exact ⟨q, List.mem_of_mem_head? h⟩
  all_goals cases h

theorem exists_numeric_of_evaluateKnown? (h : evaluateKnown? op l exact = some (.numeric q)) :
    op.has .arithmetic ∨ op.has .set ∧ ∃ p, .numeric p ∈ l := by
  unfold evaluateKnown? at h
  split_ifs at h with hlogic hrelation hset
  · obtain ⟨t, -, ht⟩ := Option.map_eq_some_iff.1 h
    cases ht
  · obtain ⟨t, -, ht⟩ := Option.map_eq_some_iff.1 h
    cases ht
  · exact Or.inr ⟨hset, exists_numeric_of_sets? h⟩
  · have hpred : op.isPredicate = false := by
      revert hlogic hrelation
      cases op <;> decide
    exact (Operator.isPredicate_eq_false_iff.1 hpred).imp_right fun h => absurd h hset

theorem exists_numeric_of_evaluate? {l : List (Option (ValueSet α))}
    (h : evaluate? op l exact = some (.numeric q)) :
    op.has .arithmetic ∨ op.has .set ∧ ∃ p, some (.numeric p) ∈ l := by
  have hunknown : unknown? op ≠ some (.numeric q) := by
    unfold unknown?
    split_ifs <;> exact nofun
  unfold evaluate? at h
  split at h
  · rename_i empty hempty
    split_ifs at h with hpred
    · cases h
    · cases h
      obtain ⟨x, hx, rfl⟩ := List.mem_filterMap.1 (List.mem_of_find?_eq_some hempty)
      exact (Operator.isPredicate_eq_false_iff.1 (Bool.eq_false_iff.2 hpred)).imp_right fun hset =>
        ⟨hset, q, hx⟩
  · split at h
    · rename_i values hvalues
      obtain h | ⟨-, h⟩ := Option.or_eq_some_iff.1 h
      · refine (exists_numeric_of_evaluateKnown? h).imp_right fun ⟨hset, p, hp⟩ => ⟨hset, p, ?_⟩
        obtain ⟨x, hx, rfl⟩ := (Knowledge.mem_of_mapM hvalues).2 _ hp
        exact hx
      · exact absurd h hunknown
    · exact absurd h hunknown

end Propagation

namespace Knowledge

variable {g : Generation α} {k k' : Knowledge α} {because : Provenance} {id a b : NodeId}
  {e : Expression} {s bound v : ValueSet α} {q : Quantities α}

theorem exists_numeric_of_inter (h : s.inter bound = .ok (.numeric q)) :
    (∃ p, s = .numeric p) ∧ ∃ p, bound = .numeric p := by
  obtain ⟨hbound, hs⟩ := ValueSet.family_of_inter h
  exact ⟨exists_numeric_of_family hs.symm, exists_numeric_of_family (hs.trans hbound).symm⟩

/-- Only nodes that stand for numbers are known as sets of numbers. -/
def Kinded (g : Generation α) (k : Knowledge α) : Prop :=
  ∀ id q, k.value? id = some (.numeric q) → g.Numeric id

theorem kinded_seed (g : Generation α) : Kinded g (seed g) := by
  intro id q hq
  obtain ⟨n, hn, hinitial⟩ := initial?_of_seed hq
  exact .leaf hn hinitial

theorem Kinded.restrict (h : Kinded g k)
    (hb : ∀ q, bound = .numeric q → k.value? id = none → g.Numeric id) :
    Kinded g (restrict g because k id bound) := by
  obtain ⟨hr, -⟩ | ⟨next, emptied, hr, hvalue, -⟩ := restrict_cases g because k id bound <;> rw [hr]
  · exact h
  · intro n q hq
    rcases NodeMap.get?_insert_cases hq with ⟨rfl, rfl⟩ | hq
    · obtain ⟨hnone, hbound⟩ | ⟨current, hcurrent, hinter⟩ := hvalue
      · exact hb q hbound.symm hnone
      · obtain ⟨p, rfl⟩ := (exists_numeric_of_inter hinter).1
        exact h n p hcurrent
    · exact h n q hq

theorem numeric_of_forwardValue? (h : Kinded g k) (he : g.expression? id = some e)
    (hv : k.forwardValue? e = some (.numeric q)) : g.Numeric id := by
  have hvalue : ∃ q, Propagation.evaluate? e.op (e.operands.map k.value?)
      (e.operands.map k.exact.contains) = some (.numeric q) := by
    unfold forwardValue? at hv
    dsimp only at hv
    split_ifs at hv
    · split at hv
      · rename_i s hs
        cases hinter : s.inter (.truth true) with
        | error _ =>
          rw [hinter] at hv
          exact ⟨q, hs.trans hv⟩
        | ok c =>
          rw [hinter] at hv
          obtain rfl : c = .numeric q := Option.some.inj hv
          obtain ⟨p, hp⟩ := (exists_numeric_of_inter hinter).2
          cases hp
      · cases hv
    · exact ⟨q, hv⟩
  obtain ⟨q, hq⟩ := hvalue
  obtain harith | ⟨hset, p, hp⟩ := Propagation.exists_numeric_of_evaluate? hq
  · exact .arithmetic he harith
  · obtain ⟨o, ho, hp⟩ := List.mem_map.1 hp
    exact .set he hset ho (h o p hp)

theorem Kinded.forwardStep (h : Kinded g k) (id : NodeId) : Kinded g (forwardStep g k id) := by
  cases he : g.expression? id with
  | none =>
    unfold Knowledge.forwardStep
    rwa [he]
  | some e =>
    have hmarked : Kinded g (k.marked id e) := by
      unfold marked
      split_ifs
      · exact h
      · exact h
    obtain ⟨because, hstep⟩ := exists_forwardStep_eq (g := g) (k := k) he
    rw [hstep]
    cases hv : k.forwardValue? e with
    | none => exact hmarked
    | some v =>
      refine hmarked.restrict fun q hq _ => ?_
      subst hq
      exact numeric_of_forwardValue? h he hv

/-! Backward, something is known of all leaves and predicates, so that only expressions of arithmetic and
of sets can get their first value. -/

/-- Nothing is known at most of given sets and of expressions that are no predicates. -/
def Surveyed (g : Generation α) (k : Knowledge α) : Prop :=
  ∀ id, g.contains id → g.isGiven id = false → k.value? id = none →
    ∃ e, g.expression? id = some e ∧ e.op.isPredicate = false

theorem Kept.surveyed (h : Kept g k) (hf : Filled g k) : Surveyed g k := by
  intro id hid hgiven hnone
  obtain ⟨n, hn⟩ := Generation.contains_iff.1 hid
  cases n with
  | expression e =>
    refine ⟨e, Generation.expression?_eq.2 hn, Bool.eq_false_iff.2 fun hpred => ?_⟩
    have hsome := hf id e (Generation.expression?_eq.2 hn) hpred
    rw [hnone] at hsome
    cases hsome
  | parameter p =>
    obtain ⟨s, hs⟩ : ∃ s, initial? (Node.parameter p) = some s := ⟨_, rfl⟩
    obtain ⟨t, ht, -⟩ := h.learnt.family (seed_of_initial? hn hs)
    cases hnone.symm.trans ht
  | literal s source =>
    rw [Generation.isGiven, hn] at hgiven
    cases hgiven
  | constant c =>
    rw [Generation.isGiven, hn] at hgiven
    cases hgiven

theorem Surveyed.learns (h : Surveyed g k) (hl : Learns g k k') : Surveyed g k' := by
  intro id hid hgiven hnone
  refine h id hid hgiven ?_
  by_contra hsome
  have hsome' := isSome_of_learns hl (Option.isSome_iff_ne_none.2 hsome)
  rw [hnone] at hsome'
  cases hsome'

/-- What steps back keep. -/
structure Classified (g : Generation α) (k : Knowledge α) : Prop where
  kinded : Kinded g k
  surveyed : Surveyed g k

section Backward

/-- Numbers narrow a node that may be bounded by them. -/
theorem classified_narrow (hid : g.contains id) (hb : ∀ q, bound = .numeric q → g.TakesNumbers id)
    (h : Classified g k) : Classified g (narrow g because k id bound) := by
  refine ⟨?_, h.surveyed.learns (learns_narrow k id bound)⟩
  unfold narrow
  split_ifs with hgiven
  · exact h.kinded
  · refine h.kinded.restrict fun q hq hnone => ?_
    obtain ⟨e, he, hpred⟩ := h.surveyed id hid (Bool.eq_false_iff.2 hgiven) hnone
    obtain harith | hset := Operator.isPredicate_eq_false_iff.1 hpred
    · exact .arithmetic he harith
    · exact hb q hq e he hset

theorem classified_narrowIs (ha : g.contains a) (hb : g.contains b)
    (hab : g.Numeric b → g.TakesNumbers a) (hba : g.Numeric a → g.TakesNumbers b)
    (h : Classified g k) : Classified g (narrowIs g because k a b) := by
  unfold narrowIs
  split
  · rename_i va vb hva hvb
    split
    · rename_i common hcommon
      refine classified_narrow hb (fun q hq => ?_) (classified_narrow ha (fun q hq => ?_) h)
      · obtain ⟨-, p, rfl⟩ := exists_numeric_of_inter (hq ▸ hcommon)
        exact (h.kinded b p hvb).takesNumbers
      · obtain ⟨⟨p, rfl⟩, -⟩ := exists_numeric_of_inter (hq ▸ hcommon)
        exact (h.kinded a p hva).takesNumbers
    · exact h
  · rename_i vb _ hvb
    refine classified_narrow ha (fun q hq => ?_) h
    subst hq
    exact hab (h.kinded b q hvb)
  · rename_i va hva _
    refine classified_narrow hb (fun q hq => ?_) h
    subst hq
    exact hba (h.kinded a q hva)
  · exact h

theorem classified_narrowPair (ha : g.contains a) (hb : g.contains b)
    (hab : g.Numeric b → g.TakesNumbers a) (hba : g.Numeric a → g.TakesNumbers b)
    (h : Classified g k) : Classified g (narrowPair g because k a b) := by
  have hlimits {k : Knowledge α} {n : NodeId} {lo hi : α} {unit : MeasureUnit α} (hk : Kinded g k)
      (hn : k.limits? n = some (lo, hi, unit)) : g.Numeric n := by
    obtain ⟨q, hq, -⟩ := exists_numeric_of_limits? hn
    exact hk n q hq
  unfold narrowPair
  extract_lets k'
  have h' : Classified g k' := by
    dsimp only [k']
    split
    · rename_i hlow
      exact classified_narrow ha (fun _ _ => hab (hlimits h.kinded hlow)) h
    · exact h
  split
  · rename_i hhigh
    exact classified_narrow hb (fun _ _ => hba (hlimits h'.kinded hhigh)) h'
  · exact h'

theorem classified_narrowOr {l : List NodeId} (hl : ∀ o ∈ l, g.contains o) (h : Classified g k) :
    Classified g (narrowOr g because k l v) := by
  unfold narrowOr
  split_ifs
  · exact foldl_inv_of_mem (fun o ho k hk => classified_narrow (hl o ho) (fun _ hq => nomatch hq) hk) h
  · split
    · rename_i only honly
      have hmem : only ∈ l.filter fun o => !(k.value? o).any ValueSet.isFalse := by
        rw [honly]
        exact List.mem_singleton_self only
      exact classified_narrow (hl only (List.mem_of_mem_filter hmem)) (fun _ hq => nomatch hq) h
    · exact h
  · exact h

/-- The terms and factors that are narrowed are known as sets of numbers already. -/
theorem classified_narrowEach {l : List NodeId} (hl : ∀ o ∈ l, g.contains o)
    {bound? : Quantities α → List (Quantities α) → ℕ → Option (Quantities α)}
    (h : Classified g k) : Classified g (narrowEach g because k bound? l v) := by
  unfold narrowEach
  split
  · rename_i whole parts _ hparts
    refine foldl_inv_of_mem (fun x hx k' hk' => ?_) h
    have hx := List.fst_mem_of_mem_zipIdx hx
    dsimp only
    split
    · refine classified_narrow (hl x.1 hx) (fun _ _ => ?_) hk'
      obtain ⟨p, -, hp⟩ := (mem_of_mapM hparts).1 x.1 hx
      obtain ⟨s, hs, hp⟩ := Option.bind_eq_some_iff.1 hp
      obtain rfl := eq_numeric_of_quantities? hp
      exact (h.kinded x.1 p hs).takesNumbers
    · exact hk'
  · exact h

variable (hg : g.Accepted) (hn : ∀ id, g.Numeric id → g.Quantity id)

include hg hn

theorem classified_narrowOrder (ha : g.contains a) (hb : g.contains b)
    (hab : g.Numeric b → g.TakesNumbers a) (hba : g.Numeric a → g.TakesNumbers b)
    (h : Classified g k) : Classified g (narrowOrder g because k a b) := by
  unfold narrowOrder
  refine foldl_inv_of_mem (fun i hi k hk => foldl_inv_of_mem (fun j hj k hk => ?_) hk) h
  exact classified_narrowPair (contains_of_members hg ha hi) (contains_of_members hg hb hj)
    (fun hnum => (hab (hnum.of_members hj)).of_members hg hn hi)
    (fun hnum => (hba (hnum.of_members hi)).of_members hg hn hj) hk

theorem classified_narrowOperands (hk : g.WellKinded) (he : g.expression? id = some e)
    (h : Classified g k) : Classified g (narrowOperands g because k e v) := by
  have hcontains := fun o (ho : o ∈ e.operands) => hg.contains he ho
  have hbounds := fun a b => hk id e a b he
  obtain ⟨op, operands, asserted⟩ := e
  unfold narrowOperands
  cases op
  case is =>
    match operands with
    | [] | [_] => exact h
    | a :: b :: rest =>
      dsimp only
      split_ifs
      · exact classified_narrowIs (hcontains a (by simp)) (hcontains b (by simp))
          (hbounds a b (.is rfl (by simp) (by simp))) (hbounds b a (.is rfl (by simp) (by simp))) h
      · exact h
  case isSubset =>
    match operands with
    | [] | [_] => exact h
    | a :: b :: rest =>
      dsimp only
      split
      · rename_i outer _ houter
        refine classified_narrow (hcontains a (by simp)) (fun q hq => ?_) h
        subst hq
        exact hbounds a b (.subset rfl rfl) (h.kinded b q houter)
      · exact h
  case greaterOrEqual =>
    match operands with
    | [] | [_] => exact h
    | a :: b :: rest =>
      dsimp only
      split_ifs
      · exact classified_narrowOrder hg hn (hcontains a (by simp)) (hcontains b (by simp))
          (hbounds a b (.order rfl (by simp) (by simp))) (hbounds b a (.order rfl (by simp) (by simp))) h
      · exact h
  case not =>
    match operands with
    | [] => exact h
    | a :: rest =>
      cases v with
      | boolean t => exact classified_narrow (hcontains a (by simp)) (fun _ hq => nomatch hq) h
      | numeric q => exact h
      | enum c => exact h
      | text t => exact h
  case or => exact classified_narrowOr hcontains h
  case add => exact classified_narrowEach hcontains h
  case multiply => exact classified_narrowEach hcontains h
  all_goals exact h

theorem classified_backwardStep (hk : g.WellKinded) (k : Knowledge α) (id : NodeId)
    (h : Classified g k) : Classified g (backwardStep g k id) := by
  unfold backwardStep
  split
  · rename_i e value he hvalue
    split_ifs
    · exact h
    · exact classified_narrowOperands hg hn hk he h
  · exact h

theorem kinded_sweep (hk : g.WellKinded) {order : List NodeId} (horder : ∀ n, g.contains n → n ∈ order)
    (hkept : Kept g k) (h : Kinded g k) : Kinded g (sweep g order k) := by
  have hforward : Kinded g (order.foldl (Knowledge.forwardStep g) { k with changed := false }) :=
    foldl_inv (fun _ id hk => hk.forwardStep id) order h
  obtain ⟨hkept', hfilled⟩ := hkept.forward horder
  have hturn : Classified g (order.foldl (Knowledge.forwardStep g) { k with changed := false }) :=
    ⟨hforward, hkept'.surveyed hfilled⟩
  exact (foldl_inv (classified_backwardStep hg hn hk) order.reverse hturn).kinded

end Backward

end Knowledge

/-- In a graph without mixed kinds, only what stands for numbers is ever known as a set of numbers. -/
theorem Propagation.kinded_run {g : Generation α} (hg : g.Accepted)
    (hn : ∀ id, g.Numeric id → g.Quantity id) (hk : g.WellKinded) (budget : ℕ) :
    (run g budget).knowledge.Kinded g := by
  have horder (n : NodeId) (hn : g.contains n) : n ∈ g.topologicalOrder := hg.acyclic.mem_topologicalOrder hn
  have hsweep (k : Knowledge α) (h : k.Kept g ∧ k.Kinded g) :
      (k.sweep g g.topologicalOrder).Kept g ∧ (k.sweep g g.topologicalOrder).Kinded g :=
    ⟨h.1.sweep horder, Knowledge.kinded_sweep hg hn hk horder h.1 h.2⟩
  exact (iterate_inv hsweep budget ⟨.seed g, 0⟩ ⟨Knowledge.kept_seed g, Knowledge.kinded_seed g⟩).2

end ParameterSolver
