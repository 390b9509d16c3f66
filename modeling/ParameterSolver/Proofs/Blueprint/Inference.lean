import ParameterSolver.Proofs.Blueprint.Reachable
import ParameterSolver.Proofs.Graph.Listing
import ParameterSolver.Proofs.Graph.Order
import ParameterSolver.Proofs.Propagation.Evaluate
import ParameterSolver.Proofs.ValueSet.Dimensions
import ParameterSolver.Proofs.ValueSet.Points
import ParameterSolver.Propagation.Knowledge

/-! What the check of units infers. Operands have their turn before what uses them, so in the end the
unit of every node is the one that the units of its operands give, and no fault is taken back: in a graph
that is accepted the bound of a parameter measures what the parameter measures. The dimension of a sum is
that of its terms, the dimension of a product the sum of those of its factors; as long as these have
exponents in range, everything that is built from numbers has a unit. -/

namespace ParameterSolver

variable {α : Type} [Scalar α]

namespace Operator

/-- The result has the one dimension that all operands have. -/
def keepsDimension (op : Operator) : Bool :=
  op ∈ ([.add, .subtract, .min, .max, .round, .abs, .floor, .ceil, .union, .intersection, .difference,
    .symmetricDifference] : List Operator)

/-- The dimension of the result follows from those of the operands. -/
def hasDimension (op : Operator) : Bool := op.keepsDimension || op == .multiply || op == .divide

theorem keepsDimension_iff {op : Operator} :
    op.keepsDimension ↔ Blueprint.needsSameUnit op ∧ op.isPredicate = false := by
  cases op <;> decide

theorem ne_nil_of_arity {op : Operator} {l : List NodeId} (h : op.arity.accepts l.length) :
    l ≠ [] := by
  rintro rfl
  cases op <;> cases h

end Operator

namespace Blueprint

variable {g : Generation α} {l : List NodeId} {c : UnitCheck α} {id x : NodeId} {n : Node α}
  {units units' : NodeMap (MeasureUnit α)}

theorem nodeUnit_congr (h : ∀ o ∈ n.operands, units'.get? o = units.get? o) :
    nodeUnit units' n = nodeUnit units n := by
  cases n with
  | expression e =>
    have hknown : e.operands.filterMap units'.get? = e.operands.filterMap units.get? :=
      List.filterMap_congr h
    show expressionUnit units' e = expressionUnit units e
    simp only [expressionUnit, hknown]
  | parameter p => rfl
  | literal s u => rfl
  | constant c => rfl

theorem UnitCheck.units_step_of_ne (h : id ≠ x) : (c.step g x).units.get? id = c.units.get? id := by
  unfold step
  split
  · rfl
  · dsimp only
    split
    · exact NodeMap.get?_insert_other h
    · rfl

theorem UnitCheck.units_step_self (hn : g.node? x = some n)
    (hc : c.units.get? x = none ∨ c.units.get? x = (nodeUnit c.units n).1) :
    (c.step g x).units.get? x = (nodeUnit c.units n).1 := by
  have hnull := Generation.ne_null_of_contains (Generation.contains_of_node? hn)
  unfold step
  rw [hn]
  dsimp only
  split
  · rename_i u hu
    rw [NodeMap.get?_insert_self hnull, hu]
  · rename_i hu
    rw [hu] at hc ⊢
    exact hc.elim id id

/-- The check has come to the nodes of the list, and has kept to what the units of their operands
give. -/
structure UnitCheck.Covers (g : Generation α) (l : List NodeId) (c : UnitCheck α) : Prop where
  outside : ∀ id, id ∉ l → c.units.get? id = none
  unit : ∀ id ∈ l, ∀ n, g.node? id = some n → c.units.get? id = (nodeUnit c.units n).1
  faults : c.faults = [] → ∀ id ∈ l, ∀ n, g.node? id = some n → (nodeUnit c.units n).2 = []

theorem UnitCheck.Covers.step (h : c.Covers g l) (hl : g.Ordered l)
    (hx : ∀ o ∈ g.operands x, g.contains o → o ∈ l) : (c.step g x).Covers g (x :: l) := by
  cases hn : g.node? x with
  | none =>
    have hsame : c.step g x = c := by
      unfold UnitCheck.step
      rw [hn]
    have hmem {id : NodeId} {n : Node α} (hid : id ∈ x :: l) (hn' : g.node? id = some n) : id ∈ l :=
      (List.mem_cons.1 hid).resolve_left fun heq => by simp [heq, hn] at hn'
    rw [hsame]
    exact ⟨fun id hid => h.outside id fun hmem => hid (.tail _ hmem),
      fun id hid n hn' => h.unit id (hmem hid hn') n hn',
      fun hf id hid n hn' => h.faults hf id (hmem hid hn') n hn'⟩
  | some n =>
    have hself : (c.step g x).units.get? x = (nodeUnit c.units n).1 := by
      refine UnitCheck.units_step_self hn ?_
      by_cases hmem : x ∈ l
      · exact Or.inr (h.unit x hmem n hn)
      · exact Or.inl (h.outside x hmem)
    -- a node that has had its turn does not depend on a node that comes only now
    have hcongr {id : NodeId} {m : Node α} (hid : id ∈ x :: l) (hm : g.node? id = some m) :
        nodeUnit (c.step g x).units m = nodeUnit c.units m := by
      refine nodeUnit_congr fun o ho => ?_
      by_cases hox : o = x
      · subst hox
        rw [← Generation.operands_of_node? hm] at ho
        have hmem : o ∈ l := by
          rcases List.mem_cons.1 hid with rfl | hid
          · exact hx id ho (Generation.contains_of_node? hn)
          · exact hl.mem_operands hid ho (Generation.contains_of_node? hn)
        exact hself.trans (h.unit o hmem n hn).symm
      · exact UnitCheck.units_step_of_ne hox
    refine ⟨fun id hid => ?_, fun id hid m hm => ?_, fun hf id hid m hm => ?_⟩
    · have hne : id ≠ x := by
        rintro rfl
        exact hid (.head l)
      rw [UnitCheck.units_step_of_ne hne]
      exact h.outside id fun hmem => hid (.tail _ hmem)
    · rw [hcongr hid hm]
      by_cases hix : id = x
      · subst hix
        cases hn.symm.trans hm
        exact hself
      · rw [UnitCheck.units_step_of_ne hix]
        exact h.unit id ((List.mem_cons.1 hid).resolve_left hix) m hm
    · rw [hcongr hid hm]
      unfold UnitCheck.step at hf
      rw [hn] at hf
      obtain ⟨hbefore, hnow⟩ := List.append_eq_nil_iff.1 hf
      rcases List.mem_cons.1 hid with rfl | hid
      · cases hn.symm.trans hm
        exact hnow
      · exact h.faults hbefore id hid m hm

/-- The induction is on the order in which the nodes have their turn. -/
theorem covers_checkUnits (hg : g.Acyclic) : (checkUnits g).Covers g g.topologicalOrder.reverse := by
  have hfold {l : List NodeId} (hl : g.Ordered l) :
      (l.reverse.foldl (UnitCheck.step g) ⟨.empty, []⟩).Covers g l := by
    induction hl with
    | nil => exact ⟨fun id _ => NodeMap.get?_empty id, nofun, nofun⟩
    | cons hl hid ih =>
      rw [List.reverse_cons, List.foldl_append, List.foldl_cons, List.foldl_nil]
      exact ih.step hl hid
  have hall := hfold hg.ordered
  rwa [List.reverse_reverse] at hall

omit [Scalar α] in
theorem commensurable_of_boundFaults {p : Parameter α} {w : ValueSet α} {u : MeasureUnit α}
    (h : boundFaults p = []) (hw : p.within = some w) (hu : w.unit? = some u) :
    u.commensurable p.unit := by
  unfold boundFaults at h
  rw [List.filterMap_eq_nil_iff] at h
  have hnone := h u (List.mem_filterMap.2 ⟨p.within, by simp, by rw [hw]; exact hu⟩)
  by_contra hunit
  rw [if_neg hunit] at hnone
  cases hnone

/-- Without faults the bound of a parameter that takes numbers measures what the parameter measures. -/
theorem commensurable_bound (hg : g.Acyclic) (h : (checkUnits g).faults = []) {p : Parameter α}
    {w : ValueSet α} {u : MeasureUnit α} (hp : g.node? id = some (.parameter p))
    (hdomain : p.domain.isNumbers) (hw : p.within = some w) (hu : w.unit? = some u) :
    u.commensurable p.unit := by
  have hturn := List.mem_reverse.2 (hg.mem_topologicalOrder (Generation.contains_of_node? hp))
  have hfaults := (covers_checkUnits hg).faults h id hturn _ hp
  simp only [nodeUnit, hdomain, if_true] at hfaults
  exact commensurable_of_boundFaults hfaults hw hu

omit [Scalar α] in
theorem mismatch_eq_nil {op : Operator} {known : List (MeasureUnit α)} (h : mismatch op known = [])
    {u v : MeasureUnit α} (hu : u ∈ known) (hv : v ∈ known) : u.dims = v.dims := by
  unfold mismatch at h
  split at h
  · cases hu
  · rename_i left rest
    split at h
    · cases h
    · rename_i hnone
      have hleft (w : MeasureUnit α) (hw : w ∈ left :: rest) : w.dims = left.dims := by
        simpa [MeasureUnit.commensurable_iff] using List.find?_eq_none.1 hnone w hw
      exact (hleft u hu).trans (hleft v hv).symm

/-! The unit of an expression, by cases. -/

omit [Scalar α] in
theorem filterMap_of_map {known : List (MeasureUnit α)} {l : List NodeId}
    {f : NodeId → Option (MeasureUnit α)} (h : l.map f = known.map some) : l.filterMap f = known := by
  have hid : l.filterMap f = (l.map f).filterMap id := by rw [List.filterMap_map, Function.id_comp]
  rw [hid, h, List.filterMap_map]
  exact List.filterMap_some

omit [Scalar α] in
theorem map_of_length {l : List NodeId} {f : NodeId → Option (MeasureUnit α)}
    (h : (l.filterMap f).length = l.length) : l.map f = (l.filterMap f).map some := by
  induction l with
  | nil => rfl
  | cons o l ih =>
    cases ho : f o with
    | none =>
      rw [List.filterMap_cons_none ho] at h
      have := List.length_filterMap_le f l
      simp only [List.length_cons] at h
      omega
    | some u =>
      rw [List.filterMap_cons_some ho] at h ⊢
      simp only [List.length_cons, Nat.add_right_cancel_iff] at h
      rw [List.map_cons, List.map_cons, ho, ih h]

/-- How a unit is inferred for an expression. -/
inductive Infers (units : NodeMap (MeasureUnit α)) (e : Expression) (u : MeasureUnit α) : Prop
  | first (hop : e.op.keepsDimension) (h : (e.operands.filterMap units.get?).head? = some u) : Infers units e u
  | product {known : List (MeasureUnit α)} (hop : e.op = .multiply)
    (hknown : e.operands.map units.get? = known.map some)
    (h : known.foldlM MeasureUnit.mul .one = .ok u) : Infers units e u
  | quotient {a b : MeasureUnit α} (hop : e.op = .divide)
    (hknown : e.operands.map units.get? = [some a, some b]) (h : a.div b = .ok u) : Infers units e u

theorem infers_iff {e : Expression} {u : MeasureUnit α} :
    (expressionUnit units e).1 = some u ↔ Infers units e u := by
  constructor
  · intro h
    by_cases hsame : needsSameUnit e.op
    · cases hpred : e.op.isPredicate with
      | true => simp [expressionUnit, hsame, hpred] at h
      | false =>
        simp only [expressionUnit, hsame, hpred, if_true, Bool.false_eq_true, if_false] at h
        exact .first (Operator.keepsDimension_iff.2 ⟨hsame, hpred⟩) h
    · simp only [expressionUnit, hsame, Bool.false_eq_true, if_false] at h
      split at h
      · rename_i hop hcomplete
        exact .product hop (map_of_length (by simpa using hcomplete)) (Propagation.toOption_eq_some h)
      · rename_i hop hcomplete hknown
        have hmap := map_of_length (by simpa using hcomplete)
        rw [hknown] at hmap
        exact .quotient hop hmap (Propagation.toOption_eq_some h)
      · cases h
  · rintro (⟨hop, h⟩ | ⟨hop, hknown, h⟩ | ⟨hop, hknown, h⟩)
    · obtain ⟨hsame, hpred⟩ := Operator.keepsDimension_iff.1 hop
      simpa [expressionUnit, hsame, hpred] using h
    · have hsame : needsSameUnit .multiply = false := by decide
      have hlength := congrArg List.length hknown
      rw [List.length_map, List.length_map] at hlength
      simp [expressionUnit, hop, hsame, filterMap_of_map hknown, hlength, h, Except.toOption]
    · have hsame : needsSameUnit .divide = false := by decide
      have hlength := congrArg List.length hknown
      rw [List.length_map] at hlength
      have hpair : e.operands.filterMap units.get? = [_, _] := filterMap_of_map hknown
      simp [expressionUnit, hop, hsame, hpair, hlength, h, Except.toOption]

end Blueprint

theorem Domain.exists_values_numbers (negative zero integer : Bool) (u : MeasureUnit α) :
    ∃ base, (Domain.numbers negative zero integer).values u = .numeric ⟨base, u⟩ := by
  cases negative <;> cases zero <;> exact ⟨_, rfl⟩

/-- The set is a bound for the parameter: it has some value, values of the kind that the parameter has,
and those of the same enumeration if they are members of one. -/
structure Parameter.Admits [Scalar.Ordered α] (p : Parameter α) (w : ValueSet α) : Prop where
  canonical : w.Canonical
  nonempty : w.isEmpty = false
  kind : w.kind = p.values.kind
  enumeration : ∀ c e, w = .enum c → p.domain = .enum e → c.enumeration = e.name

/-- A bound of the right kind in a graph that is accepted can be compared with the domain. -/
theorem Parameter.Admits.family [Scalar.Ordered α] {b : Blueprint α} {g : Generation α} {x : NodeId}
    {p : Parameter α} {w : ValueSet α} (h : p.Admits w) (hg : g.Acyclic) (hbuild : b.build = .ok g)
    (hp : g.node? x = some (.parameter p)) (hw : p.within = some w) : w.family = p.values.family := by
  have hkind := h.kind
  unfold Parameter.values at hkind ⊢
  cases hdomain : p.domain with
  | numbers negative zero integer =>
    obtain ⟨base, hbase⟩ := Domain.exists_values_numbers negative zero integer p.unit
    rw [hdomain, hbase] at hkind
    rw [hbase]
    cases w with
    | numeric q =>
      have hunit := Blueprint.commensurable_bound hg (Blueprint.faults_of_build hbuild).1.2 hp
        (by rw [hdomain]; rfl) hw rfl
      exact congrArg Family.numbers (eq_of_beq hunit)
    | _ => cases hkind
  | boolean =>
    rw [hdomain] at hkind
    cases w <;> first | rfl | cases hkind
  | enum e =>
    rw [hdomain] at hkind
    cases w with
    | enum c => exact congrArg Family.members (h.enumeration c e rfl hdomain)
    | _ => cases hkind
  | text =>
    rw [hdomain] at hkind
    cases w <;> first | rfl | cases hkind

namespace MeasureUnit

theorem dims_of_foldlM {l : List (MeasureUnit α)} {u w : MeasureUnit α} (h : l.foldlM mul u = .ok w) :
    w.dims = u.dims + (l.map dims).sum := by
  induction l generalizing u with
  | nil =>
    cases h
    simp
  | cons v l ih =>
    rw [List.foldlM_cons] at h
    cases hv : u.mul v with
    | error e =>
      rw [hv] at h
      cases h
    | ok x =>
      rw [hv] at h
      rw [ih h, dims_of_mul hv, List.map_cons, List.sum_cons, add_assoc]

theorem exists_foldlM {l : List (MeasureUnit α)} {u : MeasureUnit α}
    (h : ∀ k < l.length, Exponents.Fit (u.dims + ((l.map dims).take (k + 1)).sum)) :
    ∃ w, l.foldlM mul u = .ok w := by
  induction l generalizing u with
  | nil => exact ⟨u, rfl⟩
  | cons v l ih =>
    have hfirst := h 0 (by simp)
    rw [List.map_cons, List.take_succ_cons, List.take_zero, List.sum_singleton] at hfirst
    obtain ⟨x, hx⟩ := exists_mul hfirst
    obtain ⟨w, hw⟩ := ih (u := x) fun k hk => by
      have hnext := h (k + 1) (by simpa using hk)
      rwa [List.map_cons, List.take_succ_cons, List.sum_cons, ← add_assoc, ← dims_of_mul hx] at hnext
    exact ⟨w, by rw [List.foldlM_cons, hx]; exact hw⟩

end MeasureUnit

namespace Generation

open MeasureUnit

/-- The unit that the check of units infers for a node. -/
def unit? (g : Generation α) (id : NodeId) : Option (MeasureUnit α) :=
  (Blueprint.checkUnits g).units.get? id

/-- The dimension of the unit that is inferred for a node. -/
def dims (g : Generation α) (id : NodeId) : Dimension → ℤ :=
  match g.unit? id with
  | some u => u.dims
  | none => 0

/-- The node is built from leaves that are sets of numbers, with operators that give numbers of a
dimension. -/
inductive Quantity (g : Generation α) : NodeId → Prop
  | leaf {id : NodeId} {n : Node α} {q : Quantities α} (hn : g.node? id = some n)
    (hq : Knowledge.initial? n = some (.numeric q)) : Quantity g id
  | expression {id : NodeId} {e : Expression} (he : g.expression? id = some e)
    (hop : e.op.hasDimension) (ho : ∀ o ∈ e.operands, Quantity g o) : Quantity g id

/-- The dimension of the numbers that a node stands for. -/
inductive Measures (g : Generation α) : NodeId → (Dimension → ℤ) → Prop
  | leaf {id : NodeId} {n : Node α} {q : Quantities α} (hn : g.node? id = some n)
    (hq : Knowledge.initial? n = some (.numeric q)) : Measures g id q.unit.dims
  | same {id o : NodeId} {e : Expression} {d : Dimension → ℤ} (he : g.expression? id = some e)
    (hop : e.op.keepsDimension) (ho : e.operands.head? = some o) (h : Measures g o d) :
    Measures g id d
  | product {id : NodeId} {e : Expression} {d : NodeId → Dimension → ℤ}
    (he : g.expression? id = some e) (hop : e.op = .multiply)
    (h : ∀ o ∈ e.operands, Measures g o (d o)) : Measures g id (e.operands.map d).sum
  | quotient {id a b : NodeId} {e : Expression} {d d' : Dimension → ℤ}
    (he : g.expression? id = some e) (hop : e.op = .divide) (hops : e.operands = [a, b])
    (ha : Measures g a d) (hb : Measures g b d') : Measures g id (d - d')

section Measures

variable {g : Generation α} {id : NodeId} {e : Expression} {d d' : Dimension → ℤ}

theorem Measures.of_leaf {n : Node α} {q : Quantities α} (h : g.Measures id d) (hn : g.node? id = some n)
    (hq : Knowledge.initial? n = some (.numeric q)) : d = q.unit.dims := by
  have hleaf {e : Expression} (he : g.expression? id = some e) : False := by
    cases hn.symm.trans (expression?_eq.1 he)
    cases hq
  cases h with
  | leaf hn' hq' =>
    cases hn.symm.trans hn'
    cases hq.symm.trans hq'
    rfl
  | same he => exact (hleaf he).elim
  | product he => exact (hleaf he).elim
  | quotient he => exact (hleaf he).elim

theorem Measures.of_expression (h : g.Measures id d) (he : g.expression? id = some e) :
    (e.op.keepsDimension ∧ ∃ o, e.operands.head? = some o ∧ g.Measures o d) ∨
    (e.op = .multiply ∧ ∃ f, (∀ o ∈ e.operands, g.Measures o (f o)) ∧ d = (e.operands.map f).sum) ∨
    (e.op = .divide ∧ ∃ a b da db, e.operands = [a, b] ∧ g.Measures a da ∧ g.Measures b db ∧
      d = da - db) := by
  cases h with
  | leaf hn hq =>
    cases hn.symm.trans (expression?_eq.1 he)
    cases hq
  | same he' hop ho h =>
    cases he.symm.trans he'
    exact Or.inl ⟨hop, _, ho, h⟩
  | product he' hop h =>
    cases he.symm.trans he'
    exact Or.inr (Or.inl ⟨hop, _, h, rfl⟩)
  | quotient he' hop hops ha hb =>
    cases he.symm.trans he'
    exact Or.inr (Or.inr ⟨hop, _, _, _, _, hops, ha, hb, rfl⟩)

/-- There is one dimension at most that a node measures. -/
theorem Measures.unique (h : g.Measures id d) (h' : g.Measures id d') : d' = d := by
  induction h generalizing d' with
  | leaf hn hq => exact h'.of_leaf hn hq
  | same he hop ho _ ih =>
    obtain ⟨-, o, ho', h⟩ | ⟨hop', -⟩ | ⟨hop', -⟩ := h'.of_expression he
    · cases ho.symm.trans ho'
      exact ih h
    · simp [hop', Operator.keepsDimension] at hop
    · simp [hop', Operator.keepsDimension] at hop
  | product he hop _ ih =>
    obtain ⟨hop', -⟩ | ⟨-, f, hf, rfl⟩ | ⟨hop', -⟩ := h'.of_expression he
    · simp [hop, Operator.keepsDimension] at hop'
    · exact congrArg List.sum (List.map_congr_left fun o ho => ih o ho (hf o ho))
    · cases hop.symm.trans hop'
  | quotient he hop hops _ _ iha ihb =>
    obtain ⟨hop', -⟩ | ⟨hop', -⟩ | ⟨-, a, b, da, db, hops', ha, hb, rfl⟩ := h'.of_expression he
    · simp [hop, Operator.keepsDimension] at hop'
    · cases hop.symm.trans hop'
    · cases hops.symm.trans hops'
      rw [iha ha, ihb hb]

end Measures

/-- The exponents of every quotient and of every product, as it grows factor by factor, are in the range
of a unit. -/
structure NoOverflow (g : Generation α) : Prop where
  product : ∀ id e d, g.expression? id = some e → e.op = .multiply →
    (∀ o ∈ e.operands, g.Measures o (d o)) → ∀ l, l ≠ [] → l <+: e.operands →
      Exponents.Fit (l.map d).sum
  quotient : ∀ id e a b d d', g.expression? id = some e → e.op = .divide → e.operands = [a, b] →
    g.Measures a d → g.Measures b d' → Exponents.Fit (d - d')

/-- A graph that a build has accepted. -/
structure Accepted (g : Generation α) : Prop where
  acyclic : g.Acyclic
  orderly : g.Orderly
  faults : (Blueprint.checkUnits g).faults = []

theorem accepted_of_build {b : Blueprint α} {g : Generation α} (hb : b.Reachable)
    (h : b.build = .ok g) : g.Accepted := by
  obtain ⟨⟨hfaults, hunits⟩, rfl⟩ := Blueprint.faults_of_build h
  have hsane := Blueprint.sane_of_reachable hb
  exact ⟨hsane.ascending.acyclic, hsane.orderly hfaults, hunits⟩

variable {g : Generation α} {id o o' : NodeId} {n : Node α} {e : Expression}

theorem dims_of_unit? {u : MeasureUnit α} (h : g.unit? id = some u) : g.dims id = u.dims := by
  rw [dims, h]

namespace Accepted

theorem unit?_eq (h : g.Accepted) (hn : g.node? id = some n) :
    g.unit? id = (Blueprint.nodeUnit (Blueprint.checkUnits g).units n).1 :=
  (Blueprint.covers_checkUnits h.acyclic).unit id
    (List.mem_reverse.2 (h.acyclic.mem_topologicalOrder (contains_of_node? hn))) n hn

variable (h : g.Accepted) (he : g.expression? id = some e)

include h he

theorem infers_iff {u : MeasureUnit α} :
    g.unit? id = some u ↔ Blueprint.Infers (Blueprint.checkUnits g).units e u := by
  rw [h.unit?_eq (expression?_eq.1 he)]
  exact Blueprint.infers_iff

theorem contains (ho : o ∈ e.operands) : g.contains o :=
  h.orderly.closed id o (mem_operands_iff.2 ⟨e, he, ho⟩)

theorem ne_null (ho : o ∈ e.operands) : o ≠ .null := ne_null_of_contains (h.contains he ho)

theorem arity : e.op.arity.accepts e.operands.length :=
  (h.orderly.node (expression?_eq.1 he)).arity e rfl

/-- Operands that have to be of one dimension are, as far as they have a unit. -/
theorem dims_eq (hop : Blueprint.needsSameUnit e.op) (ho : o ∈ e.operands) (ho' : o' ∈ e.operands)
    (hu : (g.unit? o).isSome) (hu' : (g.unit? o').isSome) : g.dims o = g.dims o' := by
  obtain ⟨u, hu⟩ := Option.isSome_iff_exists.1 hu
  obtain ⟨u', hu'⟩ := Option.isSome_iff_exists.1 hu'
  have hn := expression?_eq.1 he
  have hturn := List.mem_reverse.2 (h.acyclic.mem_topologicalOrder (contains_of_node? hn))
  have hnone := (Blueprint.covers_checkUnits h.acyclic).faults h.faults id hturn _ hn
  simp only [Blueprint.nodeUnit, Blueprint.expressionUnit, hop, if_true] at hnone
  rw [dims_of_unit? hu, dims_of_unit? hu']
  exact Blueprint.mismatch_eq_nil hnone (List.mem_filterMap.2 ⟨o, ho, hu⟩)
    (List.mem_filterMap.2 ⟨o', ho', hu'⟩)

/-- A sum is of the dimension of each of its terms. -/
theorem dims_of_keepsDimension (hop : e.op.keepsDimension) (ho : o ∈ e.operands)
    (hu : (g.unit? o).isSome) : (g.unit? id).isSome ∧ g.dims id = g.dims o := by
  have hsame := (Operator.keepsDimension_iff.1 hop).1
  obtain ⟨u, hu'⟩ := Option.isSome_iff_exists.1 hu
  have hmem : u ∈ e.operands.filterMap g.unit? := List.mem_filterMap.2 ⟨o, ho, hu'⟩
  obtain ⟨v, hv⟩ := Option.isSome_iff_exists.1 (List.isSome_head?.2 (List.ne_nil_of_mem hmem))
  obtain ⟨o', ho', hv'⟩ := List.mem_filterMap.1 (List.mem_of_mem_head? hv)
  have hid := (h.infers_iff he).2 (.first hop hv)
  have hsome' : (g.unit? o').isSome := by
    rw [hv']
    rfl
  refine ⟨by rw [hid]; rfl, ?_⟩
  rw [dims_of_unit? hid, ← dims_of_unit? hv']
  exact h.dims_eq he hsame ho' ho hsome' hu

/-- Only operators that say so give a dimension. -/
theorem hasDimension (hu : (g.unit? id).isSome) : e.op.hasDimension := by
  obtain ⟨u, hu⟩ := Option.isSome_iff_exists.1 hu
  rw [Operator.hasDimension]
  cases (h.infers_iff he).1 hu with
  | first hop => simp [hop]
  | product hop => simp [hop]
  | quotient hop => simp [hop]

omit [Scalar α] h he in
theorem dims_of_known [Scalar α] {l : List NodeId} {known : List (MeasureUnit α)}
    (hknown : l.map g.unit? = known.map some) :
    (∀ o ∈ l, (g.unit? o).isSome) ∧ l.map g.dims = known.map MeasureUnit.dims := by
  induction l generalizing known with
  | nil =>
    obtain rfl := List.map_eq_nil_iff.1 hknown.symm
    exact ⟨by simp, rfl⟩
  | cons o l ih =>
    cases known with
    | nil => cases hknown
    | cons u known =>
      obtain ⟨hu, hrest⟩ := List.cons.inj hknown
      obtain ⟨hsome, hdims⟩ := ih hrest
      refine ⟨List.forall_mem_cons.2 ⟨by rw [hu]; rfl, hsome⟩, ?_⟩
      rw [List.map_cons, List.map_cons, dims_of_unit? hu, hdims]

/-- A product that has a unit is of the dimensions of its factors together. -/
theorem dims_of_multiply (hop : e.op = .multiply) (hu : (g.unit? id).isSome) :
    (∀ o ∈ e.operands, (g.unit? o).isSome) ∧ g.dims id = (e.operands.map g.dims).sum := by
  obtain ⟨u, hu⟩ := Option.isSome_iff_exists.1 hu
  cases (h.infers_iff he).1 hu with
  | first hop' => simp [hop, Operator.keepsDimension] at hop'
  | quotient hop' => simp [hop] at hop'
  | product hop' hknown hfold =>
    obtain ⟨hsome, hdims⟩ := dims_of_known hknown
    refine ⟨hsome, ?_⟩
    rw [dims_of_unit? hu, MeasureUnit.dims_of_foldlM hfold, hdims, MeasureUnit.dims_one, zero_add]

theorem dims_of_divide (hop : e.op = .divide) (hu : (g.unit? id).isSome) :
    ∃ a b, e.operands = [a, b] ∧ (g.unit? a).isSome ∧ (g.unit? b).isSome ∧
      g.dims id = g.dims a - g.dims b := by
  obtain ⟨u, hu⟩ := Option.isSome_iff_exists.1 hu
  cases (h.infers_iff he).1 hu with
  | first hop' => simp [hop, Operator.keepsDimension] at hop'
  | product hop' => simp [hop] at hop'
  | quotient hop' hknown hdiv =>
    obtain ⟨a, l, hops, ha, hl⟩ := List.map_eq_cons_iff.1 hknown
    obtain ⟨b, m, rfl, hb, hm⟩ := List.map_eq_cons_iff.1 hl
    obtain rfl := List.map_eq_nil_iff.1 hm
    refine ⟨a, b, hops, ?_, ?_, ?_⟩
    · exact Option.isSome_of_mem ha
    · exact Option.isSome_of_mem hb
    · rw [dims_of_unit? hu, MeasureUnit.dims_of_div hdiv]
      exact congrArg₂ (· - ·) (dims_of_unit? ha).symm (dims_of_unit? hb).symm

end Accepted

/-- The unit of a leaf is that of its numbers. -/
theorem unit_of_initial (units : NodeMap (MeasureUnit α)) {q : Quantities α}
    (hq : Knowledge.initial? n = some (.numeric q)) :
    ∃ u, (Blueprint.nodeUnit units n).1 = some u ∧ q.unit.dims = u.dims := by
  cases n with
  | expression e => cases hq
  | literal s source =>
    cases hq
    exact ⟨q.unit, rfl, rfl⟩
  | constant c =>
    refine ⟨q.unit, ?_, rfl⟩
    have hset : c.toSet.toOption = some (.numeric q) := hq
    simp [Blueprint.nodeUnit, hset, ValueSet.unit?, ValueSet.quantities?]
  | parameter p =>
    have hvalues : ∃ q₀, p.values = .numeric q₀ ∧ q.unit = q₀.unit := by
      simp only [Knowledge.initial?, Option.some.injEq] at hq
      cases hbound : p.within.bind fun bound => (p.values.inter bound).toOption with
      | none =>
        rw [hbound] at hq
        exact ⟨q, hq, rfl⟩
      | some s =>
        rw [hbound] at hq
        obtain ⟨bound, -, hinter⟩ := Option.bind_eq_some_iff.1 hbound
        obtain rfl : s = .numeric q := hq
        exact ValueSet.dimensional_inter.unit _ _ _ (Propagation.toOption_eq_some hinter)
    obtain ⟨q₀, hq₀, hunit⟩ := hvalues
    unfold Parameter.values at hq₀
    unfold Blueprint.nodeUnit
    cases hdomain : p.domain with
    | numbers negative zero integer =>
      obtain ⟨base, hbase⟩ := Domain.exists_values_numbers negative zero integer p.unit
      rw [hdomain, hbase] at hq₀
      cases hq₀
      exact ⟨p.unit, by simp [hdomain, Domain.isNumbers], by rw [hunit]⟩
    | _ =>
      rw [hdomain] at hq₀
      cases hq₀

theorem exists_known {l : List NodeId} (h : ∀ o ∈ l, (g.unit? o).isSome) :
    ∃ known : List (MeasureUnit α), l.map g.unit? = known.map some := by
  induction l with
  | nil => exact ⟨[], rfl⟩
  | cons o l ih =>
    obtain ⟨ho, hl⟩ := List.forall_mem_cons.1 h
    obtain ⟨u, hu⟩ := Option.isSome_iff_exists.1 ho
    obtain ⟨known, hknown⟩ := ih hl
    exact ⟨u :: known, by rw [List.map_cons, List.map_cons, hu, hknown]⟩

theorem isSome_of_product (h : g.Accepted) (hno : g.NoOverflow) (he : g.expression? id = some e)
    (hop : e.op = .multiply) (ho : ∀ o ∈ e.operands, (g.unit? o).isSome ∧ g.Measures o (g.dims o)) :
    (g.unit? id).isSome := by
  obtain ⟨known, hknown⟩ := exists_known fun o ho' => (ho o ho').1
  have hdims := (Accepted.dims_of_known hknown).2
  have hlength := congrArg List.length hknown
  rw [List.length_map, List.length_map] at hlength
  obtain ⟨u, hu⟩ := MeasureUnit.exists_foldlM (l := known) (u := .one) fun k hk => by
    have hfit := hno.product id e g.dims he hop (fun o ho' => (ho o ho').2) (e.operands.take (k + 1))
      (fun hnil => by simp [List.take_eq_nil_iff] at hnil; simp [hnil] at hlength; omega)
      (List.take_prefix _ _)
    rwa [List.map_take, hdims, ← zero_add (List.sum _), ← MeasureUnit.dims_one (α := α)] at hfit
  rw [(h.infers_iff he).2 (.product hop hknown hu)]
  rfl

/-- A node that is built from numbers has a unit. The induction is on how it is built. -/
theorem Quantity.measures (h : g.Accepted) (hno : g.NoOverflow) (hq : g.Quantity id) :
    (g.unit? id).isSome ∧ g.Measures id (g.dims id) := by
  induction hq with
  | @leaf id n q hn hq =>
    obtain ⟨u, hu, hdims⟩ := unit_of_initial (Blueprint.checkUnits g).units hq
    have hid := (h.unit?_eq hn).trans hu
    refine ⟨by rw [hid]; rfl, ?_⟩
    rw [dims_of_unit? hid, ← hdims]
    exact .leaf hn hq
  | @expression id e he hop ho ih =>
    have harity := h.arity he
    simp only [Operator.hasDimension, Bool.or_eq_true, beq_iff_eq] at hop
    rcases hop with (hop | hop) | hop
    · obtain ⟨o, ho'⟩ := Option.isSome_iff_exists.1 (List.isSome_head?.2 (Operator.ne_nil_of_arity harity))
      obtain ⟨hu, hm⟩ := ih o (List.mem_of_mem_head? ho')
      obtain ⟨hid, hdims⟩ := h.dims_of_keepsDimension he hop (List.mem_of_mem_head? ho') hu
      rw [hdims]
      exact ⟨hid, .same he hop ho' hm⟩
    · have hid := isSome_of_product h hno he hop ih
      rw [(h.dims_of_multiply he hop hid).2]
      exact ⟨hid, .product he hop fun o ho => (ih o ho).2⟩
    · rw [hop] at harity
      obtain ⟨a, b, hops⟩ := Arity.eq_pair harity
      obtain ⟨ha, hma⟩ := ih a (by simp [hops])
      obtain ⟨hb, hmb⟩ := ih b (by simp [hops])
      obtain ⟨u, hu⟩ := Option.isSome_iff_exists.1 ha
      obtain ⟨v, hv⟩ := Option.isSome_iff_exists.1 hb
      have hfit := hno.quotient id e a b _ _ he hop hops hma hmb
      rw [dims_of_unit? hu, dims_of_unit? hv] at hfit
      obtain ⟨w, hw⟩ := MeasureUnit.exists_div hfit
      have hid : g.unit? id = some w :=
        (h.infers_iff he).2 (.quotient hop (by rw [hops]; exact congrArg₂ (fun x y => [x, y]) hu hv) hw)
      refine ⟨by rw [hid]; rfl, ?_⟩
      rw [dims_of_unit? hid, MeasureUnit.dims_of_div hw, ← dims_of_unit? hu, ← dims_of_unit? hv]
      exact .quotient he hop hops hma hmb

end Generation

end ParameterSolver
