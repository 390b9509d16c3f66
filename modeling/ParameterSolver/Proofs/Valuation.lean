import ParameterSolver.Propagation.Sweep
import ParameterSolver.Proofs.Exact.ValueSet
import ParameterSolver.Proofs.Graph.Linked

/-! What a graph means. A valuation gives every node one value; it fits a graph when every leaf has
a value that it can have and every expression has the value of its operator. -/

namespace ParameterSolver

open Exact

/-- One value for each node. That of a union is not looked at: a union stands for the collection of
its operands. -/
abbrev Valuation := NodeId → Value ℚ

namespace Operator

/-- The number an operator makes of numbers, where it is defined. -/
def arithmetic? : Operator → List ℚ → Option ℚ
  | .add, l => some l.sum
  | .subtract, a :: l => some (a - l.sum)
  | .multiply, l => some l.prod
  | .divide, [a, b] => if b = 0 then none else some (a / b)
  | .power, [a, n] => if n.den = 1 ∧ (a ≠ 0 ∨ 0 ≤ n) then some (a ^ n.num) else none
  | .round, [a] => some (Interval.nearest a)
  | .floor, [a] => some ⌊a⌋
  | .ceil, [a] => some ⌈a⌉
  | .abs, [a] => some |a|
  | .min, l => l.min?
  | .max, l => l.max?
  | _, _ => none

/-- The truth value an operator makes of truth values. -/
def logical? : Operator → List Bool → Option Bool
  | .or, l => some (l.any id)
  | .and, l => some (l.all id)
  | .not, [a] => some !a
  | .implies, a :: l => some (!a || l.any id)
  | .xor, l => some (l.any id && !l.all id)
  | _, _ => none

end Operator

/-- The operands of which one value is read. The others are read as sets or member by member. -/
def Expression.valueOperands (e : Expression) : List NodeId :=
  match e.op, e.operands with
  | .isSubset, [a, _] => [a]
  | .isSuperset, [_, b] => [b]
  | .greaterOrEqual, _ | .lessOrEqual, _ | .greaterThan, _ | .lessThan, _ => []
  | _, operands => operands

def Generation.isUnion (g : Generation Exact) (id : NodeId) : Prop :=
  ∃ e, g.expression? id = some e ∧ e.op = .union

/-- The set of a literal or of a constant. -/
def Node.given? : Node Exact → Option (ValueSet Exact)
  | .literal s _ => some s
  | .constant c => c.toSet.toOption
  | _ => none

/-- The value is the truth value of `p`. -/
def Value.Says (x : Value ℚ) (p : Prop) : Prop := ∃ b : Bool, x = .boolean b ∧ (b = true ↔ p)

def Generation.given? (g : Generation Exact) (id : NodeId) : Option (ValueSet Exact) :=
  (g.node? id).bind Node.given?

/-- What can be read of an operand: its value, the set it stands for, and the values it stands for
one by one. -/
structure Reading where
  value : Value ℚ
  extent : Set (Value ℚ)
  spread : Set (Value ℚ)

/-- The comparison of the numbers of `a` with those of `b`; each has to stand it with each. -/
def Compares (R : ℚ → ℚ → Prop) (a b : Set (Value ℚ)) (x : Value ℚ) : Prop :=
  (∀ y ∈ a, ∃ q, y = .number q) ∧ (∀ y ∈ b, ∃ q, y = .number q) ∧
    x.Says (∀ q r, .number q ∈ a → .number r ∈ b → R q r)

/-- A comparison read from the other side. -/
theorem Compares.flip {R : ℚ → ℚ → Prop} {a b : Set (Value ℚ)} {x : Value ℚ}
    (h : Compares R a b x) : Compares (fun q r => R r q) b a x := by
  obtain ⟨ha, hb, c, hx, hc⟩ := h
  exact ⟨hb, ha, c, hx, hc.trans ⟨fun h q r hq hr => h r q hr hq, fun h q r hq hr => h r q hr hq⟩⟩

/-- The value of an operator that combines numbers or truth values. -/
def Combines (op : Operator) (xs : List (Value ℚ)) (x : Value ℚ) : Prop :=
  (∃ qs q, xs = qs.map .number ∧ op.arithmetic? qs = some q ∧ x = .number q) ∨
    ∃ bs b, xs = bs.map .boolean ∧ op.logical? bs = some b ∧ x = .boolean b

/-- The value of an operator. -/
def Operator.Denotes (op : Operator) (rs : List Reading) (x : Value ℚ) : Prop :=
  match op, rs with
  | .union, rs => rs ≠ []
  | .is, [a, b] => x.Says (a.value = b.value)
  | .isSubset, [a, b] => x.Says (a.value ∈ b.extent)
  | .isSuperset, [a, b] => x.Says (b.value ∈ a.extent)
  | .greaterOrEqual, [a, b] => Compares (· ≥ ·) a.spread b.spread x
  | .lessOrEqual, [a, b] => Compares (· ≤ ·) a.spread b.spread x
  | .greaterThan, [a, b] => Compares (· > ·) a.spread b.spread x
  | .lessThan, [a, b] => Compares (· < ·) a.spread b.spread x
  | op, rs => Combines op (rs.map (·.value)) x

/-- The value is one that the node can have. A given set without elements has no value. -/
def Node.Allows (n : Node Exact) (read : NodeId → Reading) (x : Value ℚ) : Prop :=
  match n with
  | .parameter p => x ∈ p.values ∧ ∀ s ∈ p.within, x ∈ s
  | .expression e => e.op.Denotes (e.operands.map read) x
  | n => ∀ s, n.given? = some s → (∃ y, y ∈ s) → x ∈ s

namespace Operator

variable {op : Operator} {rs : List Reading} {x : Value ℚ}

theorem denotes_iff_combines (h : op.has .arithmetic ∨ op.has .logic) :
    op.Denotes rs x ↔ Combines op (rs.map (·.value)) x := by
  cases op <;> simp_all [has, having, logical] <;> rfl

theorem Denotes.arithmetic (hd : op.Denotes rs x) (h : op.has .arithmetic) :
    ∃ qs q, rs.map (·.value) = qs.map .number ∧ op.arithmetic? qs = some q ∧ x = .number q := by
  refine ((denotes_iff_combines (Or.inl h)).1 hd).resolve_right ?_
  rintro ⟨bs, b, -, hb, -⟩
  cases op <;> simp_all [has, having, logical?]

theorem Denotes.logic (hd : op.Denotes rs x) (h : op.has .logic) :
    ∃ bs b, rs.map (·.value) = bs.map .boolean ∧ op.logical? bs = some b ∧ x = .boolean b := by
  refine ((denotes_iff_combines (Or.inr h)).1 hd).resolve_left ?_
  rintro ⟨qs, q, -, hq, -⟩
  cases op <;> simp_all [has, having, logical, arithmetic?]

theorem not_combines_of_relation {xs : List (Value ℚ)} (h : op.has .relation) :
    ¬ Combines op xs x := by
  rintro (⟨qs, q, -, hq, -⟩ | ⟨bs, b, -, hb, -⟩)
  · cases op <;> simp_all [has, having, relational, arithmetic?]
  · cases op <;> simp_all [has, having, relational, logical?]

/-- A relation has two operands. -/
theorem Denotes.relation (hd : op.Denotes rs x) (h : op.has .relation) : ∃ a b, rs = [a, b] := by
  by_cases hrs : ∃ a b, rs = [a, b]
  · exact hrs
  · refine absurd (?_ : Combines op (rs.map (·.value)) x) (not_combines_of_relation h)
    cases op <;> simp_all [Denotes, has, having, relational]

/-- A predicate has a truth value. -/
theorem Denotes.boolean (hd : op.Denotes rs x) (h : op.isPredicate) : ∃ b, x = .boolean b := by
  obtain hl | hr : op.has .logic ∨ op.has .relation :=
    (List.mem_append.1 (of_decide_eq_true h)).imp decide_eq_true decide_eq_true
  · obtain ⟨_, b, -, -, hb⟩ := hd.logic hl
    exact ⟨b, hb⟩
  · obtain ⟨a, b, rfl⟩ := hd.relation hr
    cases op <;> simp [has, having, relational] at hr
    case is | isSubset | isSuperset =>
      obtain ⟨c, hc, -⟩ := hd
      exact ⟨c, hc⟩
    all_goals
      obtain ⟨-, -, c, hc, -⟩ := hd
      exact ⟨c, hc⟩

end Operator

namespace Valuation

section

variable (g : Generation Exact) (v : Valuation)

/-- The values that a node stands for where a set is read: those of a given set, of all operands of
a union, or its own. -/
def extent (id : NodeId) : Set (Value ℚ) :=
  { x | ∃ m ∈ Knowledge.members g id,
    match g.given? m with
    | some s => x ∈ s
    | none => x = v m }

/-- The values that a node stands for one by one: its own, or those of the operands of a union. -/
def spread (id : NodeId) : Set (Value ℚ) := { x | ∃ m ∈ Knowledge.members g id, x = v m }

def read (id : NodeId) : Reading := ⟨v id, extent g v id, spread g v id⟩

/-- The value of an expression. -/
def Denotes (e : Expression) (x : Value ℚ) : Prop := e.op.Denotes (e.operands.map (read g v)) x

def Fits : Prop := ∀ id n, g.node? id = some n → n.Allows (read g v) (v id)

/-- What is asserted is true. -/
def Satisfies : Prop := ∀ id e, g.expression? id = some e → e.asserted → v id = .boolean true

end

variable {g : Generation Exact} {v : Valuation} {e : Expression} {x : Value ℚ} {id : NodeId}

theorem members_of_isUnion (he : g.expression? id = some e) (h : e.op = .union) :
    Knowledge.members g id = e.operands := by
  simp [Knowledge.members, he, h]

theorem members_of_not_isUnion (h : ¬ g.isUnion id) : Knowledge.members g id = [id] := by
  unfold Knowledge.members
  cases he : g.expression? id with
  | none => rfl
  | some e => exact if_neg fun hu => h ⟨e, he, hu⟩

theorem mem_spread {m : NodeId} (hm : m ∈ Knowledge.members g id) : v m ∈ spread g v id :=
  ⟨m, hm, rfl⟩

theorem map_value_read (l : List NodeId) :
    (l.map (read g v)).map (·.value) = l.map v := by
  simp [read, Function.comp_def]

/-- Every given node has one of its values. -/
def Chooses (g : Generation Exact) (v : Valuation) : Prop := ∀ id s, g.given? id = some s → v id ∈ s

theorem Chooses.mem_extent {m : NodeId} (h : Chooses g v) (hm : m ∈ Knowledge.members g id) :
    v m ∈ extent g v id := by
  refine ⟨m, hm, ?_⟩
  cases hs : g.given? m with
  | none => rfl
  | some s => exact h m s hs

theorem Chooses.mem_extent_self (h : Chooses g v) (hu : ¬ g.isUnion id) : v id ∈ extent g v id :=
  h.mem_extent (by simp [members_of_not_isUnion hu])

theorem Chooses.spread_subset (h : Chooses g v) : ∀ y ∈ spread g v id, y ∈ extent g v id := by
  rintro y ⟨m, hm, rfl⟩
  exact h.mem_extent hm

theorem Denotes.arithmetic (hd : Denotes g v e x) (h : e.op.has .arithmetic) :
    ∃ qs q, e.operands.map v = qs.map .number ∧ e.op.arithmetic? qs = some q ∧ x = .number q := by
  rw [← map_value_read (g := g)]
  exact Operator.Denotes.arithmetic hd h

theorem Denotes.logic (hd : Denotes g v e x) (h : e.op.has .logic) :
    ∃ bs b, e.operands.map v = bs.map .boolean ∧ e.op.logical? bs = some b ∧ x = .boolean b := by
  rw [← map_value_read (g := g)]
  exact Operator.Denotes.logic hd h

theorem Denotes.relation (hd : Denotes g v e x) (h : e.op.has .relation) :
    ∃ a b, e.operands = [a, b] := by
  obtain ⟨r, r', hr⟩ := Operator.Denotes.relation hd h
  obtain ⟨a, l, he, -, hl⟩ := List.map_eq_cons_iff.1 hr
  obtain ⟨b, l, rfl, -, hl⟩ := List.map_eq_cons_iff.1 hl
  exact ⟨a, b, by rw [he, List.map_eq_nil_iff.1 hl]⟩

end Valuation

end ParameterSolver
