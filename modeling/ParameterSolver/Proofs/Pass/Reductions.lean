import ParameterSolver.Proofs.Pass.Trees

/-! The trees of the laws of arithmetic, and of those of the relations that only turn their operands
around. In the former constants stand beside the operands. -/

namespace ParameterSolver

open Draft

/-- The operators of arithmetic with a law, and the relations that are another one turned around. -/
def Operator.reduces (op : Operator) : Bool :=
  op ∈ ([.subtract, .divide, .floor, .ceil, .cos, .sqrt, .lessOrEqual, .isSuperset] : List Operator)

namespace Interpretation

variable {α β : Type} [Scalar α]

/-- The meaning of a plain number. -/
def constant (I : Interpretation α β) (x : α) : β := I.leaf (.number x)

/-- The negative, as a law has it. -/
def negative (I : Interpretation α β) (b : β) : β := I.node .multiply [b, I.constant (-1)]

/-- The formula that a law has for an operator. -/
def reduced (I : Interpretation α β) (op : Operator) (bs : List β) : β :=
  match op, bs with
  | .subtract, b :: bs => I.node .add (b :: bs.map I.negative)
  | .divide, a :: b :: _ => I.node .multiply [a, I.node .power [b, I.constant (-1)]]
  | .floor, a :: _ => I.node .round [I.node .add [a, I.constant (-0.5)]]
  | .ceil, a :: _ =>
    I.negative (I.node .round [I.node .add [I.negative a, I.constant (-0.5)]])
  | .cos, a :: _ => I.node .sin [I.node .add [a, I.constant Scalar.halfPi]]
  | .sqrt, a :: _ => I.node .power [a, I.constant 0.5]
  | .lessOrEqual, a :: b :: _ => I.node .greaterOrEqual [b, a]
  | .isSuperset, a :: b :: _ => I.node .isSubset [b, a]
  | _, _ => I.node op bs

end Interpretation

namespace Pass

variable {α β : Type} [Scalar α] {g : Generation α} {I : Interpretation α β} {d : Draft α}
  {id a a' : NodeId} {e : Expression} {bs : List β} {b b' : β} {x : Operand α}
  {deduplicate : Bool} {journal journal' : Journal} {rev : Revision α} {asserted : Bool}

theorem gives_number (y : α) : (number y).Gives g I .plain id d (I.constant y) := ⟨⟨y, rfl⟩, rfl⟩

omit [Scalar α] in
theorem gives_input {V : Seeds α β} (hb : g.Says I a b) (hmem : a ∈ g.operands id) :
    (Operand.input a : Operand α).Gives g I V id d b := ⟨hmem, hb⟩

section Laws

variable (hg : g.Acyclic) (hd : Pending g id d) (hn : g.node? id = some (.expression e))
  (hforeign : e.op.isCanonical = false)

include hg hd

/-- A new expression over a tree and a constant. -/
theorem grows_build_number {op : Operator} (hop : op.isCanonical) (hx : x.Gives g I .plain id d b)
    (y : α) : Grows g id (Sown g I .plain) (build id op [x, number y]) d fun d x =>
      x.Gives g I .plain id d (I.node op [b, I.constant y]) :=
  grows_build hg hd hop (.cons hx (.cons (gives_number y) .nil)) trivial

include hn hforeign

theorem plants_become_number {op : Operator} (hop : op.isCanonical)
    (hx : x.Gives g I .plain id d b) (y : α) :
    Plants g id I .plain (become id op [x, number y]) d (I.node op [b, I.constant y]) :=
  plants_become hg hd hn hforeign hop (.cons hx (.cons (gives_number y) .nil)) trivial

/-- A function of the sum with a constant. -/
theorem plants_shifted {op : Operator} (hop : op.isCanonical) (hx : x.Gives g I .plain id d b) (y : α) :
    Plants g id I .plain (build id .add [x, number y] >>= fun shifted => become id op [shifted]) d
      (I.node op [I.node .add [b, I.constant y]]) := by
  refine (grows_build_number hg hd rfl hx y).plants hg hd fun shifted d₁ hd₁ _ hshifted => ?_
  exact plants_become hg hd₁ hn hforeign hop (.cons hshifted .nil) trivial

/-- A relation that is another one with its operands turned around. -/
theorem plants_turned {op : Operator} (hop : op.isCanonical) (hb : g.Says I a b) (hb' : g.Says I a' b')
    (hmem : ∀ o ∈ [a, a'], o ∈ g.operands id) :
    Plants g id I .plain (become id op [.input a', .input a]) d (I.node op [b', b]) :=
  plants_become hg hd hn hforeign hop
    (.cons (gives_input hb' (hmem a' (by simp))) (.cons (gives_input hb (hmem a (by simp))) .nil)) trivial

omit hn hforeign

theorem plants_ceil (hn : g.node? id = some (.expression ⟨.ceil, [a], asserted⟩)) (hb : g.Says I a b)
    (hmem : a ∈ g.operands id) :
    Plants g id I .plain (applyLaw id ⟨.ceil, [a], asserted⟩) d (I.reduced .ceil [b]) := by
  refine (grows_build_number hg hd rfl (gives_input hb hmem) _).plants hg hd
    fun negated d₁ hd₁ _ hnegated => ?_
  refine (grows_build_number hg hd₁ rfl hnegated _).plants hg hd₁ fun shifted d₂ hd₂ _ hshifted => ?_
  refine (grows_build hg hd₂ rfl (.cons hshifted .nil) trivial).plants hg hd₂
    fun rounded d₃ hd₃ _ hrounded => ?_
  exact plants_become_number hg hd₃ hn rfl rfl hrounded _

theorem plants_divide (hn : g.node? id = some (.expression ⟨.divide, [a, a'], asserted⟩))
    (hb : g.Says I a b) (hb' : g.Says I a' b') (hmem : ∀ o ∈ [a, a'], o ∈ g.operands id) :
    Plants g id I .plain (applyLaw id ⟨.divide, [a, a'], asserted⟩) d (I.reduced .divide [b, b']) := by
  refine (grows_build_number hg hd rfl (gives_input hb' (hmem a' (by simp))) _).plants hg hd
    fun inverse d₁ hd₁ _ hinverse => ?_
  exact plants_become hg hd₁ hn rfl rfl
    (.cons (gives_input hb (hmem a (by simp))) (.cons hinverse .nil)) trivial

theorem plants_subtract {rest : List NodeId}
    (hn : g.node? id = some (.expression ⟨.subtract, a :: rest, asserted⟩)) (hb : g.Says I a b)
    (hrest : List.Forall₂ (g.Says I) rest bs) (hmem : ∀ o ∈ a :: rest, o ∈ g.operands id) :
    Plants g id I .plain (applyLaw id ⟨.subtract, a :: rest, asserted⟩) d
      (I.reduced .subtract (b :: bs)) := by
  refine (grows_each (F := I.negative) hg hd hrest fun o ho c hc d hd =>
    grows_build_number hg hd rfl (gives_input hc (hmem o (.tail _ ho))) _).plants hg hd
      fun negated d₁ hd₁ _ hnegated => ?_
  exact plants_become hg hd₁ hn rfl rfl (.cons (gives_input hb (hmem a (by simp))) hnegated) trivial

end Laws

theorem plants_reduced (hg : g.Sound) (hd : Pending g id d) (hn : g.node? id = some (.expression e))
    (hop : e.op.reduces) (hops : List.Forall₂ (g.Says I) e.operands bs) :
    Plants g id I .plain (applyLaw id e) d (I.reduced e.op bs) := by
  have hac := hg.acyclic
  have hmem : ∀ o ∈ e.operands, o ∈ g.operands id := fun o ho => by
    rwa [Generation.operands_of_node? hn]
  obtain ⟨op, operands, asserted⟩ := e
  have harity : op.arity.accepts operands.length := (hg.node hn).arity _ rfl
  cases op
  case subtract =>
    obtain ⟨a, _, rest, rfl⟩ := Arity.eq_cons_cons harity
    obtain ⟨b, bs, hb, hrest, rfl⟩ := List.forall₂_cons_left_iff.1 hops
    exact plants_subtract hac hd hn hb hrest hmem
  case divide =>
    obtain ⟨a, a', rfl⟩ := Arity.eq_pair harity
    obtain ⟨b, b', rfl, hb, hb'⟩ := exists_pair hops
    exact plants_divide hac hd hn hb hb' hmem
  case lessOrEqual | isSuperset =>
    obtain ⟨a, a', rfl⟩ := Arity.eq_pair harity
    obtain ⟨b, b', rfl, hb, hb'⟩ := exists_pair hops
    exact plants_turned hac hd hn rfl rfl hb hb' hmem
  case ceil =>
    obtain ⟨a, rfl⟩ := Arity.eq_singleton harity
    obtain ⟨b, rfl, hb⟩ := exists_single hops
    exact plants_ceil hac hd hn hb (hmem a (by simp))
  case floor | cos =>
    obtain ⟨a, rfl⟩ := Arity.eq_singleton harity
    obtain ⟨b, rfl, hb⟩ := exists_single hops
    exact plants_shifted hac hd hn rfl rfl (gives_input hb (hmem a (by simp))) _
  case sqrt =>
    obtain ⟨a, rfl⟩ := Arity.eq_singleton harity
    obtain ⟨b, rfl, hb⟩ := exists_single hops
    exact plants_become_number hac hd hn rfl rfl (gives_input hb (hmem a (by simp))) _
  all_goals cases hop

/-- The pass puts the root of the tree in the place of the expression, whatever else the graph holds. -/
theorem exists_means_reduced (hg : g.Sound) (hn : g.node? id = some (.expression e))
    (hop : e.op.reduces) (hops : List.Forall₂ (g.Says I) e.operands bs)
    (h : (operators : Pass α).apply deduplicate journal g = .ok (rev, journal')) :
    ∃ j, rev.mapping.get? id = some j ∧ rev.generation.Means I j (I.reduced e.op bs) := by
  have hlaw : e.op.isCanonical = false ∧
      e.op ≠ .cardinality ∧ e.op ≠ .differentiate ∧ e.op ≠ .integrate := by
    revert hop
    cases e.op <;> decide
  exact exists_means_of_plants hg ⟨hn, hlaw.1, hlaw.2, hops⟩
    (fun d hd => plants_reduced hg hd hn hop hops) h

end Pass

end ParameterSolver
