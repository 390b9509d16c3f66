import ParameterSolver.Proofs.Draft.Unknowns
import ParameterSolver.Proofs.Pass.Gentle
import ParameterSolver.Proofs.Pass.TotalLaws

/-! The pass over the operators, taken apart into moves. What is put into the place of an expression
is made of what the expression was made of, and only an expression that has no law, or over one that
is gone, is erased. -/

namespace ParameterSolver

open Draft

variable {α β γ : Type} [Scalar α] {g : Generation α} {d d' : Draft α} {id : NodeId}
  {e : Expression}

namespace Draft

/-- The output node is made of the output nodes of some input nodes, through nodes that stand for
nothing. -/
inductive Stems (d : Draft α) (l : List NodeId) : NodeId → Prop
  | image {o j : NodeId} (ho : o ∈ l) (hj : d.mapping.get? o = some j) : Stems d l j
  | made {c : NodeId} {n : Node α} (hfree : d.Unbound c) (hn : d.output.node? c = some n)
    (hops : ∀ o ∈ n.operands, Stems d l o) : Stems d l c

/-- The output node of the input node is an expression, if there is one. -/
def Expresses (d : Draft α) (id : NodeId) : Prop :=
  ∀ j, d.mapping.get? id = some j → ∃ e, d.output.node? j = some (.expression e)

omit [Scalar α] in
theorem Stems.retains {l : List NodeId} {j : NodeId} (h : d.Stems l j) (hr : Retains d d') :
    d'.Stems l j := by
  induction h with
  | image ho hj => exact .image ho (hr.mapping _ _ hj)
  | made hfree hn _ ih =>
    exact .made (hr.unbound _ (Generation.contains_of_node? hn) hfree) (hr.node? _ _ hn) ih

end Draft

/-- The operand is a plain number or made of some input nodes. -/
def Operand.From (d : Draft α) (l : List NodeId) : Operand α → Prop
  | .input o => o ∈ l
  | .output c => d.Stems l c
  | .literal s => ∃ x, s = .number x

theorem Operand.From.retains {l : List NodeId} {x : Operand α} (h : x.From d l)
    (hr : Retains d d') : x.From d' l := by
  cases x with
  | output c => exact Stems.retains h hr
  | _ => exact h

theorem Operand.From.stems {l : List NodeId} {x : Operand α} {j : NodeId} (h : x.From d l)
    (hj : x.Names d j) : d.Stems l j := by
  cases x with
  | input o => exact .image h hj
  | output c => exact hj.1 ▸ h
  | literal s => exact .made hj.2 hj.1 (by simp [Node.operands])

theorem stems_of_names {l : List NodeId} {xs : List (Operand α)} {js : List NodeId}
    (hxs : ∀ x ∈ xs, x.From d l) (h : List.Forall₂ (Operand.Names d) xs js) :
    ∀ o ∈ js, d.Stems l o := by
  induction h with
  | nil => simp
  | cons hj _ ih =>
    refine List.forall_mem_cons.2 ⟨(hxs _ (by simp)).stems hj, ih fun x hx => hxs x (.tail _ hx)⟩

/-- The node has an operator without a law. -/
def Generation.Unsupported (g : Generation α) (id : NodeId) : Prop :=
  ∃ e, g.node? id = some (.expression e) ∧
    (e.op = .cardinality ∨ e.op = .differentiate ∨ e.op = .integrate)

/-- The operator is in the basis and can stand in for the other one, also in an assertion. -/
def Operator.supplants (op op' : Operator) : Bool :=
  op.isCanonical && (!op'.isPredicate || op.isPredicate)

theorem Operator.supplants_iff {op op' : Operator} :
    op.supplants op' ↔ op.isCanonical ∧ (op'.isPredicate → op.isPredicate) := by
  simp [supplants, imp_iff_not_or]

/-- What can be created for an expression outside the basis. -/
def Sprout (n : Node α) : Prop :=
  (∃ x, n = .literal (.number x) none) ∨ n = .parameter .real ∨
    ∃ e, n = .expression e ∧ e.op.isCanonical ∧ (e.asserted → e.op.isPredicate)

/-- What the laws do to the expressions in `D`. -/
def Act.Lawful (g : Generation α) (D : NodeId → Prop) (d : Draft α) : Act α → Prop
  | .note _ | .copy _ | .drop _ | .credit .. => True
  | .create _ n => Sprout n
  | .write id n => D id ∧ d.Expresses id ∧ ∃ e op js, g.node? id = some (.expression e) ∧
      e.op.isCanonical = false ∧ op.supplants e.op ∧ n = .expression ⟨op, js, e.asserted⟩ ∧
      ∀ o ∈ js, d.Stems (g.operands id) o
  | .erase id => D id ∧ d.Expresses id ∧
      (g.Unsupported id ∨ ∃ o ∈ g.operands id, d.isRemoved o)
  | .redirect id target => D id ∧ (∃ e, g.node? id = some (.expression e) ∧
      e.op.isCanonical = false ∧ e.op.isPredicate = false) ∧
      d.output.node? target = some (.parameter .real)

theorem Act.Lawful.mono {D D' : NodeId → Prop} {a : Act α} (h : a.Lawful g D d)
    (hD : ∀ i, D i → D' i) : a.Lawful g D' d := by
  cases a with
  | write i n => exact ⟨hD i h.1, h.2⟩
  | erase i => exact ⟨hD i h.1, h.2⟩
  | redirect i t => exact ⟨hD i h.1, h.2⟩
  | _ => exact h

/-- What can be created for such an expression without making an unknown of it. -/
def Plant (n : Node α) : Prop := Sprout n ∧ ¬ n.IsUnknown

theorem plant_number (x : α) : Plant (.literal (.number x) none : Node α) :=
  ⟨Or.inl ⟨x, rfl⟩, fun h => h⟩

theorem plant_expression {e : Expression} (hop : e.op.isCanonical)
    (hasserted : e.asserted → e.op.isPredicate) : Plant (.expression e : Node α) :=
  ⟨Or.inr (Or.inr ⟨e, rfl, hop, hasserted⟩), Node.not_isUnknown_of_canonical hop⟩

theorem Act.Builds.lawful {C : Draft α → Node α → Prop} {D : NodeId → Prop} {a : Act α}
    (h : a.Builds g id C d) (hC : ∀ n, C d n → Sprout n) : a.Lawful g D d := by
  cases a with
  | create i n => exact hC n h.2
  | write i n | erase i | redirect i t => exact h.elim
  | _ => trivial

theorem Act.Builds.roots {a : Act α} (h : a.Builds g id (fun _ => Plant) d) : a.Roots g := by
  cases a with
  | create i n => exact h.2.2
  | write i n | erase i | redirect i t => exact h.elim
  | _ => trivial

theorem Moves.lawful {D : NodeId → Prop} (h : Moves (fun d a => a.Builds g id (fun _ => Plant) d) d d') :
    Moves (Act.Lawful g D) d d' :=
  h.mono fun _ _ ha => ha.lawful fun _ hn => hn.1

namespace Pass

/-- The expression is still to be brought into the basis. -/
structure Pending (g : Generation α) (id : NodeId) (d : Draft α) : Prop where
  coherent : d.Coherent
  input : d.input = g
  there : d.isRemoved id = false
  expresses : d.Expresses id

omit [Scalar α] in
theorem Pending.builds {C : Draft α → Node α → Prop} (h : Pending g id d) (hg : g.Acyclic)
    (hmoves : Moves (fun d a => a.Builds g id C d) d d') : Pending g id d' := by
  have hleaves : Leaves id d d' := hmoves.leaves fun _ _ ha => ⟨ha.adds, ha.ne hg⟩
  refine ⟨hmoves.coherent h.coherent, hmoves.input.trans h.input, hleaves.removed.trans h.there,
    fun j hj => ?_⟩
  obtain ⟨e, he⟩ := h.expresses j (hleaves.mapping ▸ hj)
  exact ⟨e, (hmoves.retains fun _ _ ha => ha.adds).node? j _ he⟩

theorem Pending.rooted {S : Set NodeId} (h : Pending g id d)
    (hmoves : Moves (fun d a => a.Builds g id (fun _ => Plant) d) d d') (hs : Rooted S d) :
    Rooted S d' := hmoves.rooted (fun _ _ ha => h.input ▸ ha.roots) h.coherent hs

/-- The law only builds for the expression at `id`, creates nothing but what `C` holds of, and gives
something of which `R` holds unless one of its operands is gone. -/
def Grows (g : Generation α) (id : NodeId) (C : Draft α → Node α → Prop) (m : Law α β) (d : Draft α)
    (R : Draft α → β → Prop) : Prop :=
  ∀ r d', LawRuns m d r d' → Moves (fun d a => a.Builds g id C d) d d' ∧
    (∀ x, r = some x → R d' x) ∧ (r = none → ∃ o ∈ g.operands id, d'.isRemoved o)

/-- The law creates nothing but what may be created for an expression outside the basis, and no
unknown. -/
abbrev Prepares (g : Generation α) (id : NodeId) (m : Law α β) (d : Draft α)
    (R : Draft α → β → Prop) : Prop := Grows g id (fun _ => Plant) m d R

/-- The law is done with the expression at `id`, unless one of its operands is gone. -/
def Completes (g : Generation α) (id : NodeId) (m : Law α Unit) (d : Draft α) : Prop :=
  ∀ r d', LawRuns m d r d' → Moves (Act.Lawful g (· = id)) d d' ∧ (Rooted ∅ d → Rooted ∅ d') ∧
    (r = none → Pending g id d' ∧ ∃ o ∈ g.operands id, d'.isRemoved o)

variable {R : Draft α → β → Prop} {C : Draft α → Node α → Prop}

omit [Scalar α] in
theorem Grows.pure {x : β} (h : R d x) : Grows g id C (Pure.pure x) d R := by
  intro r d' hr
  obtain ⟨rfl, rfl⟩ := lawRuns_pure.1 hr
  exact ⟨.refl _, fun y hy => by cases hy; exact h, by simp⟩

omit [Scalar α] in
theorem Grows.mono {m : Law α β} {R' : Draft α → β → Prop} (h : Grows g id C m d R)
    (hR : ∀ d x, R d x → R' d x) : Grows g id C m d R' := by
  intro r d' hr
  obtain ⟨hmoves, hsome, hnone⟩ := h r d' hr
  exact ⟨hmoves, fun x hx => hR d' x (hsome x hx), hnone⟩

omit [Scalar α] in
theorem Grows.bind {m : Law α β} {f : β → Law α γ} {R' : Draft α → γ → Prop} (hg : g.Acyclic)
    (hd : Pending g id d) (h : Grows g id C m d R)
    (hf : ∀ x d₁, Pending g id d₁ → Retains d d₁ → R d₁ x → Grows g id C (f x) d₁ R') :
    Grows g id C (m >>= f) d R' := by
  intro r d' hr
  rcases lawRuns_bind.1 hr with ⟨hm, rfl⟩ | ⟨x, d₁, hm, hr₁⟩
  · obtain ⟨hmoves, -, hnone⟩ := h _ _ hm
    exact ⟨hmoves, by simp, fun _ => hnone rfl⟩
  · obtain ⟨hmoves, hsome, -⟩ := h _ _ hm
    obtain ⟨hmoves', hrest⟩ := hf x d₁ (hd.builds hg hmoves)
      (hmoves.retains fun _ _ ha => ha.adds) (hsome x rfl) r d' hr₁
    exact ⟨hmoves.trans hmoves', hrest⟩

omit [Scalar α] in
/-- One thing after the other for each of some nodes. What is known of a thing has to outlast the
building of the next ones. -/
theorem Grows.mapM {f : γ → Law α β} {l : List γ} {S : γ → Draft α → β → Prop} (hg : g.Acyclic)
    (hS : ∀ o x d d', Retains d d' → S o d x → S o d' x)
    (hf : ∀ o ∈ l, ∀ d, Pending g id d → Grows g id C (f o) d (S o)) (hd : Pending g id d) :
    Grows g id C (l.mapM f) d fun d xs => List.Forall₂ (fun o x => S o d x) l xs := by
  induction l generalizing d with
  | nil => exact .pure .nil
  | cons o l ih =>
    rw [List.mapM_cons]
    refine (hf o (by simp) d hd).bind hg hd fun x d₁ hd₁ _ hx => ?_
    refine (ih (fun o ho => hf o (.tail _ ho)) hd₁).bind hg hd₁ fun xs d₂ _ hr₂ hxs => ?_
    exact .pure (.cons (hS o x _ _ hr₂ hx) hxs)

theorem Grows.completes {m : Law α β} {f : β → Law α Unit} (hg : g.Acyclic)
    (hd : Pending g id d) (h : Prepares g id m d R)
    (hf : ∀ x d₁, Pending g id d₁ → Retains d d₁ → R d₁ x → Completes g id (f x) d₁) :
    Completes g id (m >>= f) d := by
  intro r d' hr
  rcases lawRuns_bind.1 hr with ⟨hm, rfl⟩ | ⟨x, d₁, hm, hr₁⟩
  · obtain ⟨hmoves, -, hnone⟩ := h _ _ hm
    exact ⟨hmoves.lawful, hd.rooted hmoves, fun _ => ⟨hd.builds hg hmoves, hnone rfl⟩⟩
  · obtain ⟨hmoves, hsome, -⟩ := h _ _ hm
    obtain ⟨hmoves', hroots, hrest⟩ := hf x d₁ (hd.builds hg hmoves)
      (hmoves.retains fun _ _ ha => ha.adds) (hsome x rfl) r d' hr₁
    exact ⟨hmoves.lawful.trans hmoves', fun hs => hroots (hd.rooted hmoves hs), hrest⟩

theorem Completes.get_bind {f : Draft α → Law α Unit} (h : Completes g id (f d) d) :
    Completes g id (get >>= f) d := fun r d' hr => h r d' (lawRuns_get_bind.1 hr)

theorem prepares_mapM {f : NodeId → Law α (Operand α)} {l : List NodeId} (hg : g.Acyclic)
    (hf : ∀ o ∈ l, ∀ d, Pending g id d →
      Prepares g id (f o) d fun d x => x.From d (g.operands id)) (hd : Pending g id d) :
    Prepares g id (l.mapM f) d fun d xs => ∀ x ∈ xs, x.From d (g.operands id) := by
  refine (Grows.mapM (S := fun _ d x => x.From d (g.operands id)) hg
    (fun _ _ _ _ h hx => hx.retains h) hf hd).mono fun d xs hxs x hx => ?_
  obtain ⟨i, hi, rfl⟩ := List.mem_iff_getElem.1 hx
  exact hxs.get (hxs.length_eq ▸ hi) hi

theorem prepares_log (l : Level) (source message : String) :
    Prepares g id (.lift (Draft.log l source message)) d fun _ _ => True := by
  intro r d' hr
  obtain ⟨_, hlog, rfl⟩ := lawRuns_lift.1 hr
  unfold Draft.log at hlog
  rw [runs_modify.1 hlog]
  exact ⟨.single (a := .note id) rfl (.note (noted_journal d _)), fun _ _ => trivial, by simp⟩

section Laws

variable {op : Operator} {l : List (Operand α)} (hg : g.Acyclic) (hd : Pending g id d)

include hg hd

theorem prepares_create {asserted : Bool} (hop : op.isCanonical)
    (hasserted : asserted = true → op.isPredicate) (hl : ∀ o, .input o ∈ l → o ∈ g.operands id)
    (hlit : ∀ s, .literal s ∈ l → ∃ x, s = .number x) :
    Prepares g id (OptionT.mk (Draft.createExpression op l asserted [id])) d fun d c =>
      d.Made id op l asserted c := by
  intro r d' hr
  obtain ⟨hmoves, hmade, hnone⟩ := moves_createExpression (C := fun _ => Plant) hg hd.coherent
    hd.input (fun o ho => .single (hl o ho))
    (fun s hs _ => by
      obtain ⟨x, rfl⟩ := hlit s hs
      exact plant_number x)
    (fun _ js _ _ => plant_expression hop hasserted) hr
  refine ⟨hmoves, hmade, fun h => ?_⟩
  obtain ⟨o, ho, hgone⟩ := hnone h
  exact ⟨o, hl o ho, hgone⟩

theorem prepares_build (hop : op.isCanonical) (hl : ∀ x ∈ l, x.From d (g.operands id)) :
    Prepares g id (build id op l) d fun d x => x.From d (g.operands id) := by
  intro r d' hr
  unfold build at hr
  rw [LawRuns, OptionT.run_map] at hr
  obtain ⟨r', hr', rfl⟩ := runs_map.1 hr
  obtain ⟨hmoves, hmade, hnone⟩ := prepares_create hg hd hop (by simp)
    (fun o ho => hl _ ho) (fun s hs => hl _ hs) r' d' hr'
  refine ⟨hmoves, fun x hx => ?_, fun h => hnone (Option.map_eq_none_iff.1 h)⟩
  obtain ⟨c, rfl, rfl⟩ := Option.map_eq_some_iff.1 hx
  obtain ⟨hfree, ⟨js, hnode, hjs⟩, -⟩ := hmade c rfl
  have hret := hmoves.retains fun _ _ ha => ha.adds
  exact .made hfree hnode (stems_of_names (fun y hy => (hl y hy).retains hret) hjs)

theorem completes_become (hn : g.node? id = some (.expression e))
    (hforeign : e.op.isCanonical = false) (hop : op.supplants e.op)
    (hl : ∀ x ∈ l, x.From d (g.operands id)) : Completes g id (become id op l) d := by
  intro r d' hr
  obtain ⟨r', hr', rfl⟩ := lawRuns_discard_lift.1 hr
  rcases moves_editExpression (C := fun _ => Plant) { op := some op, operands := some l } hg
    hd.coherent hd.input hn hd.there rfl rfl rfl (fun o ho => .single (hl _ ho))
    (fun s hs _ => by
      obtain ⟨x, rfl⟩ := hl _ hs
      exact plant_number x) hr' with ⟨⟨hidle, -⟩, -⟩ | ⟨-, d₁, hmoves, -, hend⟩
  · change op = e.op at hidle
    rw [← hidle, (Operator.supplants_iff.1 hop).1] at hforeign
    cases hforeign
  have hd₁ := hd.builds hg hmoves
  have hret := hmoves.retains fun _ _ ha => ha.adds
  -- the last move is about the expression, which has an operator in the basis if it is still there
  obtain ⟨a, ha, hroots, hmove⟩ : ∃ a, Act.Lawful g (· = id) d₁ a ∧ a.Roots d₁.input ∧
      Move a d₁ d' := by
    cases hend with
    | written js j hjs hmove _ _ _ =>
      exact ⟨.write id (.expression ⟨op, js, e.asserted⟩),
        ⟨rfl, hd₁.expresses, e, op, js, hn, hforeign, hop, rfl,
          stems_of_names (fun x hx => (hl x hx).retains hret) hjs⟩,
        fun h => absurd h (Node.not_isUnknown_of_canonical (Operator.supplants_iff.1 hop).1), hmove⟩
    | removed o ho hgone hmove _ =>
      exact ⟨.erase id, ⟨rfl, hd₁.expresses, Or.inr ⟨o, hl _ ho, hgone⟩⟩, trivial, hmove⟩
  exact ⟨hmoves.lawful.tail ha hmove,
    fun hs => hmove.rooted hd₁.coherent hroots (hd.rooted hmoves hs), by simp⟩

/-- One of the two assertions about the parameter that a node gives way to. -/
theorem moves_assertion (out : NodeId) {r : Option NodeId} (hop : op.isCanonical)
    (hpred : op.isPredicate) (hl : ∀ x ∈ l, x = .output out ∨ x.From d (g.operands id))
    (hr : Runs (Draft.createExpression op l true [id]) d r d') :
    Moves (fun d a => a.Builds g id (fun _ => Plant) d) d d' :=
  (prepares_create hg hd hop (fun _ => hpred) (fun _ ho => (hl _ ho).resolve_left (by simp))
    (fun _ hs => (hl _ hs).resolve_left (by simp)) r d' hr).1

theorem prepares_meetParts {a b : Operand α} (ha : a.From d (g.operands id))
    (hb : b.From d (g.operands id)) :
    Prepares g id (meetParts id a b) d fun d xs => ∀ x ∈ xs, x.From d (g.operands id) := by
  refine (prepares_build hg hd rfl (by simp [ha, hb])).bind hg hd fun union d₁ hd₁ hr₁ hu => ?_
  refine (prepares_build hg hd₁ rfl (by simp [ha.retains hr₁, hb.retains hr₁])).bind hg hd₁
    fun delta d₂ _ hr₂ hdelta => ?_
  exact .pure (by simp [hu.retains hr₂, hdelta])

end Laws

section Table

variable {a b first : NodeId} {rest operands : List NodeId} {asserted : Bool}

theorem from_inputs {l : List NodeId} (hl : ∀ o ∈ l, o ∈ g.operands id) :
    ∀ x ∈ l.map (Operand.input (α := α)), x.From d (g.operands id) := by
  intro x hx
  obtain ⟨o, ho, rfl⟩ := List.mem_map.1 hx
  exact hl o ho

@[simp] theorem from_number (x : α) : (number x).From d (g.operands id) := ⟨x, rfl⟩

@[simp] theorem from_input {o : NodeId} :
    (Operand.input o : Operand α).From d (g.operands id) ↔ o ∈ g.operands id := .rfl

theorem Completes.done : Completes g id (pure ()) d := by
  intro r d' hr
  obtain ⟨rfl, rfl⟩ := lawRuns_pure.1 hr
  exact ⟨.refl _, fun hs => hs, by simp⟩

variable (hg : g.Acyclic) (hd : Pending g id d)

include hg hd

theorem prepares_negated (hl : ∀ o ∈ operands, o ∈ g.operands id) :
    Prepares g id (operands.mapM fun o => build id .not [.input o]) d fun d xs =>
      ∀ x ∈ xs, x.From d (g.operands id) :=
  prepares_mapM hg (fun o ho _ hd => prepares_build hg hd rfl (by simp [hl o ho])) hd

/-- The induction is on the nodes that are left. -/
theorem completes_meet (hn : g.node? id = some (.expression e))
    (hforeign : e.op.isCanonical = false) (hop : Operator.symmetricDifference.supplants e.op)
    {acc : Operand α} (hacc : acc.From d (g.operands id)) (hrest : ∀ o ∈ rest, o ∈ g.operands id) :
    Completes g id (meet id acc rest) d := by
  induction rest generalizing acc d with
  | nil => exact .done
  | cons next rest ih =>
    have hparts := prepares_meetParts hg hd hacc (b := .input next) (hrest next (by simp))
    cases rest with
    | nil =>
      exact hparts.completes hg hd fun parts d₁ hd₁ _ hp =>
        completes_become hg hd₁ hn hforeign hop hp
    | cons next' rest =>
      refine hparts.completes hg hd fun parts d₁ hd₁ _ hp => ?_
      refine (prepares_build hg hd₁ rfl hp).completes hg hd₁ fun acc' d₂ hd₂ _ ha => ?_
      exact ih hd₂ ha fun o ho => hrest o (.tail _ ho)

/-- The node gives way to a new parameter, which is the one unknown that stands for nothing until
then. -/
theorem completes_witness (hn : g.node? id = some (.expression e))
    (hforeign : e.op.isCanonical = false) (hpred : e.op.isPredicate = false)
    (hunknown : e.op = .min ∨ e.op = .max) (least : Bool)
    (hl : ∀ o ∈ operands, o ∈ g.operands id) : Completes g id (witness id least operands) d := by
  refine (prepares_build hg hd rfl (from_inputs hl)).completes hg hd fun union d₁ hd₁ _ hu => ?_
  intro r d' hr
  obtain ⟨out, d₂, hcreate, hr⟩ := lawRuns_lift_bind.1 hr
  obtain ⟨hcreates, hnode, hfree⟩ := moves_createParameter (C := fun _ => Sprout) hd₁.coherent
    hd₁.input (fun _ => Or.inr (Or.inl rfl)) hcreate
  have hd₂ := hd₁.builds hg hcreates
  have hu₂ := hu.retains (hcreates.retains fun _ _ ha => ha.adds)
  obtain ⟨_, d₃, hsubset, hr⟩ := lawRuns_discard_lift_bind.1 hr
  have hbuilds := moves_assertion hg hd₂ out rfl rfl (by simp [hu₂]) hsubset
  have hd₃ := hd₂.builds hg hbuilds
  have hu₃ := hu₂.retains (hbuilds.retains fun _ _ ha => ha.adds)
  obtain ⟨_, d₄, hbound, hr⟩ := lawRuns_discard_lift_bind.1 hr
  have hbuilds' := moves_assertion hg hd₃ out rfl rfl (by split_ifs <;> simp [hu₃]) hbound
  have hd₄ := hd₃.builds hg hbuilds'
  have hall := hbuilds.trans hbuilds'
  have hret := hall.retains fun _ _ ha => ha.adds
  have hnode₄ := hret.node? out _ hnode
  obtain ⟨_, d₅, hredirect, hr⟩ := lawRuns_lift_bind.1 hr
  obtain ⟨_, hlog, rfl⟩ := lawRuns_lift.1 (lawRuns_get_bind.1 hr)
  unfold Draft.log at hlog
  have hnote : Move (.note id) d₅ d' := runs_modify.1 hlog ▸ .note (noted_journal d₅ _)
  have hcont := Generation.contains_of_node? hn
  have hmove := move_redirect hd₄.coherent (hd₄.input ▸ hcont) hd₄.there hnode₄
    (hret.unbound out (Generation.contains_of_node? hnode) hfree) hredirect
  have hlawful : Moves (Act.Lawful g (· = id)) d₂ d₅ :=
    hall.lawful.tail (a := .redirect id out) ⟨rfl, ⟨e, hn, hforeign, hpred⟩, hnode₄⟩ hmove
  refine ⟨(hcreates.mono fun _ _ ha => ha.lawful fun _ hn => hn).trans
    (hlawful.tail (a := .note id) trivial hnote), fun hs => ?_, by simp⟩
  obtain ⟨q, o', hq, henter, rfl⟩ := entered_of_createParameter hcreate
  have hs₄ : Rooted {out} d₄ := hd₂.rooted hall (Set.empty_union {out} ▸ hs.insert henter true)
  have hprov : d₄.output.provenance? out = d₄.input.provenance? id := by
    rw [hall.provenance?_of_parameter (fun _ _ ha => ha.adds) hnode, hd₄.input]
    exact ((henter.provenance? out).trans (if_pos rfl)).trans
      (provenance?_of_cites hcont (hd₁.input ▸ hq)).symm
  exact hnote.rooted (hd₄.coherent.move hmove) trivial
    (hmove.rooted_redirect hs₄ (hd₄.input ▸ ⟨_, hn, hunknown⟩) hprov)

omit hg in
theorem completes_discard (hn : g.node? id = some (.expression e)) (h : g.Unsupported id) :
    Completes g id (discardUnsupported id e.op) d := by
  refine .get_bind fun r d' hr => ?_
  obtain ⟨_, d₁, hlog, hremove⟩ := lawRuns_lift_bind.1 hr
  obtain ⟨_, hrun, rfl⟩ := lawRuns_lift.1 hremove
  unfold Draft.log at hlog
  rw [runs_modify.1 hlog] at hrun
  have hnote : Move (.note id) d _ := .note (noted_journal d (d.journal.add .warn operatorSource
    ("operator `" ++ e.op.name ++ "` has no canonical form, dropping " ++ d.input.describe id)))
  have hmove := move_remove (hd.coherent.move hnote)
    (hd.input ▸ Generation.contains_of_node? hn) hrun
  exact ⟨(Moves.single (P := Act.Lawful g (· = id)) (a := .note id) trivial hnote).tail (a := .erase id)
    ⟨rfl, hd.expresses, Or.inl h⟩ hmove, fun hs => hmove.rooted (hd.coherent.move hnote) trivial
      (hnote.rooted hd.coherent trivial hs), by simp⟩

/-- A law that puts a unary operator over a sum. -/
theorem completes_shifted (hn : g.node? id = some (.expression e))
    (hforeign : e.op.isCanonical = false) (ha : a ∈ g.operands id) {op : Operator}
    (hop : op.supplants e.op) (x : α) :
    Completes g id (do become id op [← build id .add [.input a, number x]]) d :=
  (prepares_build hg hd rfl (by simp [ha])).completes hg hd fun _ _ hd₁ _ hs =>
    completes_become hg hd₁ hn hforeign hop (by simp [hs])

theorem completes_subtract
    (hn : g.node? id = some (.expression ⟨.subtract, first :: rest, asserted⟩))
    (hl : ∀ o ∈ first :: rest, o ∈ g.operands id) :
    Completes g id (applyLaw id ⟨.subtract, first :: rest, asserted⟩) d := by
  refine (prepares_mapM hg (fun o ho _ hd => prepares_build hg hd rfl ?_) hd).completes hg hd
    fun negated d₁ hd₁ _ hneg => completes_become hg hd₁ hn rfl rfl ?_
  · simp [hl o (.tail _ ho)]
  · exact List.forall_mem_cons.2 ⟨hl first (by simp), hneg⟩

theorem completes_divide (hn : g.node? id = some (.expression ⟨.divide, [a, b], asserted⟩))
    (hl : ∀ o ∈ [a, b], o ∈ g.operands id) :
    Completes g id (applyLaw id ⟨.divide, [a, b], asserted⟩) d :=
  (prepares_build hg hd rfl (by simp [hl b])).completes hg hd fun inverse d₁ hd₁ _ hinv =>
    completes_become hg hd₁ hn rfl rfl (by simp [hl a, hinv])

theorem completes_and (hn : g.node? id = some (.expression ⟨.and, operands, asserted⟩))
    (hl : ∀ o ∈ operands, o ∈ g.operands id) :
    Completes g id (applyLaw id ⟨.and, operands, asserted⟩) d := by
  refine (prepares_negated hg hd hl).completes hg hd fun negated d₁ hd₁ _ hneg => ?_
  refine (prepares_build hg hd₁ rfl hneg).completes hg hd₁ fun any d₂ hd₂ _ hany => ?_
  exact completes_become hg hd₂ hn rfl rfl (by simp [hany])

theorem completes_implies
    (hn : g.node? id = some (.expression ⟨.implies, first :: rest, asserted⟩))
    (hl : ∀ o ∈ first :: rest, o ∈ g.operands id) :
    Completes g id (applyLaw id ⟨.implies, first :: rest, asserted⟩) d := by
  refine (prepares_build hg hd rfl (by simp [hl first])).completes hg hd fun premise d₁ hd₁ _ hp => ?_
  exact completes_become hg hd₁ hn rfl rfl (List.forall_mem_cons.2
    ⟨hp, from_inputs fun o ho => hl o (.tail _ ho)⟩)

theorem completes_xor (hn : g.node? id = some (.expression ⟨.xor, operands, asserted⟩))
    (hl : ∀ o ∈ operands, o ∈ g.operands id) :
    Completes g id (applyLaw id ⟨.xor, operands, asserted⟩) d := by
  refine (prepares_build hg hd rfl (from_inputs hl)).completes hg hd fun anyTrue d₁ hd₁ _ hat => ?_
  refine (prepares_build hg hd₁ rfl (by simp [hat])).completes hg hd₁ fun noneTrue d₂ hd₂ _ hnt => ?_
  refine (prepares_negated hg hd₂ hl).completes hg hd₂ fun negated d₃ hd₃ hr₃ hneg => ?_
  refine (prepares_build hg hd₃ rfl hneg).completes hg hd₃ fun anyFalse d₄ hd₄ hr₄ haf => ?_
  refine (prepares_build hg hd₄ rfl (by simp [haf])).completes hg hd₄
    fun noneFalse d₅ hd₅ hr₅ hnf => ?_
  have hnt₅ := hnt.retains (hr₃.trans (hr₄.trans hr₅))
  refine (prepares_build hg hd₅ rfl (by simp [hnt₅, hnf])).completes hg hd₅
    fun uniform d₆ hd₆ _ hu => ?_
  exact completes_become hg hd₆ hn rfl rfl (by simp [hu])

theorem completes_relax (hn : g.node? id = some (.expression e))
    (hforeign : e.op.isCanonical = false) (ha : a ∈ g.operands id) (hb : b ∈ g.operands id) :
    Completes g id (relax id a b) d :=
  .get_bind ((prepares_log _ _ _).completes hg hd fun _ _ hd₁ _ _ =>
    completes_become hg hd₁ hn hforeign (Operator.supplants_iff.2 ⟨rfl, fun _ => rfl⟩)
      (by simp [ha, hb]))

theorem completes_ceil (hn : g.node? id = some (.expression ⟨.ceil, [a], asserted⟩))
    (ha : a ∈ g.operands id) : Completes g id (applyLaw id ⟨.ceil, [a], asserted⟩) d := by
  refine (prepares_build hg hd rfl (by simp [ha])).completes hg hd fun negated d₁ hd₁ _ hneg => ?_
  refine (prepares_build hg hd₁ rfl (by simp [hneg])).completes hg hd₁ fun shifted d₂ hd₂ _ hs => ?_
  refine (prepares_build hg hd₂ rfl (by simp [hs])).completes hg hd₂ fun rounded d₃ hd₃ _ hr => ?_
  exact completes_become hg hd₃ hn rfl rfl (by simp [hr])

theorem completes_difference
    (hn : g.node? id = some (.expression ⟨.difference, first :: rest, asserted⟩))
    (hl : ∀ o ∈ first :: rest, o ∈ g.operands id) :
    Completes g id (applyLaw id ⟨.difference, first :: rest, asserted⟩) d := by
  refine (prepares_build hg hd rfl (from_inputs hl)).completes hg hd fun all d₁ hd₁ _ hall => ?_
  refine (prepares_build hg hd₁ rfl (from_inputs fun o ho => hl o (.tail _ ho))).completes hg hd₁
    fun taken d₂ hd₂ hr₂ ht => ?_
  exact completes_become hg hd₂ hn rfl rfl (by simp [hall.retains hr₂, ht])

end Table

/-- The law of every operator outside the basis. -/
theorem completes_applyLaw (hg : g.Sound) (hd : Pending g id d)
    (hn : g.node? id = some (.expression e)) (hforeign : e.op.isCanonical = false) :
    Completes g id (applyLaw id e) d := by
  have hac := hg.acyclic
  have hl : ∀ o ∈ e.operands, o ∈ g.operands id := fun o ho => by
    rwa [Generation.operands_of_node? hn]
  obtain ⟨op, operands, asserted⟩ := e
  have harity : op.arity.accepts operands.length := (hg.node hn).arity _ rfl
  cases op
  case subtract =>
    obtain ⟨first, rest, rfl⟩ := Arity.eq_cons harity
    exact completes_subtract hac hd hn hl
  case divide =>
    obtain ⟨a, b, rfl⟩ := Arity.eq_pair harity
    exact completes_divide hac hd hn hl
  case and => exact completes_and hac hd hn hl
  case implies =>
    obtain ⟨first, rest, rfl⟩ := Arity.eq_cons harity
    exact completes_implies hac hd hn hl
  case xor => exact completes_xor hac hd hn hl
  case lessOrEqual =>
    obtain ⟨a, b, rfl⟩ := Arity.eq_pair harity
    exact completes_become hac hd hn rfl rfl (by simp [hl a, hl b])
  case isSuperset =>
    obtain ⟨a, b, rfl⟩ := Arity.eq_pair harity
    exact completes_become hac hd hn rfl rfl (by simp [hl a, hl b])
  case greaterThan =>
    obtain ⟨a, b, rfl⟩ := Arity.eq_pair harity
    exact completes_relax hac hd hn rfl (hl a (by simp)) (hl b (by simp))
  case lessThan =>
    obtain ⟨a, b, rfl⟩ := Arity.eq_pair harity
    exact completes_relax hac hd hn rfl (hl b (by simp)) (hl a (by simp))
  case floor =>
    obtain ⟨a, rfl⟩ := Arity.eq_singleton harity
    exact completes_shifted hac hd hn rfl (hl a (by simp)) rfl _
  case ceil =>
    obtain ⟨a, rfl⟩ := Arity.eq_singleton harity
    exact completes_ceil hac hd hn (hl a (by simp))
  case cos =>
    obtain ⟨a, rfl⟩ := Arity.eq_singleton harity
    exact completes_shifted hac hd hn rfl (hl a (by simp)) rfl _
  case sqrt =>
    obtain ⟨a, rfl⟩ := Arity.eq_singleton harity
    exact completes_become hac hd hn rfl rfl (by simp [hl a])
  case min => exact completes_witness hac hd hn rfl rfl (Or.inl rfl) true hl
  case max => exact completes_witness hac hd hn rfl rfl (Or.inr rfl) false hl
  case difference =>
    obtain ⟨first, a, rest, rfl⟩ := Arity.eq_cons_cons harity
    exact completes_difference hac hd hn hl
  case intersection =>
    obtain ⟨first, a, rest, rfl⟩ := Arity.eq_cons_cons harity
    have hfirst : (Operand.input first : Operand α).From d (g.operands id) := hl first (by simp)
    exact completes_meet hac hd hn rfl rfl hfirst fun o ho => hl o (.tail _ ho)
  case cardinality => exact completes_discard hd hn ⟨_, hn, by simp⟩
  case differentiate => exact completes_discard hd hn ⟨_, hn, by simp⟩
  case integrate => exact completes_discard hd hn ⟨_, hn, by simp⟩
  all_goals cases hforeign

omit [Scalar α] in
theorem pending_of_intact (hd : d.Coherent) (hin : d.input = g)
    (hn : g.node? id = some (.expression e)) (hthere : d.isRemoved id = false)
    (hintact : Intact id d) : Pending g id d := by
  refine ⟨hd, hin, hthere, fun j hj => ?_⟩
  obtain ⟨n, m, hnode, hm, hsame⟩ := hintact j hj
  cases (hin ▸ hn).symm.trans hm
  obtain ⟨e', rfl, -⟩ := Node.expression_of_skeleton hsame
  exact ⟨e', hnode⟩

/-- One step of the pass. It leaves no unknown without an unknown that it stands for. -/
theorem moves_canonize (hg : g.Sound) (hd : d.Coherent) (hin : d.input = g)
    (hn : g.node? id = some (.expression e)) (hintact : Intact id d)
    (hr : Runs (canonize id e) d ⟨⟩ d') :
    Moves (Act.Lawful g (· = id)) d d' ∧ (Rooted ∅ d → Rooted ∅ d') := by
  unfold canonize at hr
  rw [runs_get_bind] at hr
  split_ifs at hr with hskip
  · obtain ⟨-, rfl⟩ := runs_pure.1 hr
    exact ⟨.refl _, fun hs => hs⟩
  simp only [Bool.or_eq_true, not_or, Bool.not_eq_true] at hskip
  have hpending := pending_of_intact hd hin hn hskip.2 hintact
  obtain ⟨r, d₁, hlaw, hr₁⟩ := runs_bind.1 hr
  obtain ⟨hmoves, hroots, hnone⟩ := completes_applyLaw hg hpending hn hskip.1 r d₁ hlaw
  cases r with
  | some u =>
    obtain ⟨-, rfl⟩ := runs_pure.1 hr₁
    exact ⟨hmoves, hroots⟩
  | none =>
    obtain ⟨hd₁, hgone⟩ := hnone rfl
    have hmove := move_remove hd₁.coherent (hd₁.input ▸ Generation.contains_of_node? hn) hr₁
    exact ⟨hmoves.tail (a := .erase id) ⟨rfl, hd₁.expresses, Or.inr hgone⟩ hmove,
      fun hs => hmove.rooted hd₁.coherent trivial (hroots hs)⟩

/-- One turn of the pass. What has not been visited is as it was copied. -/
theorem lawful_turn (hg : g.Sound) {deduplicate : Bool} {journal : Journal}
    {done rest : List (NodeId × Expression)} (hl : done ++ (id, e) :: rest = g.expressions)
    (h : Moves (Act.Lawful g (· ∈ done.map (·.1))) (start g deduplicate journal) d)
    (hr : Runs (canonize id e) d ⟨⟩ d') :
    id ∉ done.map (·.1) ∧ Intact id d ∧ Moves (Act.Lawful g (· = id)) d d' ∧
      (Rooted ∅ d → Rooted ∅ d') := by
  have hstart := coherent_start g deduplicate journal
  have hd := h.coherent hstart
  have hnodup := Generation.nodup_expressions (g := g)
  rw [← hl, List.map_append, List.map_cons, List.nodup_append] at hnodup
  have hnew : id ∉ done.map (·.1) := fun hmem => hnodup.2.2 _ hmem _ (by simp) rfl
  have hn : g.node? id = some (.expression e) := Generation.mem_expressions.1 (hl ▸ by simp)
  have hintact : Intact id d := by
    refine (h.shaped (W := fun i _ => i ∈ done.map (·.1)) (C := fun _ => True) (fun _ a ha => ?_)
      hstart (shaped_start _ _)).intact hd fun _ => hnew
    cases a with
    | write i n => exact ha.1
    | redirect i t => exact fun _ _ => ha.1
    | _ => trivial
  exact ⟨hnew, hintact, moves_canonize hg hd h.input hn hintact hr⟩

theorem lawful_append {deduplicate : Bool} {journal : Journal}
    {done : List (NodeId × Expression)}
    (h : Moves (Act.Lawful g (· ∈ done.map (·.1))) (start g deduplicate journal) d)
    (h' : Moves (Act.Lawful g (· = id)) d d') :
    Moves (Act.Lawful g (· ∈ (done ++ [(id, e)]).map (·.1))) (start g deduplicate journal) d' := by
  refine (h.mono fun _ _ ha => ha.mono fun i hi => ?_).trans
    (h'.mono fun _ _ ha => ha.mono fun i hi => ?_)
  · rw [List.map_append]
    exact List.mem_append_left _ hi
  · rw [List.map_append, hi]
    exact List.mem_append_right _ (by simp)

/-- What is known of the draft of the pass over the operators, once it is closed. -/
structure Canonized (g : Generation α) (deduplicate : Bool) (journal : Journal) (d : Draft α) :
    Prop where
  moves : Moves (Act.Lawful g fun _ => True) (start g deduplicate journal) d
  closed : d.Closed
  rooted : Rooted ∅ d

theorem exists_canonized (hg : g.Sound) {deduplicate : Bool} {journal journal' : Journal}
    {rev : Revision α}
    (h : (operators : Pass α).apply deduplicate journal g = .ok (rev, journal')) :
    ∃ d, Canonized g deduplicate journal d ∧ rev = ⟨d.output, d.dirty, d.mapping⟩ := by
  have hstart := coherent_start g deduplicate journal
  obtain ⟨d₁, d₂, hr, hclose⟩ := Pass.runs_of_apply h
  obtain ⟨hmoves, hroots⟩ := runs_forM (l := g.expressions) (d := start g deduplicate journal)
    (P := fun done d => Moves (Act.Lawful g (· ∈ done.map (·.1))) (start g deduplicate journal) d ∧
      Rooted ∅ d)
    (fun done x rest hl d d' _ ⟨hmoves, hroots⟩ hr => by
      obtain ⟨-, -, hturn, hroots'⟩ := lawful_turn hg hl hmoves hr
      exact ⟨lawful_append hmoves hturn, hroots' hroots⟩)
    (List.nil_append _) ⟨.refl _, rooted_start g deduplicate journal⟩ (runs_get_bind.1 hr)
  have hd₁ := hmoves.coherent hstart
  obtain ⟨hcopies, hclosed, rfl⟩ := moves_close hg.acyclic hd₁ hmoves.input hclose
  refine ⟨d₂, ⟨(hmoves.mono fun _ _ ha => ha.mono fun _ _ => trivial).trans
    (hcopies.mono fun _ a ha => ?_), hclosed, hcopies.rooted (fun _ a ha => ?_) hd₁ hroots⟩, rfl⟩
  all_goals obtain ⟨i, rfl | rfl⟩ := ha <;> trivial

end Pass

end ParameterSolver
