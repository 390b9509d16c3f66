import ParameterSolver.Pass.Nesting
import ParameterSolver.Proofs.Blueprint.Reachable
import ParameterSolver.Proofs.Draft.Bystanders
import ParameterSolver.Proofs.Graph.Listing
import ParameterSolver.Proofs.Pass.Gentle
import ParameterSolver.Proofs.Pass.Merging

/-! Warnings. The only pass that warns is the one over the operators: once for every strict comparison
and every operator without a law that it comes to before it is gone. -/

namespace ParameterSolver

open Draft

variable {α β γ : Type} [Scalar α]

namespace Operator

/-- The solver warns of it: a strict comparison, or an operator that has no law. -/
def isReported (op : Operator) : Bool :=
  op ∈ [greaterThan, lessThan, cardinality, differentiate, integrate]

theorem isCanonical_of_isReported {op : Operator} (h : op.isReported) : op.isCanonical = false := by
  cases op <;> first | rfl | exact absurd h (by decide)

end Operator

/-- The operand is no input node outside `D`. -/
def Operand.In (D : Set NodeId) (x : Operand α) : Prop := ∀ o, x = .input o → o ∈ D

namespace Pass

variable {D : Set NodeId} {d d' : Draft α} {id a b : NodeId} {e : Expression} {op : Operator}
  {l : List (Operand α)}

/-- The law is about nodes in `D` and does not warn; what it gives is as `R` says. -/
def Heeds (D : Set NodeId) (m : Law α β) (d : Draft α) (R : β → Prop) : Prop :=
  ∀ r d', LawRuns m d r d' → Stays D d d' ∧ ∀ x, r = some x → R x

variable {R : β → Prop} {R' : γ → Prop}

omit [Scalar α] in
theorem Heeds.pure {x : β} (h : R x) : Heeds D (Pure.pure x) d R := by
  intro r d' hr
  obtain ⟨rfl, rfl⟩ := lawRuns_pure.1 hr
  exact ⟨.refl D _, fun y hy => by cases hy; exact h⟩

omit [Scalar α] in
theorem Heeds.bind {m : Law α β} {f : β → Law α γ} (h : Heeds D m d R)
    (hf : ∀ x d', Stays D d d' → R x → Heeds D (f x) d' R') : Heeds D (m >>= f) d R' := by
  intro r d' hr
  rcases lawRuns_bind.1 hr with ⟨hm, rfl⟩ | ⟨x, d₁, hm, hr₁⟩
  · exact ⟨(h _ _ hm).1, by simp⟩
  · obtain ⟨h₁, hx⟩ := h _ _ hm
    obtain ⟨h₂, hr⟩ := hf x d₁ h₁ (hx x rfl) r d' hr₁
    exact ⟨h₁.trans h₂, hr⟩

omit [Scalar α] in
theorem Heeds.get_bind {f : Draft α → Law α β} (h : Heeds D (f d) d R) : Heeds D (get >>= f) d R :=
  fun r d' hr => h r d' (lawRuns_get_bind.1 hr)

omit [Scalar α] in
theorem heeds_lift {m : Edit α β} (h : Minds D m d) : Heeds D (.lift m) d fun _ => True := by
  intro r d' hr
  obtain ⟨x, hm, -⟩ := lawRuns_lift.1 hr
  exact ⟨h x d' hm, fun _ _ => trivial⟩

omit [Scalar α] in
theorem heeds_discard {m : Edit α β} (h : Minds D m d) :
    Heeds D (discard (.lift m)) d fun _ => True := by
  intro r d' hr
  obtain ⟨x, hm, -⟩ := lawRuns_discard_lift.1 hr
  exact ⟨h x d' hm, fun _ _ => trivial⟩

omit [Scalar α] in
theorem heeds_mapM {f : NodeId → Law α (Operand α)} {l : List NodeId}
    (hf : ∀ o ∈ l, ∀ d', Stays D d d' → Heeds D (f o) d' (·.In D)) :
    Heeds D (l.mapM f) d fun xs => ∀ x ∈ xs, x.In D := by
  induction l generalizing d with
  | nil => exact .pure (by simp)
  | cons o l ih =>
    rw [List.mapM_cons]
    refine (hf o (by simp) d (.refl D d)).bind fun x d₁ h₁ hx => ?_
    refine (ih fun o ho d' h => hf o (.tail _ ho) d' (h₁.trans h)).bind fun xs d₂ _ hxs => ?_
    exact .pure (List.forall_mem_cons.2 ⟨hx, hxs⟩)

@[simp] theorem in_number (x : α) : (number x).In D := by
  rintro o ⟨⟩

omit [Scalar α] in
@[simp] theorem in_input {o : NodeId} : (Operand.input o : Operand α).In D ↔ o ∈ D := by
  refine ⟨fun h => h o rfl, ?_⟩
  rintro h _ ⟨⟩
  exact h

omit [Scalar α] in
@[simp] theorem in_output (c : NodeId) : (Operand.output c : Operand α).In D := by
  rintro o ⟨⟩

omit [Scalar α] in
theorem in_inputs {l : List NodeId} (h : ∀ o ∈ l, o ∈ D) :
    ∀ x ∈ l.map (Operand.input (α := α)), x.In D := by
  simpa using h

section Laws

variable (hD : d.input.Downward D)

include hD

theorem heeds_build (hl : ∀ x ∈ l, x.In D) : Heeds D (build id op l) d (·.In D) := by
  intro r d' hr
  unfold build at hr
  rw [LawRuns, OptionT.run_map] at hr
  obtain ⟨r', hr', rfl⟩ := runs_map.1 hr
  refine ⟨minds_createExpression hD (fun o ho => hl _ ho o rfl) r' d' hr', fun x hx => ?_⟩
  obtain ⟨c, -, rfl⟩ := Option.map_eq_some_iff.1 hx
  exact in_output c

theorem heeds_become (hid : id ∈ D) (hl : ∀ x ∈ l, x.In D) :
    Heeds D (become id op l) d fun _ => True := by
  refine heeds_discard (minds_editExpression hD hid fun l' hl' o ho => ?_)
  cases hl'
  exact hl _ ho o rfl

theorem heeds_meetParts {x y : Operand α} (hx : x.In D) (hy : y.In D) :
    Heeds D (meetParts id x y) d fun xs => ∀ z ∈ xs, z.In D := by
  refine (heeds_build hD (by simp [hx, hy])).bind fun u d₁ h₁ hu => ?_
  refine (heeds_build (h₁.downward hD) (by simp [hx, hy])).bind fun v d₂ _ hv => ?_
  exact .pure (by simp [hu, hv])

/-- The induction is on the nodes that are left. -/
theorem heeds_meet (hid : id ∈ D) {acc : Operand α} (hacc : acc.In D) {rest : List NodeId}
    (hrest : ∀ o ∈ rest, o ∈ D) : Heeds D (meet id acc rest) d fun _ => True := by
  induction rest generalizing acc d with
  | nil => exact .pure trivial
  | cons next rest ih =>
    have hparts : Heeds D (meetParts id acc (.input next)) d fun xs => ∀ z ∈ xs, z.In D :=
      heeds_meetParts hD hacc (in_input.2 (hrest next (by simp)))
    cases rest with
    | nil => exact hparts.bind fun parts d₁ h₁ hp => heeds_become (h₁.downward hD) hid hp
    | cons next' rest =>
      refine hparts.bind fun parts d₁ h₁ hp => ?_
      refine (heeds_build (h₁.downward hD) hp).bind fun acc' d₂ h₂ ha => ?_
      exact ih (h₂.downward (h₁.downward hD)) ha fun o ho => hrest o (.tail _ ho)

theorem heeds_negated {operands : List NodeId} (hops : ∀ o ∈ operands, o ∈ D) :
    Heeds D (operands.mapM fun o => build id .not [.input o]) d fun xs => ∀ x ∈ xs, x.In D :=
  heeds_mapM fun o ho _ h => heeds_build (h.downward hD) (by simp [hops o ho])

theorem heeds_witness (hid : id ∈ D) (least : Bool) {operands : List NodeId}
    (hops : ∀ o ∈ operands, o ∈ D) : Heeds D (witness id least operands) d fun _ => True := by
  refine (heeds_build hD (in_inputs hops)).bind fun union d₁ h₁ hu => ?_
  have hD₁ := h₁.downward hD
  refine (heeds_lift minds_createParameter).bind fun out d₂ h₂ _ => ?_
  have hD₂ := h₂.downward hD₁
  have hassert : ∀ {d : Draft α} {op : Operator} {l : List (Operand α)}, d.input.Downward D →
      (∀ x ∈ l, x = union ∨ x = .output out) →
      Heeds D (discard (.lift (Draft.createExpression op l true [id]))) d fun _ => True := by
    intro d op l hD hl
    refine heeds_discard (minds_createExpression hD fun o ho => ?_)
    exact hu o ((hl _ ho).resolve_right (by simp)).symm
  refine (hassert hD₂ (by simp)).bind fun _ d₃ h₃ _ => ?_
  refine (hassert (h₃.downward hD₂) (by split_ifs <;> simp)).bind fun _ _ _ _ => ?_
  refine (heeds_lift (minds_redirect hid)).bind fun _ _ _ _ => ?_
  exact .get_bind (heeds_lift (minds_log (by decide) _ _))

/-- A law that puts a unary operator over a sum. -/
theorem heeds_shifted (hid : id ∈ D) (ha : a ∈ D) (x : α) :
    Heeds D (do become id op [← build id .add [.input a, number x]]) d fun _ => True :=
  (heeds_build hD (by simp [ha])).bind fun _ _ h hs =>
    heeds_become (h.downward hD) hid (by simp [hs])

theorem heeds_ceil {operands : List NodeId} {asserted : Bool} (hid : id ∈ D) (ha : a ∈ D) :
    Heeds D (applyLaw id ⟨.ceil, a :: operands, asserted⟩) d fun _ => True := by
  refine (heeds_build hD (by simp [ha])).bind fun negated d₁ h₁ hneg => ?_
  have hD₁ := h₁.downward hD
  refine (heeds_build hD₁ (by simp [hneg])).bind fun shifted d₂ h₂ hs => ?_
  have hD₂ := h₂.downward hD₁
  refine (heeds_build hD₂ (by simp [hs])).bind fun rounded d₃ h₃ hr => ?_
  exact heeds_become (h₃.downward hD₂) hid (by simp [hr])

theorem heeds_xor {operands : List NodeId} {asserted : Bool} (hid : id ∈ D)
    (hops : ∀ o ∈ operands, o ∈ D) :
    Heeds D (applyLaw id ⟨.xor, operands, asserted⟩) d fun _ => True := by
  refine (heeds_build hD (in_inputs hops)).bind fun anyTrue d₁ h₁ hat => ?_
  have hD₁ := h₁.downward hD
  refine (heeds_build hD₁ (by simp [hat])).bind fun noneTrue d₂ h₂ hnt => ?_
  have hD₂ := h₂.downward hD₁
  refine (heeds_negated hD₂ hops).bind fun negated d₃ h₃ hneg => ?_
  have hD₃ := h₃.downward hD₂
  refine (heeds_build hD₃ hneg).bind fun anyFalse d₄ h₄ haf => ?_
  have hD₄ := h₄.downward hD₃
  refine (heeds_build hD₄ (by simp [haf])).bind fun noneFalse d₅ h₅ hnf => ?_
  have hD₅ := h₅.downward hD₄
  refine (heeds_build hD₅ (by simp [hnt, hnf])).bind fun uniform d₆ h₆ hu => ?_
  exact heeds_become (h₆.downward hD₅) hid (by simp [hu])

/-- Laws that are not about a reported operator do not warn. -/
theorem heeds_applyLaw (hid : id ∈ D) (hops : ∀ o ∈ e.operands, o ∈ D)
    (hop : e.op.isReported = false) : Heeds D (applyLaw id e) d fun _ => True := by
  obtain ⟨op, operands, asserted⟩ := e
  dsimp only at hop hops
  unfold applyLaw
  dsimp only
  split
  case h_1 first rest => -- a difference
    refine (heeds_mapM fun o ho d' h => ?_).bind fun negated d₁ h₁ hneg => ?_
    · exact heeds_build (h.downward hD) (by simp [hops o (.tail _ ho)])
    · refine heeds_become (h₁.downward hD) hid (List.forall_mem_cons.2 ⟨?_, hneg⟩)
      exact in_input.2 (hops _ (by simp))
  case h_2 a b _ => -- a quotient
    refine (heeds_build hD (by simp [hops b])).bind fun inverse d₁ h₁ hinv => ?_
    exact heeds_become (h₁.downward hD) hid (by simp [hops a, hinv])
  case h_3 => -- a conjunction
    refine (heeds_negated hD hops).bind fun negated d₁ h₁ hneg => ?_
    refine (heeds_build (h₁.downward hD) hneg).bind fun any d₂ h₂ hany => ?_
    exact heeds_become (h₂.downward (h₁.downward hD)) hid (by simp [hany])
  case h_4 first rest => -- an implication
    refine (heeds_build hD (by simp [hops first])).bind fun premise d₁ h₁ hp => ?_
    refine heeds_become (h₁.downward hD) hid (List.forall_mem_cons.2 ⟨hp, in_inputs fun o ho => ?_⟩)
    exact hops o (.tail _ ho)
  case h_5 =>
    show Heeds D (applyLaw id ⟨.xor, operands, asserted⟩) d _
    exact heeds_xor hD hid hops
  case h_6 a b _ => exact heeds_become hD hid (by simp [hops a, hops b])
  case h_7 a b _ => exact heeds_become hD hid (by simp [hops a, hops b])
  case h_10 a _ => exact heeds_shifted hD hid (hops a (by simp)) _
  case h_11 a rest =>
    show Heeds D (applyLaw id ⟨.ceil, a :: rest, asserted⟩) d _
    exact heeds_ceil hD hid (hops a (by simp))
  case h_12 a _ => exact heeds_shifted hD hid (hops a (by simp)) _
  case h_13 a _ => exact heeds_become hD hid (by simp [hops a])
  case h_14 => exact heeds_witness hD hid true hops
  case h_15 => exact heeds_witness hD hid false hops
  case h_16 first rest => -- a difference of sets
    refine (heeds_build hD (in_inputs hops)).bind fun all d₁ h₁ hall => ?_
    refine (heeds_build (h₁.downward hD) (in_inputs fun o ho => hops o (.tail _ ho))).bind
      fun taken d₂ h₂ ht => ?_
    exact heeds_become (h₂.downward (h₁.downward hD)) hid (by simp [hall, ht])
  case h_17 first rest =>
    exact heeds_meet hD hid (in_input.2 (hops first (by simp))) fun o ho => hops o (.tail _ ho)
  case h_21 => exact .pure trivial
  -- the others are reported
  all_goals cases hop

omit [Scalar α] hD in
/-- A law that warns is about nodes in `D` then. -/
theorem exists_stays_of_warn {f : Draft α → String} {m : Law α Unit} {r : Option Unit}
    (hm : ∀ d', d'.input = d.input → Heeds D m d' fun _ => True)
    (hr : LawRuns (do .lift (Draft.log .warn operatorSource (f (← get))); m) d r d') :
    ∃ j : Journal, j.count .warn = d.journal.count .warn + 1 ∧ Stays D { d with journal := j } d' := by
  rcases lawRuns_bind.1 (lawRuns_get_bind.1 hr) with ⟨hlift, -⟩ | ⟨_, d₁, hlift, hr₁⟩
  · obtain ⟨_, -, hsome⟩ := lawRuns_lift.1 hlift
    cases hsome
  · obtain ⟨_, hlog, -⟩ := lawRuns_lift.1 hlift
    unfold Draft.log at hlog
    rw [runs_modify.1 hlog] at hr₁
    exact ⟨d.journal.add .warn operatorSource (f d), Journal.count_add ..,
      (hm { d with journal := d.journal.add .warn operatorSource (f d) } rfl r d' hr₁).1⟩

theorem exists_stays_relax (hid : id ∈ D) (ha : a ∈ D) (hb : b ∈ D) {r : Option Unit}
    (hr : LawRuns (relax id a b) d r d') :
    ∃ j : Journal, j.count .warn = d.journal.count .warn + 1 ∧ Stays D { d with journal := j } d' :=
  exists_stays_of_warn (f := fun d => "strict comparison " ++ d.input.describe id
      ++ " is approximated by " ++ Operator.greaterOrEqual.name)
    (fun _ h => heeds_become (h ▸ hD) hid (by simp [ha, hb])) hr

omit hD in
theorem exists_stays_discard (hid : id ∈ D) {r : Option Unit}
    (hr : LawRuns (discardUnsupported id op) d r d') :
    ∃ j : Journal, j.count .warn = d.journal.count .warn + 1 ∧ Stays D { d with journal := j } d' :=
  exists_stays_of_warn (f := fun d => "operator `" ++ op.name
      ++ "` has no canonical form, dropping " ++ d.input.describe id)
    (fun _ _ => heeds_lift (minds_remove hid)) hr

/-- A law warns once if the operator is reported, and not otherwise. -/
theorem exists_stays_applyLaw (hid : id ∈ D) (hops : ∀ o ∈ e.operands, o ∈ D)
    (harity : e.op.arity.accepts e.operands.length) {r : Option Unit}
    (hr : LawRuns (applyLaw id e) d r d') :
    ∃ j : Journal, j.count .warn = d.journal.count .warn + (if e.op.isReported then 1 else 0) ∧
      Stays D { d with journal := j } d' := by
  by_cases hop : e.op.isReported
  · rw [if_pos hop]
    obtain ⟨op, operands, asserted⟩ := e
    dsimp only at hop hops harity
    cases op
    case greaterThan =>
      obtain ⟨a, b, rfl⟩ := Arity.eq_pair harity
      exact exists_stays_relax hD hid (hops a (by simp)) (hops b (by simp)) hr
    case lessThan =>
      obtain ⟨a, b, rfl⟩ := Arity.eq_pair harity
      exact exists_stays_relax hD hid (hops b (by simp)) (hops a (by simp)) hr
    case cardinality => exact exists_stays_discard hid hr
    case differentiate => exact exists_stays_discard hid hr
    case integrate => exact exists_stays_discard hid hr
    all_goals cases hop
  · rw [if_neg hop]
    exact ⟨d.journal, rfl, (heeds_applyLaw hD hid hops (Bool.eq_false_iff.2 hop) r d' hr).1⟩

/-- The pass warns at an expression that is there and has a reported operator. -/
theorem exists_stays_canonize (hid : id ∈ D) (hops : ∀ o ∈ e.operands, o ∈ D)
    (harity : e.op.arity.accepts e.operands.length) (hthere : d.isRemoved id = false)
    (hr : Runs (canonize id e) d ⟨⟩ d') :
    ∃ j : Journal, j.count .warn = d.journal.count .warn + (if e.op.isReported then 1 else 0) ∧
      Stays D { d with journal := j } d' := by
  unfold canonize at hr
  rw [runs_get_bind, hthere, Bool.or_false] at hr
  split_ifs at hr with hop
  · obtain ⟨-, rfl⟩ := runs_pure.1 hr
    have hquiet : ¬ e.op.isReported := fun h => by
      rw [Operator.isCanonical_of_isReported h] at hop
      cases hop
    exact ⟨d'.journal, by rw [if_neg hquiet, Nat.add_zero], .refl D d'⟩
  · obtain ⟨r, d₁, hlaw, hr₁⟩ := runs_bind.1 hr
    obtain ⟨j, hj, hstays⟩ := exists_stays_applyLaw hD hid hops harity hlaw
    refine ⟨j, hj, hstays.trans ?_⟩
    cases r with
    | some u =>
      obtain ⟨-, rfl⟩ := runs_pure.1 hr₁
      exact .refl D d'
    | none => exact minds_remove hid _ _ hr₁

end Laws

end Pass

namespace Generation

/-- How many expressions have an operator that the solver warns of. -/
def reported (g : Generation α) : ℕ := g.expressions.countP fun x => x.2.op.isReported

omit [Scalar α] in
theorem reported_eq (g : Generation α) : g.reported = g.countOp .greaterThan + g.countOp .lessThan
    + g.countOp .cardinality + g.countOp .differentiate + g.countOp .integrate := by
  unfold reported countOp
  simp only [← List.countP_eq_length_filter]
  induction g.expressions with
  | nil => rfl
  | cons x l ih =>
    simp only [List.countP_cons]
    rw [ih]
    cases x.2.op <;> simp [Operator.isReported] <;> omega

end Generation

namespace Pass

variable {g : Generation α} {deduplicate : Bool} {journal journal' : Journal} {rev : Revision α}

/-- A pass whose edits do not warn adds no warnings to the journal. -/
theorem warnings_of_minds {pass : Pass α} (hpass : ∀ d : Draft α, Minds Set.univ pass.run d)
    (h : pass.apply deduplicate journal g = .ok (rev, journal')) :
    journal'.count .warn = journal.count .warn := by
  obtain ⟨d, d', hr, hclose, rfl⟩ := runs_of_apply_journal h
  exact ((hpass _ _ d hr).trans (minds_close _ d' hclose)).warnings

theorem minds_domains (d : Draft α) : Minds Set.univ (domains : Pass α).run d := by
  refine .get_bind (minds_forM fun x _ d₁ _ => ?_)
  change Minds Set.univ (constrainParameter x.1 x.2) d₁
  unfold constrainParameter
  split_ifs
  · exact minds_pure _
  refine (minds_editParameter (Generation.downward_univ _) trivial).bind fun r d₂ _ => ?_
  cases r with
  | none => exact minds_pure _
  | some out =>
    refine minds_forM fun s _ d₃ _ => .get_bind ((minds_log (by decide) _ _).bind fun _ d₄ _ => ?_)
    exact .map (minds_createExpression (Generation.downward_univ _) fun _ _ => trivial)

theorem minds_assertions (d : Draft α) : Minds Set.univ (assertions : Pass α).run d := by
  refine .get_bind (minds_forM fun x _ d₁ _ => ?_)
  change Minds Set.univ (wrapAssertion x.1 x.2) d₁
  refine .get_bind ?_
  split_ifs
  · exact minds_pure _
  refine (minds_editExpression (Generation.downward_univ _) trivial fun _ _ _ _ => trivial).bind
    fun r d₂ _ => ?_
  cases r with
  | none => exact minds_pure _
  | some inner => exact .map (minds_createExpression (Generation.downward_univ _) fun _ _ => trivial)

theorem minds_leaves (d : Draft α) : Minds Set.univ (leaves : Pass α).run d := by
  refine .get_bind (minds_forM fun x _ d₁ _ => ?_)
  change Minds Set.univ (stripLeaf x.1 x.2.node) d₁
  cases x.2.node with
  | constant c =>
    rw [stripLeaf]
    split
    · exact .map (minds_replaceLeaf (Set.mem_univ _))
    · exact minds_throw _
  | literal value sourceUnit =>
    rw [stripLeaf]
    split
    · exact .map (minds_replaceLeaf (Set.mem_univ _))
    · exact minds_pure _
  | parameter p =>
    rw [stripLeaf]
    split_ifs
    · exact .map (minds_editParameter (Generation.downward_univ _) trivial)
    · exact minds_pure _
  | expression e => exact minds_pure _

theorem minds_nesting (d : Draft α) : Minds Set.univ (nesting : Pass α).run d := by
  refine .get_bind (minds_forM fun x _ d₁ _ => ?_)
  change Minds Set.univ (compress x.1 x.2) d₁
  rw [compress_eq]
  refine .get_bind ?_
  dsimp only
  split_ifs
  · exact minds_pure _
  · exact minds_pure _
  refine (minds_editExpression (Generation.downward_univ _) trivial fun _ _ _ _ => trivial).bind
    fun r d₂ _ => ?_
  cases r with
  | none => exact minds_pure _
  | some out =>
    dsimp only
    unfold dropMerged
    have hremoved : ∀ d' : Draft α, Minds Set.univ ((flattened d₁.input x.2).2.forM Draft.remove) d' :=
      fun d' => minds_forM fun _ _ _ _ => minds_remove trivial
    split_ifs
    · exact minds_absorb.bind fun _ d₃ _ => hremoved d₃
    · exact hremoved d₂

/-- The pass over the operators comes to the expressions in the order in which they entered, operands
first. What it has done when it comes to one concerns older nodes, so the expression is still there,
and it warns once for each that has a reported operator. -/
theorem warnings_operators (hg : g.Sound) (hasc : g.Ascending)
    (h : (operators : Pass α).apply deduplicate journal g = .ok (rev, journal')) :
    journal'.count .warn = journal.count .warn + g.reported := by
  obtain ⟨d, d', hr, hclose, rfl⟩ := runs_of_apply_journal h
  rw [(minds_close _ d' hclose).warnings]
  have hloop := runs_forM (l := g.expressions) (d := start g deduplicate journal)
    (P := fun done d => d.input = g ∧
      d.journal.count .warn = journal.count .warn + done.countP (fun x => x.2.op.isReported) ∧
      ∀ i, (∀ x ∈ done, x.1.rank < i.rank) → d.mapping.get? i = none ∧ d.isRemoved i = false)
    (fun done x rest hl d d' _ ⟨hin, hcount, hfresh⟩ hr => by
      have hn : g.node? x.1 = some (.expression x.2) := Generation.mem_expressions.1 (hl ▸ by simp)
      have hops : ∀ o ∈ x.2.operands, o.rank ≤ x.1.rank := fun o ho =>
        (hasc x.1 o (by rwa [Generation.operands_of_node? hn])).le
      have hdown : d.input.Downward { i | i.rank ≤ x.1.rank } := by
        intro i hi o ho
        exact (hasc i o (hin ▸ ho)).le.trans hi
      have holder : ∀ y ∈ done, y.1.rank < x.1.rank := fun y hy =>
        (List.pairwise_append.1 (hl ▸ Generation.pairwise_expressions)).2.2 y hy x (by simp)
      obtain ⟨j, hj, hstays⟩ := exists_stays_canonize hdown (le_refl x.1.rank) hops
        ((hg.node hn).arity x.2 rfl) (hfresh x.1 holder).2 hr
      refine ⟨hstays.input.trans hin, ?_, fun i hi => ?_⟩
      · rw [hstays.warnings, hj, hcount, List.countP_append, List.countP_singleton, Nat.add_assoc]
      · obtain ⟨hmap, hremoved⟩ := hfresh i fun y hy => hi y (List.mem_append_left _ hy)
        have hout : i ∉ { i : NodeId | i.rank ≤ x.1.rank } := not_le_of_gt (hi x (by simp))
        exact ⟨hstays.mapping i hout hmap, (hstays.removed i hout hmap).trans hremoved⟩)
    (List.nil_append _) ⟨rfl, rfl, fun i _ => ⟨by simp [start], kept_start g deduplicate journal i⟩⟩
    (runs_get_bind.1 hr)
  exact hloop.2.1

end Pass

end ParameterSolver
