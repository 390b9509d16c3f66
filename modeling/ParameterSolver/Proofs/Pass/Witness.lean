import ParameterSolver.Proofs.Draft.Redirect
import ParameterSolver.Proofs.Pass.Expansions

/-! The least and the greatest operand as a new parameter. That the parameter is one of the operands
and bounds them all is asserted, and says exactly that it has the value of the expression. -/

namespace ParameterSolver

open Exact ParameterSolver.Valuation Operand Draft

namespace Pass

variable {g : Generation Exact} {T : Set NodeId} {P : Set (NodeId × NodeId)} {d d' : Draft Exact}
  {id c : NodeId} {v w : Valuation} {operands : List NodeId}

theorem values_of_stands {js : List NodeId}
    (h : List.Forall₂ (Operand.Stands d) (operands.map .input) js)
    (ha : d.Agrees v w) : js.map w = operands.map v := by
  induction operands generalizing js with
  | nil =>
    cases h
    rfl
  | cons o l ih =>
    obtain _ | ⟨hj, h⟩ := h
    rw [List.map_cons, List.map_cons, ha o _ hj, ih h]

/-- The collection of the values of some nodes is read as their values. -/
theorem reads_union (h : d.Built .union (operands.map .input) false c)
    (ha : d.Agrees v w) {r : Reading} (hr : Reads g v d w (.output c) r) :
    r.extent = { y | y ∈ operands.map v } ∧ r.spread = { y | y ∈ operands.map v } := by
  obtain ⟨-, js, hc, hjs⟩ := h
  have hspread : spread d.output w c = { y | y ∈ operands.map v } := by
    rw [← values_of_stands hjs ha]
    ext y
    rw [spread, Set.mem_ofPred_eq, members_of_isUnion (Generation.expression?_eq.2 hc) rfl,
      Set.mem_ofPred_eq]
    simp [eq_comm]
  have hgiven : d.output.givenSet? c = none := by
    rw [Generation.givenSet?, Generation.given?, hc]
    rfl
  rw [show r = _ from hr, listed, hgiven, hspread]
  exact ⟨rfl, rfl⟩

/-- A parameter is read as its value. -/
theorem reads_parameter {p : Parameter Exact} (h : d.output.node? c = some (.parameter p))
    {r : Reading} (hr : Reads g v d w (.output c) r) :
    r.value = w c ∧ r.spread = { y | y ∈ [w c] } := by
  have hu : ¬ d.output.isUnion c := by simp [isUnion_iff_of_node? h]
  rw [show r = _ from hr]
  refine ⟨rfl, ?_⟩
  ext y
  simp [listed, spread, members_of_not_isUnion hu]

def extremum (least : Bool) : Operator := if least then .min else .max

theorem extremum_arithmetic (least : Bool) : (extremum least).has .arithmetic := by
  cases least <;> rfl

theorem combines_extremum {least : Bool} {ys : List (Value ℚ)} {x : Value ℚ} :
    Combines (extremum least) ys x ↔ x ∈ ys ∧ Compares (· ≥ ·)
      { y | y ∈ if least then ys else [x] } { y | y ∈ if least then [x] else ys }
      (.boolean true) := by
  cases least with
  | true => exact Combines.min_iff
  | false => exact Combines.max_iff

theorem denotes_extremum {least : Bool} {l : List NodeId} {x : Value ℚ} :
    (extremum least).relaxed.Denotes (l.map (listed g v)) x ↔
      Combines (extremum least) (l.map v) x := by
  have harith := extremum_arithmetic least
  rw [relaxed_of_combines (Or.inl harith), Operator.denotes_iff_combines (Or.inl harith),
    map_value_listed]

/-- The comparison of the new parameter with the operands. -/
theorem denotes_bounds {least : Bool} {out : NodeId} {p : Parameter Exact}
    (hc : d.Built .union (operands.map .input) false c)
    (hp : d.output.node? out = some (.parameter p)) (ha : d.Agrees v w) {rs : List Reading}
    (hrs : List.Forall₂ (Reads g v d w)
      (if least then [.output c, .output out] else [.output out, .output c]) rs) {x : Value ℚ} :
    Operator.greaterOrEqual.Denotes rs x ↔ Compares (· ≥ ·)
      { y | y ∈ if least then operands.map v else [w out] }
      { y | y ∈ if least then [w out] else operands.map v } x := by
  cases least with
  | true =>
    obtain _ | ⟨h1, _ | ⟨h2, _ | _⟩⟩ := hrs
    rw [Operator.Denotes, (reads_union hc ha h1).2, (reads_parameter hp h2).2]
    rfl
  | false =>
    obtain _ | ⟨h1, _ | ⟨h2, _ | _⟩⟩ := hrs
    rw [Operator.Denotes, (reads_parameter hp h1).2, (reads_union hc ha h2).2]
    rfl

/-- The membership of the new parameter in the collection of the operands. -/
theorem denotes_membership {out : NodeId} {p : Parameter Exact}
    (hc : d.Built .union (operands.map .input) false c)
    (hp : d.output.node? out = some (.parameter p)) (ha : d.Agrees v w) {rs : List Reading}
    (hrs : List.Forall₂ (Reads g v d w) [.output out, .output c] rs) {x : Value ℚ} :
    Operator.isSubset.Denotes rs x ↔ x.Says (w out ∈ operands.map v) := by
  obtain _ | ⟨h1, _ | ⟨h2, _ | _⟩⟩ := hrs
  rw [Operator.Denotes, (reads_parameter hp h1).1, (reads_union hc ha h2).1]
  rfl

theorem runs_createParameter {p : Parameter Exact} {sources : List NodeId} {r : NodeId}
    (hr : Runs (Draft.createParameter p sources) d r d') :
    ∃ o', d.output.Inserted r (.parameter p) o' ∧ Alike { d with output := o' } d' := by
  unfold Draft.createParameter markDirty at hr
  obtain ⟨q, d₁, hq, hr₁⟩ := runs_bind.1 hr
  rw [eq_of_runs_provenanceOf hq, runs_modify_bind] at hr₁
  obtain ⟨o', hi, rfl⟩ := runs_insert hr₁
  exact ⟨o', hi, rfl, rfl, rfl, rfl, rfl⟩

theorem settled_witness (hg : g.Tame) (h : Simulates g ∅ T (fun _ => True) ∅ d) (hT : id ∉ T)
    {r : Option Unit} {asserted : Bool} (least : Bool)
    (hn : g.node? id = some (.expression ⟨extremum least, operands, asserted⟩))
    (hr : LawRuns (witness id least operands) d r d') : Settled g T id r d' := by
  obtain ⟨-, hgath⟩ := hg.admits id _ hn _ rfl
  obtain ⟨rfl, hunion⟩ := hgath (show extremum least ∈ Operator.gathers by cases least <;> decide)
  have hu : extremum least ≠ .union := by cases least <;> decide
  have hvalue : ∀ {v}, Models g v → Combines (extremum least) (operands.map v) (v id) := fun hv =>
    denotes_extremum.1 (hv id _ hn).1
  unfold witness at hr
  obtain ⟨_, d₁, ⟨h₁, -, c, rfl, hc⟩, hr₁⟩ := hr.step fun r d₁ hr =>
    simulates_build hg h (fit_inputs hg hn fun o ho => ho)
      ⟨by decide, fun _ => ⟨rfl, fun a ha => by
        obtain ⟨o, ho, rfl⟩ := List.mem_map.1 ha
        exact ⟨o, rfl, hunion o ho⟩⟩⟩
      (fun d₂ _ _ v w hm rs hrs => by
        refine ⟨.boolean true, fun hnil => ?_⟩
        have hmem := (combines_extremum.1 (hvalue hm.input)).1
        rw [reads_inputs hrs, List.map_eq_nil_iff] at hnil
        simp_all) hr
  obtain ⟨out, d₂, ⟨o', hi, hal⟩, hr₂⟩ := hr₁.step (Q := fun out d₂ => ∃ o',
      d₁.output.Inserted out (.parameter .real) o' ∧ Alike { d₁ with output := o' } d₂)
    fun r d₂ hr => by
      obtain ⟨out, hout, rfl⟩ := lawRuns_lift.1 hr
      exact ⟨out, rfl, runs_createParameter hout⟩
  have h₂ := (h₁.insert hi (Generation.admits_leaf (by simp)) {id} fun v w hm => ⟨v id, by
    obtain ⟨qs, q, -, -, hq⟩ := (Combines.iff_arithmetic (extremum_arithmetic least)).1 (hvalue hm.input)
    rw [hq]
    exact ⟨ValueSet.number_mem.2 (Numbers.mem_unbounded q), by simp [Parameter.real]⟩, by simp⟩).alike hal
  have hext₂ := (extends_insert hi).trans hal.extends
  have hout : d₂.output.node? out = some (.parameter .real) := hal.extends.node? _ _ hi.node?_self
  have hspare : d₂.Spare out := hal.extends.spare _ (Generation.contains_of_node? hi.node?_self)
    (h₁.spare_fresh hi)
  have hc₂ := hc.mono hext₂
  obtain ⟨_, d₃, ⟨h₃, hext₃, c₃, hc₃⟩, hr₃⟩ := hr₂.step (Q := fun _ d₃ =>
      Simulates g ∅ T (fun _ => True) _ d₃ ∧ Extends d₂ d₃ ∧
        ∃ c₃, d₃.Built .isSubset [.output out, .output c] true c₃) fun r d₃ hr => by
    obtain ⟨x, hx, rfl⟩ := lawRuns_discard_lift.1 hr
    obtain ⟨h₃, hext₃, c₃, -, hc₃⟩ := h₂.createExpression hg (by simp [Fit])
      (writes_of_not_gathers (by decide) (by decide)) (fun d₃ hext hf v w hm rs hrs => by
        refine ⟨.boolean true, (denotes_membership (hc₂.mono hext) (hext.node? _ _ hout) hm.agrees
          hrs).2 ⟨true, rfl, iff_of_true rfl ?_⟩, fun _ => rfl⟩
        rw [hm.pinned (id, out) (Or.inr ⟨rfl, rfl⟩)]
        exact (combines_extremum.1 (hvalue hm.input)).1) hx
    exact ⟨(), rfl, h₃, hext₃, c₃, hc₃⟩
  obtain ⟨_, d₄, ⟨h₄, hext₄, c₄, hc₄⟩, hr₄⟩ := hr₃.step (Q := fun _ d₄ =>
      Simulates g ∅ T (fun _ => True) _ d₄ ∧ Extends d₃ d₄ ∧ ∃ c₄, d₄.Built .greaterOrEqual
        (if least then [.output c, .output out] else [.output out, .output c]) true c₄)
    fun r d₄ hr => by
    obtain ⟨x, hx, rfl⟩ := lawRuns_discard_lift.1 hr
    obtain ⟨h₄, hext₄, c₄, -, hc₄⟩ := h₃.createExpression hg (by cases least <;> simp [Fit])
      (writes_of_not_gathers (by decide) (by decide)) (fun d₄ hext hf v w hm rs hrs => by
        refine ⟨.boolean true, (denotes_bounds (hc₂.mono (hext₃.trans hext))
          ((hext₃.trans hext).node? _ _ hout) hm.agrees hrs).2 ?_, fun _ => rfl⟩
        rw [hm.pinned (id, out) (Or.inr ⟨rfl, rfl⟩)]
        exact (combines_extremum.1 (hvalue hm.input)).2) hx
    exact ⟨(), rfl, h₄, hext₄, c₄, hc₄⟩
  obtain ⟨_, d₅, h₅, hr₅⟩ := hr₄.step (Q := fun _ d₅ =>
      Simulates g ∅ (T ∪ {id}) (fun _ => True) ∅ d₅) fun r d₅ hr => by
    obtain ⟨x, hx, rfl⟩ := lawRuns_lift.1 hr
    have hext₂₄ := hext₃.trans hext₄
    refine ⟨(), rfl, h₄.redirect hn hu (by simp) hT (hext₂₄.node? _ _ hout)
      (hext₂₄.spare _ (Generation.contains_of_node? hout) hspare) (Or.inr ⟨rfl, rfl⟩)
      (fun v w hs ha hw _ => ⟨denotes_extremum.2 (combines_extremum.2 ⟨?_, ?_⟩), by simp⟩) hx⟩
    · obtain ⟨rs, hrs, hd, ht⟩ := (hc₃.mono hext₄).denotes h₄.toFrame ha hs
      obtain ⟨b, hb, hiff⟩ := (denotes_membership (hc₂.mono hext₂₄) (hext₂₄.node? _ _ hout) ha hrs).1 hd
      rw [ht rfl] at hb
      cases hb
      rw [← hw]
      exact hiff.1 rfl
    · obtain ⟨rs, hrs, hd, ht⟩ := hc₄.denotes h₄.toFrame ha hs
      have hbounds := (denotes_bounds (hc₂.mono hext₂₄) (hext₂₄.node? _ _ hout) ha hrs).1 hd
      rw [ht rfl, hw] at hbounds
      exact hbounds
  rw [lawRuns_get_bind] at hr₅
  obtain ⟨x, hx, rfl⟩ := lawRuns_lift.1 hr₅
  exact ⟨rfl, h₅.alike (runs_log hx)⟩

end Pass

end ParameterSolver
