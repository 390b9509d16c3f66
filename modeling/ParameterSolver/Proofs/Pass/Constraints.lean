import ParameterSolver.Pass.Assertions
import ParameterSolver.Pass.Domains
import ParameterSolver.Pass.Leaves
import ParameterSolver.Proofs.Pass.Basic

/-! What a parameter has to lie in and what has to hold become new assertions. The node that carried
the condition is freed of it first, so models carry back only once the assertion is there. Leaves
without their units have the same values, since values are numbers in base units. -/

namespace ParameterSolver

open Exact ParameterSolver.Valuation Operand

namespace Draft

variable {g : Generation Exact} {R T : Set NodeId} {K K' : Valuation → Prop}
  {P : Set (NodeId × NodeId)} {d d' : Draft Exact} {id j c : NodeId} {v w : Valuation}

/-- An asserted expression that says of a node that its value lies in a set. -/
theorem Built.mem_of_isSubset {s : ValueSet Exact} (hf : Frame g R T d)
    (h : d.Built .isSubset [.output j, .literal s] true c) (hj : d.mapping.get? id = some j)
    (ha : d.Agrees v w) (hs : SparesHold d w) : v id ∈ s := by
  obtain ⟨rs, hrs, hd, htrue⟩ := h.denotes hf ha hs
  obtain _ | ⟨h1, _ | ⟨h2, _ | _⟩⟩ := hrs
  obtain ⟨b, hb, hiff⟩ := hd
  rw [hf.reads_output ha hj h1, h2.1] at hiff
  rw [htrue rfl] at hb
  cases hb
  exact hiff.1 rfl

/-- An asserted expression that says of a node that it is true. -/
theorem Built.eq_true_of_is (hf : Frame g R T d)
    (h : d.Built .is [.output j, .literal (.truth true)] true c) (hj : d.mapping.get? id = some j)
    (ha : d.Agrees v w) (hs : SparesHold d w) : v id = .boolean true := by
  obtain ⟨rs, hrs, hd, htrue⟩ := h.denotes hf ha hs
  obtain _ | ⟨h1, _ | ⟨h2, _ | _⟩⟩ := hrs
  obtain ⟨b, hb, hiff⟩ := hd
  rw [hf.reads_output ha hj h1] at hiff
  rw [htrue rfl] at hb
  cases hb
  exact (hiff.1 rfl).trans (ValueSet.mem_truth.1 (h2.2.2 ⟨_, ValueSet.mem_truth.2 rfl⟩))

end Draft

namespace ValueSet

variable {s : ValueSet Exact} {x : Value ℚ}

@[simp] theorem mem_stripped : x ∈ s.stripped ↔ x ∈ s := by
  cases s with
  | numeric q => cases x <;> rfl
  | _ => rfl

end ValueSet

namespace Pass

open Draft

variable {g : Generation Exact} {T : Set NodeId} {d d' : Draft Exact} {id : NodeId}

theorem mem_of_mem_constraints {p : Parameter Exact} {x : Value ℚ}
    (h : x ∈ p.values ∧ ∀ s ∈ p.within, x ∈ s) : ∀ s ∈ constraints p, x ∈ s := by
  intro s hs
  rcases List.mem_append.1 hs with hs | hs
  · exact h.2 s (by simpa using hs)
  · split_ifs at hs with hd
    · cases hs
    · unfold Domain.restriction? at hs
      split at hs
      · rw [List.mem_singleton.1 (show s ∈ [p.domain.values p.unit] from hs)]
        exact h.1
      · cases hs

theorem simulates_constrainParameter (hg : g.Tame) {p : Parameter Exact} {r : PUnit}
    (h : Simulates g ∅ T (fun _ => True) ∅ d) (hT : id ∉ T)
    (hn : g.node? id = some (.parameter p)) (hr : Runs (constrainParameter id p) d r d') :
    Simulates g ∅ (T ∪ {id}) (fun _ => True) ∅ d' := by
  unfold constrainParameter at hr
  split_ifs at hr
  · obtain ⟨-, rfl⟩ := runs_pure.1 hr
    exact h.mono Set.subset_union_left
  obtain ⟨_, d₁, hedit, hr₁⟩ := runs_bind.1 hr
  obtain ⟨h₁, out, rfl, hout⟩ := h.editParameter hg hn (by simp) hT
    (fun (v : Valuation) (_ : ∀ s ∈ p.within, v id ∈ s) => trivial)
    (fun x hx => ⟨hx.1, by simp⟩) (fun v hK hv => ⟨hv.1, hK⟩) hedit
  have hloop := runs_forM (l := constraints p)
    (P := fun done d => Simulates g ∅ (T ∪ {id}) (fun v => ∀ s ∈ p.within, v id ∈ s) ∅ d ∧
      d.mapping.get? id = some out ∧
      ∀ s ∈ done, ∃ c, d.Built .isSubset [.output out, .literal s] true c)
    (fun done s rest hl d d' r ⟨h, hj, hdone⟩ hr => by
      rw [runs_get_bind] at hr
      obtain ⟨_, d₂, hlog, hr₂⟩ := runs_bind.1 hr
      obtain ⟨r', hcreate⟩ := runs_discard.1 hr₂
      have halike := runs_log hlog
      obtain ⟨h₃, hext, c, -, hc⟩ := (h.alike halike).createExpression hg (by simp [Operand.Fit])
        (writes_of_not_gathers (by decide) (by decide)) (fun d₁ hext hf v w hm rs hrs => by
          obtain _ | ⟨h1, _ | ⟨h2, _ | _⟩⟩ := hrs
          refine ⟨.boolean true, ⟨true, rfl, iff_of_true rfl ?_⟩, fun _ => rfl⟩
          rw [hf.reads_output hm.agrees (hext.mapping id out (by rw [halike.mapping, hj])) h1, h2.1]
          exact mem_of_mem_constraints (hm.input id _ hn) s (hl ▸ by simp)) hcreate
      have hext' := halike.extends.trans hext
      refine ⟨h₃, hext'.mapping id out hj, fun t ht => ?_⟩
      rcases List.mem_append.1 ht with ht | ht
      · obtain ⟨c, hc⟩ := hdone t ht
        exact ⟨c, hc.mono hext'⟩
      · rw [List.mem_singleton.1 ht]
        exact ⟨c, hc⟩) (List.nil_append _) ⟨h₁, hout, by simp⟩ hr₁
  obtain ⟨h₂, hj, hbuilt⟩ := hloop
  refine h₂.discharge fun v w hw ha _ s hs => ?_
  obtain ⟨c, hc⟩ := hbuilt s (List.mem_append_left _ (by simpa using hs))
  exact hc.mem_of_isSubset h₂.toFrame hj ha fun j n hn _ => hw j n hn

theorem refines_domains (hg : g.Tame) {deduplicate : Bool} {journal journal' : Journal}
    {rev : Revision Exact} (h : domains.apply deduplicate journal g = .ok (rev, journal')) :
    Refines g rev.generation rev.mapping := by
  refine refines_of_apply hg (fun d d' hd hr => ?_) h
  unfold domains at hr
  dsimp only at hr
  rw [runs_get_bind, hd.input] at hr
  refine hd.forM Generation.nodup_parameters (fun x hx T d d' r hT h hr => ?_) hr
  exact simulates_constrainParameter hg h hT (Generation.mem_parameters.1 hx) hr

theorem simulates_wrapAssertion (hg : g.Tame) {e : Expression} {r : PUnit}
    (h : Simulates g ∅ T (fun _ => True) ∅ d) (hT : id ∉ T)
    (hn : g.node? id = some (.expression e)) (hr : Runs (wrapAssertion id e) d r d') :
    Simulates g ∅ (T ∪ {id}) (fun _ => True) ∅ d' := by
  unfold wrapAssertion at hr
  rw [runs_get_bind] at hr
  split_ifs at hr with hskip
  · obtain ⟨-, rfl⟩ := runs_pure.1 hr
    exact h.mono Set.subset_union_left
  simp only [Bool.or_eq_true, Bool.not_eq_true', not_or, Bool.not_eq_false] at hskip
  obtain ⟨⟨hassert, hpred⟩, -⟩ := hskip
  have hnu : e.op ≠ .union := by
    intro hop
    rw [hop] at hpred
    exact absurd hpred (by decide)
  obtain ⟨_, d₁, hedit, hr₁⟩ := runs_bind.1 hr
  obtain ⟨hmeant, hgath⟩ := hg.admits id _ hn e rfl
  obtain ⟨h₁, inner, rfl, hj⟩ := h.editExpression hg hn (by simp) hT hedit
    (fun (v : Valuation) (_ : v id = .boolean true) => trivial) rfl rfl rfl
    (by
      rintro a ha
      obtain ⟨o, ho, rfl⟩ := List.mem_map.1 ha
      exact ⟨hg.linked.contains hn ho, by simp⟩)
    ⟨hmeant, fun hop => ⟨rfl, fun a ha => by
      obtain ⟨o, ho, rfl⟩ := List.mem_map.1 ha
      exact ⟨o, rfl, (hgath hop).2 o ho⟩⟩⟩
    (fun d₁ js _ => fills_of_not_union hnu hnu)
    (fun d₁ _ _ v w hm rs hrs => by
      rw [reads_inputs hrs]
      exact ⟨(hm.input id _ hn).1, by simp⟩)
    (fun d₁ _ _ v w _ _ hK rs hrs hd _ => by
      rw [reads_inputs hrs] at hd
      exact ⟨hd, fun _ => hK⟩)
  obtain ⟨r', hcreate⟩ := runs_discard.1 hr₁
  obtain ⟨h₂, hext, c, -, hc⟩ := h₁.createExpression hg (by simp [Operand.Fit])
    (writes_of_not_gathers (by decide) (by decide)) (fun d₁ hext hf v w hm rs hrs => by
      obtain _ | ⟨h1, _ | ⟨h2, _ | _⟩⟩ := hrs
      refine ⟨.boolean true, ⟨true, rfl, iff_of_true rfl ?_⟩, fun _ => rfl⟩
      rw [hf.reads_output hm.agrees (hext.mapping id inner hj) h1,
        ValueSet.mem_truth.1 (h2.2.2 ⟨_, ValueSet.mem_truth.2 rfl⟩)]
      exact (hm.input id _ hn).2 hassert) hcreate
  refine h₂.discharge fun v w hw ha _ => ?_
  exact hc.eq_true_of_is h₂.toFrame (hext.mapping id inner hj) ha fun j n hn _ => hw j n hn

theorem refines_assertions (hg : g.Tame) {deduplicate : Bool} {journal journal' : Journal}
    {rev : Revision Exact} (h : assertions.apply deduplicate journal g = .ok (rev, journal')) :
    Refines g rev.generation rev.mapping := by
  refine refines_of_apply hg (fun d d' hd hr => ?_) h
  unfold assertions at hr
  dsimp only at hr
  rw [runs_get_bind, hd.input] at hr
  refine hd.forM Generation.nodup_expressions (fun x hx T d d' r hT h hr => ?_) hr
  exact simulates_wrapAssertion hg h hT (Generation.mem_expressions.1 hx) hr

theorem mem_values_stripParameter {p : Parameter Exact} {x : Value ℚ} :
    x ∈ (stripParameter p).values ↔ x ∈ p.values := by
  have hvalues : ∀ (dom : Domain) (u u' : MeasureUnit Exact),
      x ∈ dom.values u → x ∈ dom.values u' := by
    intro dom u u' hx
    cases dom with
    | numbers negative zero integer =>
      cases negative <;> cases zero <;> cases x <;> exact hx
    | _ => exact hx
  exact ⟨hvalues p.domain _ _, hvalues p.domain _ _⟩

theorem simulates_stripLeaf (hg : g.Tame) {n : Node Exact} {r : PUnit}
    (h : Simulates g ∅ T (fun _ => True) ∅ d) (hT : id ∉ T) (hn : g.node? id = some n)
    (hr : Runs (stripLeaf id n) d r d') :
    Simulates g ∅ (T ∪ {id}) (fun _ => True) ∅ d' := by
  cases n with
  | constant c =>
    simp only [stripLeaf] at hr
    split at hr
    · rename_i value hvalue
      obtain ⟨r', hr⟩ := runs_discard.1 hr
      have hgiven : (Node.constant c).given? = some value := by
        rw [Node.given?, hvalue]
        rfl
      refine h.replaceLeaf hn (by simp) hT ?_ (fun read x => ?_) hr
      · rw [Draft.givenSet?, hgiven]
        simp
      · simp [Node.Holds, Node.Allows, hgiven]
    · exact absurd hr runs_throw
  | literal s u =>
    simp only [stripLeaf] at hr
    split at hr
    · obtain ⟨r', hr⟩ := runs_discard.1 hr
      refine h.replaceLeaf hn (by simp) hT ?_ (fun read x => ?_) hr
      · simp [Draft.givenSet?, Node.given?]
      · simp [Node.Holds, Node.Allows, Node.given?]
    · obtain ⟨-, rfl⟩ := runs_pure.1 hr
      exact h.mono Set.subset_union_left
  | parameter p =>
    simp only [stripLeaf] at hr
    split_ifs at hr
    · obtain ⟨r', hr⟩ := runs_discard.1 hr
      refine (h.editParameter hg hn (by simp) hT (fun _ h => h) (fun x hx => ?_) (fun v _ hv => ?_)
        hr).1
      · refine ⟨mem_values_stripParameter.2 hx.1, fun s hs => ?_⟩
        obtain ⟨t, ht, rfl⟩ := Option.map_eq_some_iff.1 hs
        exact ValueSet.mem_stripped.2 (hx.2 t ht)
      · refine ⟨mem_values_stripParameter.1 hv.1, fun s hs => ?_⟩
        exact ValueSet.mem_stripped.1 (hv.2 s.stripped (Option.map_eq_some_iff.2 ⟨s, hs, rfl⟩))
    · obtain ⟨-, rfl⟩ := runs_pure.1 hr
      exact h.mono Set.subset_union_left
  | expression e =>
    obtain ⟨-, rfl⟩ := runs_pure.1 hr
    exact h.mono Set.subset_union_left

theorem refines_leaves (hg : g.Tame) {deduplicate : Bool} {journal journal' : Journal}
    {rev : Revision Exact} (h : leaves.apply deduplicate journal g = .ok (rev, journal')) :
    Refines g rev.generation rev.mapping := by
  refine refines_of_apply hg (fun d d' hd hr => ?_) h
  unfold leaves at hr
  dsimp only at hr
  rw [runs_get_bind, hd.input] at hr
  refine hd.forM Generation.nodup_toList (fun x hx T d d' r hT h hr => ?_) hr
  refine simulates_stripLeaf hg h hT ?_ hr
  rw [Generation.node?, Generation.mem_toList.1 hx]
  rfl

end Pass

end ParameterSolver
