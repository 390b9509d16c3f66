import ParameterSolver.Pass.Assertions
import ParameterSolver.Pass.Domains
import ParameterSolver.Pass.Leaves
import ParameterSolver.Proofs.Draft.Changes
import ParameterSolver.Proofs.Graph.Listing
import ParameterSolver.Proofs.Pass.Merging

/-! The passes over parameters, assertions and leaves do not fail on a graph that is in order, and
flattening does not if the graph is in the basis as well. -/

namespace ParameterSolver

open Draft

variable {α : Type} [Scalar α] {g : Generation α} {height level : NodeId → ℕ} {T : Set NodeId}
  {d : Draft α} {id : NodeId} {e : Expression}

/-- The graph is in order and does not run in circles. -/
structure Generation.Sound (g : Generation α) : Prop extends g.Orderly where
  acyclic : g.Acyclic

/-- The operands of an expression lie below it. -/
theorem Generation.Sound.below (hg : g.Sound) (hh : g.Heights height)
    (hn : g.node? id = some (.expression e)) {o : NodeId} (ho : o ∈ e.operands) :
    g.contains o ∧ height o < height id := by
  refine ⟨hg.contains hn ho, hh.operand id o ?_⟩
  rw [Generation.operands_of_node? hn]
  exact ho

namespace Pass

/-- The pass gives a graph that is in order. -/
def Gives (pass : Pass α) (g : Generation α) (Q : Revision α → Prop) : Prop :=
  ∀ deduplicate journal, ∃ rev journal', pass.apply deduplicate journal g = .ok (rev, journal') ∧
    rev.generation.Sound ∧ Q rev

/-- A pass gives a graph if its run leaves the draft sturdy. -/
theorem gives_of_run {pass : Pass α} {Q : Revision α → Prop} (hg : g.Sound)
    (hrun : ∀ height, g.Heights height → ∀ deduplicate journal, ∃ T level d,
      Runs pass.run (start g deduplicate journal) ⟨⟩ d ∧ Sturdy g height T level d ∧
      ∀ level' d', Sturdy g height T level' d' → (d.dirty → d'.dirty) →
        Q ⟨d'.output, d'.dirty, d'.mapping⟩) : pass.Gives g Q := by
  intro deduplicate journal
  obtain ⟨height, hh⟩ := hg.acyclic.exists_heights
  obtain ⟨T, level, d, hr, h, hQ⟩ := hrun height hh deduplicate journal
  obtain ⟨level', d', hr', h', hdirty⟩ := h.close hg.toOrderly hh
  refine ⟨⟨d'.output, d'.dirty, d'.mapping⟩, d'.journal, ?_, ⟨h'.orderly, h'.acyclic⟩,
    hQ level' d' h' hdirty⟩
  have hall : ExceptT.run (do pass.run; Draft.close) (start g deduplicate journal)
      = (.ok ⟨d'.output, d'.dirty, d'.mapping⟩, d') := runs_bind.2 ⟨⟨⟩, d, hr, hr'⟩
  unfold Pass.apply
  dsimp only
  rw [hall]

theorem constrainParameter_total (hg : g.Sound) (hh : g.Heights height)
    (h : Sturdy g height T level d) {q : Parameter α} (hn : g.node? id = some (.parameter q))
    (hT : id ∉ T) :
    ∃ level' d', Runs (constrainParameter id q) d ⟨⟩ d' ∧ Sturdy g height T level' d' := by
  have hid := Generation.contains_of_node? hn
  unfold constrainParameter
  split_ifs
  · exact ⟨level, d, runs_pure.2 ⟨rfl, rfl⟩, h⟩
  dsimp only
  obtain ⟨r, level₁, d₁, hr, h₁, -, -, hlands⟩ := h.editParameter hg.toOrderly hh hn hT
    fun p => { p with
      within := none
      domainApplied := true
      constrained := p.constrained || !(constraints q).isEmpty }
  cases r with
  | none => exact ⟨level₁, d₁, runs_bind.2 ⟨none, d₁, hr, runs_pure.2 ⟨rfl, rfl⟩⟩, h₁⟩
  | some out =>
    obtain ⟨hout, hlow⟩ := hlands out rfl
    obtain ⟨d₂, hr₂, level₂, h₂, -⟩ := exists_runs_forM (l := constraints q)
      (f := fun s => do
        Draft.log .trace "ohmcore::algorithms::domain"
          ((← get).input.describe id ++ " is constrained to " ++ s.render)
        discard (Draft.createExpression .isSubset [.output out, .literal s] true [id]))
      (P := fun _ d => ∃ level, Sturdy g height T level d ∧ d.output.contains out ∧
        level out < height id + 1)
      (fun done s rest _ d ⟨level, h, hout, hlow⟩ => by
        obtain ⟨c, level', d', hr, h', hgrows, -⟩ : Advances g height T (height id + 1)
            (Draft.createExpression .isSubset [.output out, .literal s] true [id]) level _ _ :=
          (h.noted _).createExpression hg.toOrderly hh hid (Nat.succ_pos _)
            (by simp [hout, hlow]) rfl rfl
        refine ⟨d', runs_get_bind.2 (runs_bind.2 ⟨⟨⟩, _, runs_log_of _ _ _ d,
          runs_discard.2 ⟨c, hr⟩⟩), level', h', hgrows.contains hout, ?_⟩
        rw [hgrows.level_eq hout]
        exact hlow) ⟨level₁, h₁, hout, hlow⟩
    exact ⟨level₂, d₂, runs_bind.2 ⟨some out, d₁, hr, hr₂⟩, h₂⟩

theorem gives_domains (hg : g.Sound) : (domains : Pass α).Gives g fun _ => True := by
  refine gives_of_run hg fun height hh deduplicate journal => ?_
  obtain ⟨d, hr, level, h⟩ := exists_runs_forM (l := g.parameters)
    (f := fun x => constrainParameter x.1 x.2) (P := fun _ d => ∃ level, Sturdy g height ∅ level d)
    (fun done x rest hl d ⟨level, h⟩ => by
      have hx : x ∈ g.parameters := hl ▸ by simp
      obtain ⟨level', d', hr, h'⟩ := constrainParameter_total hg hh h
        (Generation.mem_parameters.1 hx) (by simp)
      exact ⟨d', hr, level', h'⟩) ⟨fun _ => 0, sturdy_start g height _ deduplicate journal⟩
  exact ⟨∅, level, d, runs_get_bind.2 hr, h, fun _ _ _ _ => trivial⟩

theorem wrapAssertion_total (hg : g.Sound) (hh : g.Heights height)
    (h : Sturdy g height T level d) (hn : g.node? id = some (.expression e)) (hT : id ∉ T) :
    ∃ level' d', Runs (wrapAssertion id e) d ⟨⟩ d' ∧ Sturdy g height T level' d' := by
  have hid := Generation.contains_of_node? hn
  unfold wrapAssertion
  simp only [runs_get_bind]
  split_ifs
  · exact ⟨level, d, runs_pure.2 ⟨rfl, rfl⟩, h⟩
  have hbelow : ∀ a ∈ e.operands.map Operand.input, a.Below g height (height id) level d := by
    intro a ha
    obtain ⟨o, ho, rfl⟩ := List.mem_map.1 ha
    exact hg.below hh hn ho
  have harity : e.op.arity.accepts (e.operands.map (Operand.input (α := α))).length := by
    rw [List.length_map]
    exact (hg.node hn).arity e rfl
  obtain ⟨r, level₁, d₁, hr, h₁, -, hlands⟩ : ∃ r level' d', Runs (Draft.editExpression id
      { asserted := some false }) d r d' ∧ _ := h.editExpression hg.toOrderly hh hn hT rfl rfl
    (Or.inr rfl) hbelow harity
  cases r with
  | none => exact ⟨level₁, d₁, runs_bind.2 ⟨none, d₁, hr, runs_pure.2 ⟨rfl, rfl⟩⟩, h₁⟩
  | some inner =>
    obtain ⟨hinner, hlow⟩ := hlands inner rfl
    obtain ⟨c, level₂, d₂, hr₂, h₂, -, -⟩ : Advances g height T (height id + 1)
        (Draft.createExpression .is [.output inner, .literal (.truth true)] true [id]) level₁ d₁ _ :=
      h₁.createExpression hg.toOrderly hh hid (Nat.succ_pos _)
        (by simp [hinner, hlow]) rfl rfl
    exact ⟨level₂, d₂, runs_bind.2 ⟨some inner, d₁, hr, runs_discard.2 ⟨c, hr₂⟩⟩, h₂⟩

theorem gives_assertions (hg : g.Sound) : (assertions : Pass α).Gives g fun _ => True := by
  refine gives_of_run hg fun height hh deduplicate journal => ?_
  obtain ⟨d, hr, level, h⟩ := exists_runs_forM (l := g.expressions)
    (f := fun x => wrapAssertion x.1 x.2) (P := fun _ d => ∃ level, Sturdy g height ∅ level d)
    (fun done x rest hl d ⟨level, h⟩ => by
      have hx : x ∈ g.expressions := hl ▸ by simp
      obtain ⟨level', d', hr, h'⟩ := wrapAssertion_total hg hh h
        (Generation.mem_expressions.1 hx) (by simp)
      exact ⟨d', hr, level', h'⟩) ⟨fun _ => 0, sturdy_start g height _ deduplicate journal⟩
  exact ⟨∅, level, d, runs_get_bind.2 hr, h, fun _ _ _ _ => trivial⟩

/-- Stripping a leaf removes nothing, and a constant is always replaced. -/
theorem stripLeaf_total (hg : g.Sound) (hh : g.Heights height) (h : Sturdy g height T level d)
    {n : Node α} (hn : g.node? id = some n) (hT : id ∉ T) (hremoved : d.isRemoved id = false) :
    ∃ level' d', Runs (stripLeaf id n) d ⟨⟩ d' ∧ Sturdy g height T level' d' ∧
      d'.removed = d.removed ∧ (d.dirty → d'.dirty) ∧ ((∃ c, n = .constant c) → d'.dirty) := by
  have hid := Generation.contains_of_node? hn
  have hskip : ∃ level' d', Runs (pure ⟨⟩ : Edit α Unit) d ⟨⟩ d' ∧ Sturdy g height T level' d' ∧
      d'.removed = d.removed ∧ (d.dirty → d'.dirty) :=
    ⟨level, d, runs_pure.2 ⟨rfl, rfl⟩, h, rfl, fun h => h⟩
  have hreplace : (∀ p, n ≠ .parameter p) → ∀ s u, ∃ level' d',
      Runs (discard (Draft.replaceLeaf id (.literal s u))) d ⟨⟩ d' ∧
        Sturdy g height T level' d' ∧ d'.dirty ∧ d'.removed = d.removed := by
    intro hpar s u
    obtain ⟨k, level', d', hr, hrest⟩ := h.replaceLeaf hg.toOrderly hid hT hremoved s u
      fun p hp => hpar p (Option.some.inj (hn.symm.trans hp))
    exact ⟨level', d', runs_discard.2 ⟨k, hr⟩, hrest⟩
  cases n with
  | constant c =>
    obtain ⟨s, hs⟩ := (hg.node hn).constant c rfl
    obtain ⟨level', d', hr, h', hdirty, hrem⟩ := hreplace (by simp) s.stripped (carriedUnit? s)
    refine ⟨level', d', ?_, h', hrem, fun _ => hdirty, fun _ => hdirty⟩
    unfold stripLeaf
    dsimp only
    rw [hs]
    exact hr
  | literal s u =>
    unfold stripLeaf
    dsimp only
    split
    · rename_i unit _
      obtain ⟨level', d', hr, h', hdirty, hrem⟩ := hreplace (by simp) s.stripped (u.or (some unit))
      exact ⟨level', d', hr, h', hrem, fun _ => hdirty, by simp⟩
    · obtain ⟨level', d', hr, h', hrem, hdirty⟩ := hskip
      exact ⟨level', d', hr, h', hrem, hdirty, by simp⟩
  | parameter p =>
    unfold stripLeaf
    dsimp only
    split_ifs
    · obtain ⟨r, level', d', hr, h', hrem, hdirty, -⟩ := h.editParameter hg.toOrderly hh hn hT
        stripParameter
      exact ⟨level', d', runs_discard.2 ⟨r, hr⟩, h', hrem, hdirty, by simp⟩
    · obtain ⟨level', d', hr, h', hrem, hdirty⟩ := hskip
      exact ⟨level', d', hr, h', hrem, hdirty, by simp⟩
  | expression e =>
    obtain ⟨level', d', hr, h', hrem, hdirty⟩ := hskip
    exact ⟨level', d', hr, h', hrem, hdirty, by simp⟩

theorem gives_leaves (hg : g.Sound) : (leaves : Pass α).Gives g fun rev =>
    rev.dirty = false → ∀ id c, g.node? id ≠ some (.constant c) := by
  refine gives_of_run hg fun height hh deduplicate journal => ?_
  obtain ⟨d, hr, level, h, -, hdirty⟩ := exists_runs_forM (l := g.toList)
    (f := fun x => stripLeaf x.1 x.2.node)
    (P := fun done d => ∃ level, Sturdy g height ∅ level d ∧ (∀ i, d.isRemoved i = false) ∧
      ((∃ x ∈ done, ∃ c, x.2.node = .constant c) → d.dirty))
    (fun done x rest hl d ⟨level, h, hremoved, hdirty⟩ => by
      have hx : g.node? x.1 = some x.2.node := by
        rw [Generation.node?, Generation.mem_toList.1 (hl ▸ by simp : x ∈ g.toList)]
        rfl
      obtain ⟨level', d', hr, h', hrem, hmono, hconst⟩ := stripLeaf_total hg hh h hx (by simp)
        (hremoved x.1)
      refine ⟨d', hr, level', h', fun i => ?_, ?_⟩
      · rw [isRemoved, hrem]
        exact hremoved i
      · rintro ⟨y, hy, hc⟩
        rcases List.mem_append.1 hy with hy | hy
        · exact hmono (hdirty ⟨y, hy, hc⟩)
        · rw [List.mem_singleton.1 hy] at hc
          exact hconst hc)
    ⟨fun _ => 0, sturdy_start g height _ deduplicate journal,
      fun i => by simp [isRemoved, start, NodeMap.contains], by simp⟩
  refine ⟨∅, level, d, runs_get_bind.2 hr, h, fun level' d' _ hmono hclean id c hc => ?_⟩
  obtain ⟨x, hx, hxn⟩ := Option.map_eq_some_iff.1 hc
  have := hmono (hdirty ⟨(id, x), Generation.mem_toList.2 hx, c, hxn⟩)
  rw [this] at hclean
  cases hclean

/-! Flattening, on a graph in the basis. What an expression is left with are nodes below it, at least one,
and the operators that are flattened take any number of operands. -/

/-- All that flattening collects lies below the expression. -/
theorem below_flattened (hg : g.Sound) (hh : g.Heights height)
    (hn : g.node? id = some (.expression e)) :
    ∀ x, x ∈ (flattened g e).1 ∨ x ∈ (flattened g e).2 → g.contains x ∧ height x < height id := by
  have hops : ∀ o ∈ e.operands, g.contains o ∧ height o < height id := fun o ho => hg.below hh hn ho
  unfold flattened
  split_ifs
  · refine forall_flatten (fun o ho m hm => ⟨hg.closed o m hm, ?_⟩) _ hops (by simp)
    exact (hh.operand o m hm).trans ho.2
  · rintro x (hx | hx)
    · exact hops x hx
    · cases hx

theorem arity_of_flattens {op : Operator} (hc : op.isCanonical)
    (h : flattens op ∨ op.has .idempotent) : op.arity = .atLeast 1 := by
  cases op <;> first | rfl | (revert hc h; decide)

theorem exists_operand (hg : g.Sound) (hn : g.node? id = some (.expression e))
    (harity : e.op.arity = .atLeast 1) : ∃ o, o ∈ e.operands := by
  have haccepts := (hg.node hn).arity e rfl
  rw [harity] at haccepts
  obtain ⟨o, rest, hl⟩ := Arity.eq_cons haccepts
  exact ⟨o, by simp [hl]⟩

/-- Something is left. Otherwise the lowest of the merged nodes would have an operand that is merged
as well. -/
theorem keptOperands_ne_nil (hg : g.Sound) (hh : g.Heights height)
    (hn : g.node? id = some (.expression e)) (hroot : isAbsorbed g id = false)
    (harity : e.op.arity = .atLeast 1) : keptOperands g e ≠ [] := by
  suffices hleft : ∃ x, x ∈ (flattened g e).1 by
    obtain ⟨x, hx⟩ := hleft
    exact List.ne_nil_of_mem (mem_keptOperands.2 hx)
  by_contra hnone
  have hmerged : ∀ {l}, Covers (flattened g e) l → ∀ o ∈ l, o ∈ (flattened g e).2 :=
    fun hl o ho => (hl o ho).resolve_left fun hleft => hnone ⟨o, hleft⟩
  have hdescent : ∀ k, ∀ x ∈ (flattened g e).2, k ≤ height x := by
    intro k
    induction k with
    | zero => exact fun _ _ => Nat.zero_le _
    | succ k ih =>
      intro x hx
      obtain ⟨c, hc, hop⟩ := (collected_flattened hg.toLinked hn).same x hx
      obtain ⟨m, hm⟩ := exists_operand hg hc (hop ▸ harity)
      have hcovers := covers_flattened hg.toLinked hn hroot hx
      rw [Generation.operands_of_node? hc] at hcovers
      have hlow := (hg.below hh hc hm).2
      have hle := ih m (hmerged hcovers m hm)
      omega
  obtain ⟨o, ho⟩ := exists_operand hg hn harity
  have hle := hdescent (height o + 1) o (hmerged (covers_operands hg.toLinked hn hroot) o ho)
  omega

theorem dropMerged_total (hg : g.Sound) (h : Sturdy g height T level d) {l : List NodeId}
    (hl : ∀ o ∈ l, g.contains o) (out : NodeId) :
    ∃ d', Runs (dropMerged out l) d ⟨⟩ d' ∧ Sturdy g height T level d' := by
  have hremove : ∀ d, Sturdy g height T level d →
      ∃ d', Runs (l.forM Draft.remove) d ⟨⟩ d' ∧ Sturdy g height T level d' := fun d h =>
    exists_runs_forM (P := fun _ d => Sturdy g height T level d) (fun done o rest hl' d h => by
      obtain ⟨d', hr, h', -⟩ := h.remove (hl o (hl' ▸ by simp))
      exact ⟨d', hr, h'⟩) h
  unfold dropMerged
  cases l with
  | nil => exact hremove d h
  | cons o l =>
    obtain ⟨d₁, hr, h₁, -⟩ := h.absorb hg.toOrderly (List.cons_ne_nil o l) hl out
    obtain ⟨d₂, hr₂, h₂⟩ := hremove d₁ h₁
    exact ⟨d₂, runs_bind.2 ⟨⟨⟩, d₁, hr, hr₂⟩, h₂⟩

theorem compress_total (hg : g.Sound) (hc : ∀ id, ¬ g.Foreign id) (hh : g.Heights height)
    (h : Sturdy g height T level d) (hn : g.node? id = some (.expression e)) (hT : id ∉ T) :
    ∃ level' d', Runs (compress id e) d ⟨⟩ d' ∧ Sturdy g height T level' d' := by
  rw [compress_eq]
  simp only [runs_get_bind, h.input]
  split_ifs with hskip hsame
  · exact ⟨level, d, runs_pure.2 ⟨rfl, rfl⟩, h⟩
  · exact ⟨level, d, runs_pure.2 ⟨rfl, rfl⟩, h⟩
  simp only [Bool.or_eq_true, Bool.not_eq_true', not_or, Bool.not_eq_false, Bool.not_eq_true]
    at hskip
  obtain ⟨hop, hroot⟩ := hskip
  have hcanon : e.op.isCanonical := by
    by_contra hforeign
    exact hc id ⟨e, hn, Bool.eq_false_iff.2 hforeign⟩
  have harity := arity_of_flattens hcanon (by simpa using hop)
  have hbelow := below_flattened hg hh hn
  have hkept : ∀ a ∈ (keptOperands g e).map Operand.input, a.Below g height (height id) level d := by
    intro a ha
    obtain ⟨o, ho, rfl⟩ := List.mem_map.1 ha
    exact hbelow o (Or.inl (mem_keptOperands.1 ho))
  have haccepts : e.op.arity.accepts ((keptOperands g e).map (Operand.input (α := α))).length := by
    have hpos := List.length_pos_iff.2 (keptOperands_ne_nil hg hh hn hroot harity)
    rw [harity, List.length_map]
    exact decide_eq_true hpos
  obtain ⟨r, level₁, d₁, hr, h₁, -⟩ : ∃ r level' d', Runs (Draft.editExpression id
      { operands := some ((keptOperands g e).map .input) }) d r d' ∧ _ :=
    h.editExpression hg.toOrderly hh hn hT rfl rfl (Or.inr rfl) hkept haccepts
  cases r with
  | none => exact ⟨level₁, d₁, runs_bind.2 ⟨none, d₁, hr, runs_pure.2 ⟨rfl, rfl⟩⟩, h₁⟩
  | some out =>
    obtain ⟨d₂, hr₂, h₂⟩ := dropMerged_total hg h₁ (fun o ho => (hbelow o (Or.inr ho)).1) out
    exact ⟨level₁, d₂, runs_bind.2 ⟨some out, d₁, hr, hr₂⟩, h₂⟩

theorem gives_nesting (hg : g.Sound) (hc : ∀ id, ¬ g.Foreign id) :
    (nesting : Pass α).Gives g fun rev => ∀ id, ¬ rev.generation.Foreign id := by
  refine gives_of_run hg fun height hh deduplicate journal => ?_
  obtain ⟨d, hr, level, h⟩ := exists_runs_forM (l := g.expressions)
    (f := fun x => compress x.1 x.2) (P := fun _ d => ∃ level, Sturdy g height ∅ level d)
    (fun done x rest hl d ⟨level, h⟩ => by
      have hx : x ∈ g.expressions := hl ▸ by simp
      obtain ⟨level', d', hr, h'⟩ := compress_total hg hc hh h
        (Generation.mem_expressions.1 hx) (by simp)
      exact ⟨d', hr, level', h'⟩) ⟨fun _ => 0, sturdy_start g height _ deduplicate journal⟩
  refine ⟨∅, level, d, runs_get_bind.2 hr, h, ?_⟩
  rintro level' d' h' - j ⟨e, hj, hforeign⟩
  obtain ⟨i, -, hi, -⟩ := h'.canonical j e hj hforeign
  exact hc i hi

end Pass

end ParameterSolver
