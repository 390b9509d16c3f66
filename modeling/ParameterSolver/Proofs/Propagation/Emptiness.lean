import ParameterSolver.Analysis
import ParameterSolver.Proofs.Blueprint.Reachable
import ParameterSolver.Proofs.Propagation.Steps
import ParameterSolver.Scalar.Machine

/-! Where a node without values gets its emptiness from. A node that loses its last value is reported
unless an operand had none before it. So as long as nothing is reported, emptiness only comes up from
leaves that had no value to begin with, and these are reported by nobody. -/

namespace ParameterSolver

variable {α : Type} [Scalar α]

theorem ValueSet.isEmpty_of_inter {s t u : ValueSet α} (h : s.inter t = .ok u) (hs : s.isEmpty) :
    u.isEmpty := by
  cases s with
  | numeric a =>
    cases t <;> try cases h
    rename_i b
    simp only [inter, Quantities.inter, Quantities.combine, Quantities.requireSameDimension] at h
    split_ifs at h <;> cases h
    have hbase : a.base.intervals = [] := List.isEmpty_iff.1 hs
    simp [isEmpty, Quantities.isEmpty, Numbers.isEmpty, Numbers.inter, hbase, Numbers.overlaps,
      Numbers.ofIntervals]
  | boolean a =>
    cases t <;> cases h
    simp_all [isEmpty, Truths.isEmpty, Truths.inter]
  | enum a =>
    cases t <;> try cases h
    rename_i b
    simp only [inter, Choices.inter, Choices.combine, Choices.requireSame] at h
    split_ifs at h <;> cases h
    have hvalues : a.values.toList = [] := List.isEmpty_iff.1 hs
    simp [isEmpty, Choices.isEmpty, SortedSet.isEmpty, SortedSet.inter, hvalues]
  | text a =>
    cases t <;> cases h
    rename_i b
    cases a with
    | allBut l => cases hs
    | only l =>
      have hvalues : l.toList = [] := List.isEmpty_iff.1 hs
      cases b <;> simp [isEmpty, Texts.isEmpty, Texts.inter, SortedSet.isEmpty, SortedSet.inter,
        SortedSet.diff, hvalues]

/-- The leaf has no value before anything is learnt. -/
def Node.startsEmpty (n : Node α) : Bool := (Knowledge.initial? n).any ValueSet.isEmpty

/-- Some leaf that the node is made of has no value to begin with. -/
def Generation.Barren (g : Generation α) (id : NodeId) : Prop :=
  ∃ leaf n, Relation.ReflTransGen g.Uses id leaf ∧ g.node? leaf = some n ∧ n.startsEmpty

namespace Knowledge

variable {g : Generation α} {k k' : Knowledge α} {id j : NodeId} {because : Provenance}
  {s bound next : ValueSet α} {n : Node α}

omit [Scalar α] in
theorem isEmpty_iff : k.isEmpty id ↔ ∃ s, k.value? id = some s ∧ s.isEmpty := by
  simp [isEmpty, Option.any_eq_true]

/-- As long as nothing is reported, a node without values is made of a barren leaf. -/
def Rooted (g : Generation α) (k : Knowledge α) : Prop :=
  k.emptied = [] → ∀ id, k.isEmpty id → g.Barren id

theorem Rooted.restrict (h : Rooted g k) (hid : id ∉ g.operands id) :
    Rooted g (restrict g because k id bound) := by
  unfold Knowledge.restrict
  split
  · exact h
  · rename_i next _
    dsimp only
    split_ifs with hreport
    · intro hnil
      simp at hnil
    · intro hnil j hj
      obtain ⟨s, hs, hempty⟩ := isEmpty_iff.1 hj
      rcases NodeMap.get?_insert_cases hs with ⟨rfl, rfl⟩ | hold
      · -- the node is not reported, so it had no value before or an operand has none
        by_cases hbefore : k.isEmpty j
        · exact h hnil j hbefore
        have hstarved : ∃ o ∈ g.operands j, k.isEmpty o := by
          by_contra hfed
          push Not at hfed
          refine hreport ?_
          have hany : (g.operands j).any (isEmpty ({ k with
              values := k.values.insert j s
              evidence := k.evidence.insert j ((k.evidenceOf j).union because)
              changed := true } : Knowledge α)) = false := by
            rw [List.any_eq_false]
            intro o ho hoe
            obtain ⟨t, ht, hte⟩ := isEmpty_iff.1 hoe
            rcases NodeMap.get?_insert_cases ht with ⟨rfl, -⟩ | hold
            · exact hid ho
            · exact hfed o ho (isEmpty_iff.2 ⟨t, hold, hte⟩)
          have hnew : j ∉ k.emptied := by
            rw [show k.emptied = [] from hnil]
            exact List.not_mem_nil
          simp [hempty, hbefore, hany, hnew]
        obtain ⟨o, ho, hoe⟩ := hstarved
        obtain ⟨leaf, n, hpath, hn, hstart⟩ := h hnil o hoe
        exact ⟨leaf, n, .head ho hpath, hn, hstart⟩
      · exact h hnil j (isEmpty_iff.2 ⟨s, hold, hempty⟩)

theorem Rooted.learns (hg : g.Acyclic) (h : Rooted g k) (hl : Learns g k k') : Rooted g k' := by
  induction hl with
  | refl => exact h
  | restrict _ because id bound ih => exact ih.restrict hg.not_mem_operands
  | exact _ id ih => exact ih
  | clear _ ih => exact ih

/-- What a node starts with stays there in part, and nothing is left of nothing. -/
def Inherits (k : Knowledge α) (id : NodeId) (empty : Bool) : Prop :=
  ∃ s, k.value? id = some s ∧ (empty → s.isEmpty)

theorem Inherits.learns {empty : Bool} (h : k.Inherits id empty) (hl : Learns g k k') :
    k'.Inherits id empty := by
  induction hl with
  | refl => exact h
  | @restrict k' _ because j bound ih =>
    obtain ⟨s, hs, hempty⟩ := ih
    unfold Knowledge.restrict
    split
    · exact ⟨s, hs, hempty⟩
    · rename_i next hnext
      have hvalue : ∃ t, (k'.values.insert j next).get? id = some t ∧ (empty → t.isEmpty) := by
        by_cases hj : id = j
        · subst hj
          refine ⟨next, ?_, fun he => ?_⟩
          · rw [NodeMap.get?_insert_self (NodeMap.ne_null_of_get? hs)]
          · unfold refined? at hnext
            rw [hs] at hnext
            dsimp only at hnext
            split at hnext
            · cases hnext
            · rename_i u hu
              split_ifs at hnext
              cases hnext
              exact ValueSet.isEmpty_of_inter hu (hempty he)
        · refine ⟨s, ?_, hempty⟩
          cases j with
          | null => exact hs
          | nth n => rw [NodeMap.get?_insert, if_neg hj]; exact hs
      dsimp only
      split_ifs
      · exact hvalue
      · exact hvalue
  | exact _ j ih => exact ih
  | clear _ ih => exact ih

theorem learnInitial_cases (h : (k.learnInitial j n).value? id = some s) :
    (id = j ∧ initial? n = some s) ∨ k.value? id = some s := by
  unfold learnInitial at h
  split at h
  · exact Or.inr h
  · rename_i value hvalue
    rcases NodeMap.get?_insert_cases h with ⟨rfl, rfl⟩ | hold
    · exact Or.inl ⟨rfl, hvalue⟩
    · exact Or.inr hold

theorem isSome_learnInitial (h : (k.value? id).isSome ∨ (id = j ∧ (initial? n).isSome))
    (hj : j ≠ .null) : ((k.learnInitial j n).value? id).isSome := by
  unfold learnInitial
  split
  · rename_i hnone
    simpa [hnone] using h
  · simp only [value?, NodeMap.get?_insert_of_ne hj]
    split_ifs with hid
    · rfl
    · exact h.resolve_right fun h => hid h.1

theorem emptied_seed (g : Generation α) : (seed g).emptied = [] := by
  have hstep : ∀ (l : List (NodeId × Entry α)) (k : Knowledge α),
      (l.foldl (fun k x => k.learnInitial x.1 x.2.node) k).emptied = k.emptied := by
    intro l
    induction l with
    | nil => exact fun k => rfl
    | cons x l ih =>
      intro k
      rw [List.foldl_cons, ih]
      unfold learnInitial
      split <;> rfl
  exact hstep _ _

theorem initial?_of_seed (h : (seed g).value? id = some s) :
    ∃ n, g.node? id = some n ∧ initial? n = some s := by
  have hstep : ∀ (l : List (NodeId × Entry α)) (k : Knowledge α), (∀ x ∈ l, x ∈ g.toList) →
      (∀ id s, k.value? id = some s → ∃ n, g.node? id = some n ∧ initial? n = some s) →
      ∀ id s, (l.foldl (fun k x => k.learnInitial x.1 x.2.node) k).value? id = some s →
        ∃ n, g.node? id = some n ∧ initial? n = some s := by
    intro l
    induction l with
    | nil => exact fun k _ hk => hk
    | cons x l ih =>
      intro k hl hk
      refine ih _ (fun y hy => hl y (.tail _ hy)) fun id s hs => ?_
      rcases learnInitial_cases hs with ⟨rfl, hx⟩ | hs
      · exact ⟨_, Generation.mem_nodes.1 (List.mem_map.2 ⟨x, hl x List.mem_cons_self, rfl⟩), hx⟩
      · exact hk id s hs
  exact hstep _ _ (fun _ hx => hx) (by simp [value?]) id s h

theorem seed_of_initial? (hn : g.node? id = some n) (h : initial? n = some s) :
    (seed g).value? id = some s := by
  have hstep : ∀ (l : List (NodeId × Entry α)) (k : Knowledge α), (∀ x ∈ l, x.1 ≠ .null) →
      ((k.value? id).isSome ∨ ∃ e, (id, e) ∈ l ∧ e.node = n) →
      ((l.foldl (fun k x => k.learnInitial x.1 x.2.node) k).value? id).isSome := by
    intro l
    induction l with
    | nil => simp
    | cons x l ih =>
      intro k hl hk
      have hx := hl x List.mem_cons_self
      refine ih _ (fun y hy => hl y (.tail _ hy)) ?_
      rcases hk with hk | ⟨e, he, rfl⟩
      · exact Or.inl (isSome_learnInitial (Or.inl hk) hx)
      · rcases List.mem_cons.1 he with rfl | he
        · exact Or.inl (isSome_learnInitial (Or.inr ⟨rfl, by rw [h]; rfl⟩) hx)
        · exact Or.inr ⟨e, he, rfl⟩
  obtain ⟨⟨_, e⟩, hx, hxn⟩ := List.mem_map.1 (Generation.mem_nodes.2 hn)
  cases hxn
  have hsome := hstep g.toList ⟨.empty, .empty, .empty, [], false⟩
    (fun y hy => NodeMap.ne_null_of_get? (NodeMap.mem_toList.1 hy)) (Or.inr ⟨e, hx, rfl⟩)
  obtain ⟨t, ht⟩ := Option.isSome_iff_exists.1 hsome
  obtain ⟨m, hm, ht'⟩ := initial?_of_seed ht
  cases hn.symm.trans hm
  exact ht.trans (ht'.symm.trans h)

theorem rooted_seed (g : Generation α) : Rooted g (seed g) := by
  intro _ id hid
  obtain ⟨s, hs, hempty⟩ := isEmpty_iff.1 hid
  obtain ⟨n, hn, hinitial⟩ := initial?_of_seed hs
  exact ⟨id, n, .refl, hn, by simp [Node.startsEmpty, hinitial, hempty]⟩

end Knowledge

/-! Two graphs to look at: a number between zero and ten that is at least five, and a number that is
bounded outside of its domain beside one that is asserted to be of the empty set. -/

namespace Sample

def bounded : Blueprint Float :=
  let b := (Blueprint.empty.addParameter (Parameter.real.withBound (.interval 0 10 .one))).2
  let b := (b.addLiteral (.number 5)).2
  (b.addAssertion .greaterOrEqual [.nth 0, .nth 1]).2

def outside : Parameter Float :=
  { domain := .nonNegative, unit := .one, within := some (.number (-1 : Float)) }

def barren : Blueprint Float :=
  let b := (Blueprint.empty.addParameter outside).2
  let b := (b.addParameter .real).2
  (b.assign (.nth 1) (.numeric ⟨.empty, .one⟩)).2

theorem bounded_acyclic : bounded.generation.Acyclic :=
  (Blueprint.sane_of_reachable (.assertion (.literal (.parameter .empty _) _) _ _)).ascending.acyclic

theorem barren_acyclic : barren.generation.Acyclic :=
  (Blueprint.sane_of_reachable
    (.assertion (.literal (.parameter (.parameter .empty _) _) _) _ _)).ascending.acyclic

end Sample

namespace Analysis

variable {g : Generation α}

theorem isSatisfiable_iff {budget : ℕ} {mappings : List (NodeMap NodeId)} :
    (ofSteps g budget mappings).isSatisfiable ↔
      (Propagation.run g budget).knowledge.emptied = [] := by
  simp only [isSatisfiable, ofSteps, List.isEmpty_iff, List.map_eq_nil_iff,
    Generation.sortByFirstOrigin]
  rw [← List.length_eq_zero_iff, List.length_mergeSort, List.length_eq_zero_iff]

theorem superset_parameter {budget : ℕ} {id : NodeId} {p : Parameter α} {s : ValueSet α}
    (hn : g.node? id = some (.parameter p)) (hs : (ofGeneration g budget).value? id = some s) :
    ∃ t, (ofGeneration g budget).superset id = .ok t ∧ t.isEmpty = s.isEmpty := by
  have hg : (ofGeneration g budget).generation = g := rfl
  unfold superset
  rw [hg, hn, hs]
  cases s with
  | numeric q => exact ⟨_, rfl, rfl⟩
  | boolean b => exact ⟨_, rfl, rfl⟩
  | enum c => exact ⟨_, rfl, rfl⟩
  | text t => exact ⟨_, rfl, rfl⟩

/-- Where nothing is reported, a parameter has no value exactly if its domain and its bound have none
in common, and a node, asserted or not, has none only if it is made of a leaf that starts without a
value. -/
theorem isEmpty_of_isSatisfiable (hg : g.Acyclic) (budget : ℕ)
    (h : (ofGeneration g budget).isSatisfiable) :
    (∀ id p, g.node? id = some (.parameter p) → ∃ s, (ofGeneration g budget).superset id = .ok s ∧
      (s.isEmpty ↔ (Node.parameter p).startsEmpty)) ∧
    ∀ id s, (ofGeneration g budget).value? id = some s → s.isEmpty → g.Barren id := by
  have hlearns := Propagation.learns_run g budget
  have hrooted := (Knowledge.rooted_seed g).learns hg hlearns (isSatisfiable_iff.1 h)
  refine ⟨fun id p hn => ?_, fun id s hs hempty => ?_⟩
  · have hseed : (Knowledge.seed g).Inherits id (Node.parameter p).startsEmpty := by
      obtain ⟨t, ht⟩ : ∃ t, Knowledge.initial? (.parameter p) = some t := ⟨_, rfl⟩
      exact ⟨t, Knowledge.seed_of_initial? hn ht, by simp [Node.startsEmpty, ht]⟩
    obtain ⟨s, hs, hstart⟩ := hseed.learns hlearns
    obtain ⟨t, ht, hts⟩ := superset_parameter hn hs
    refine ⟨t, ht, ?_⟩
    rw [hts]
    refine ⟨fun hempty => ?_, hstart⟩
    -- a parameter has no operands, so the leaf that it rests on is the parameter
    obtain ⟨leaf, n, hpath, hleaf, hn'⟩ := hrooted id (Knowledge.isEmpty_iff.2 ⟨s, hs, hempty⟩)
    rcases Relation.ReflTransGen.cases_head hpath with rfl | ⟨o, ho, -⟩
    · cases hn.symm.trans hleaf
      exact hn'
    · rw [Generation.Uses, Generation.operands_of_node? hn] at ho
      cases ho
  · exact hrooted id (Knowledge.isEmpty_iff.2 ⟨s, hs, hempty⟩)

theorem isEmpty_of_isSatisfiable_bounded : Sample.bounded.generation.Acyclic ∧
    (ofGeneration Sample.bounded.generation 64).isSatisfiable ∧
    ∃ s, (ofGeneration Sample.bounded.generation 64).superset (.nth 0) = .ok s ∧ ¬ s.isEmpty := by
  have hsat : (ofGeneration Sample.bounded.generation 64).isSatisfiable := by
    decide +kernel
  have hstart : (Node.parameter
      (Parameter.real.withBound (.interval 0 10 .one) : Parameter Float)).startsEmpty = false := by
    decide +kernel
  obtain ⟨s, hs, hempty⟩ :=
    (isEmpty_of_isSatisfiable Sample.bounded_acyclic 64 hsat).1 (.nth 0) _ rfl
  exact ⟨Sample.bounded_acyclic, hsat, s, hs, fun h => by simpa [hstart] using hempty.1 h⟩

/-- A bound outside of the domain and an assertion about the empty set go unreported. -/
theorem isSatisfiable_of_barren : Sample.barren.generation.Acyclic ∧
    Sample.barren.build.isOk ∧
    (ofGeneration Sample.barren.generation 64).isSatisfiable ∧
    ((ofGeneration Sample.barren.generation 64).superset (.nth 0)).toOption.any ValueSet.isEmpty ∧
    (Sample.barren.generation.expression? (.nth 3)).any Expression.asserted ∧
    ((ofGeneration Sample.barren.generation 64).value? (.nth 3)).any ValueSet.isEmpty :=
  ⟨Sample.barren_acyclic, by decide +kernel, by decide +kernel, by decide +kernel,
    by decide +kernel, by decide +kernel⟩

end Analysis

end ParameterSolver
