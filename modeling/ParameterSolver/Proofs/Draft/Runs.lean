import Mathlib.Tactic.Common
import ParameterSolver.Pass.Operators
import ParameterSolver.Proofs.Graph.Linked

/-! Runs of edits that succeed, taken apart along the steps of the edit. -/

namespace ParameterSolver

variable {α β γ : Type} {d d' : Draft α}

/-- The edit gives `r` on the draft `d` and leaves the draft `d'`. -/
def Runs (m : Edit α β) (d : Draft α) (r : β) (d' : Draft α) : Prop :=
  StateT.run (ExceptT.run m) d = (.ok r, d')

@[simp] theorem runs_pure {x r : β} : Runs (pure x) d r d' ↔ r = x ∧ d' = d := by
  constructor
  · intro h
    cases h
    exact ⟨rfl, rfl⟩
  · rintro ⟨rfl, rfl⟩
    rfl

/-- A failure ends an edit. -/
theorem run_bind {m : Edit α β} {f : β → Edit α γ} : StateT.run (ExceptT.run (m >>= f)) d
    = match StateT.run (ExceptT.run m) d with
      | (.ok x, d₁) => StateT.run (ExceptT.run (f x)) d₁
      | (.error e, d₁) => (.error e, d₁) := by
  change (match StateT.run (ExceptT.run m) d with
    | (a, s) => StateT.run (ExceptT.bindCont f a) s) = _
  rcases StateT.run (ExceptT.run m) d with ⟨x | x, d₁⟩ <;> rfl

theorem runs_bind {m : Edit α β} {f : β → Edit α γ} {r : γ} :
    Runs (m >>= f) d r d' ↔ ∃ x d₁, Runs m d x d₁ ∧ Runs (f x) d₁ r d' := by
  unfold Runs
  rw [run_bind]
  rcases StateT.run (ExceptT.run m) d with ⟨e | x, d₁⟩
  · refine iff_of_false ?_ ?_
    · rintro ⟨⟩
    · rintro ⟨x, d₂, ⟨⟩, -⟩
  · refine ⟨fun h => ⟨x, d₁, rfl, h⟩, ?_⟩
    rintro ⟨y, d₂, ⟨⟩, h⟩
    exact h

@[simp] theorem runs_get {r : Draft α} : Runs get d r d' ↔ r = d ∧ d' = d := by
  constructor
  · intro h
    cases h
    exact ⟨rfl, rfl⟩
  · rintro ⟨rfl, rfl⟩
    rfl

@[simp] theorem runs_set {d₁ : Draft α} {r : PUnit} : Runs (set d₁) d r d' ↔ d' = d₁ := by
  constructor
  · intro h
    cases h
    rfl
  · rintro rfl
    rfl

@[simp] theorem runs_modify {f : Draft α → Draft α} {r : PUnit} :
    Runs (modify f) d r d' ↔ d' = f d := by
  constructor
  · intro h
    cases h
    rfl
  · rintro rfl
    rfl

@[simp] theorem runs_throw {e : SolveError α} {r : β} : ¬ Runs (throw e) d r d' := by
  intro h
  cases h

@[simp] theorem runs_get_bind {f : Draft α → Edit α β} {r : β} :
    Runs (get >>= f) d r d' ↔ Runs (f d) d r d' := by
  simp [runs_bind]

@[simp] theorem runs_set_bind {d₁ : Draft α} {f : PUnit → Edit α β} {r : β} :
    Runs (set d₁ >>= f) d r d' ↔ Runs (f ⟨⟩) d₁ r d' := by
  simp only [runs_bind, runs_set, exists_eq_left]
  exact ⟨fun ⟨_, h⟩ => h, fun h => ⟨⟨⟩, h⟩⟩

@[simp] theorem runs_modify_bind {m : Draft α → Draft α} {f : PUnit → Edit α β} {r : β} :
    Runs (modify m >>= f) d r d' ↔ Runs (f ⟨⟩) (m d) r d' := by
  simp only [runs_bind, runs_modify, exists_eq_left]
  exact ⟨fun ⟨_, h⟩ => h, fun h => ⟨⟨⟩, h⟩⟩

@[simp] theorem runs_map {f : β → γ} {m : Edit α β} {r : γ} :
    Runs (f <$> m) d r d' ↔ ∃ x, Runs m d x d' ∧ r = f x := by
  rw [← bind_pure_comp, runs_bind]
  simp [and_comm]

@[simp] theorem runs_discard {m : Edit α β} {r : PUnit} :
    Runs (discard m) d r d' ↔ ∃ x, Runs m d x d' := by
  change Runs ((fun _ => PUnit.unit) <$> m) d r d' ↔ _
  simp

/-- Drafts that differ in nothing that matters for the output. -/
structure Draft.Alike (d d' : Draft α) : Prop where
  input : d'.input = d.input
  output : d'.output = d.output
  mapping : d'.mapping = d.mapping
  removed : d'.removed = d.removed
  created : d'.created = d.created

namespace Draft

theorem mem_of_lookup {α β : Type} [BEq α] [LawfulBEq α] {l : List (α × β)} {a : α} {b : β}
    (h : l.lookup a = some b) : (a, b) ∈ l := by
  induction l with
  | nil => cases h
  | cons p l ih =>
    obtain ⟨a', b'⟩ := p
    rw [List.lookup_cons] at h
    split at h
    · rename_i heq
      cases h
      rw [eq_of_beq heq]
      exact List.mem_cons_self
    · exact List.mem_cons_of_mem _ (ih h)

/-- An output node that nothing uses and that stands for nothing goes alone. -/
theorem removeOutput_eq {old : NodeId} (hc : d.output.contains old) (hu : d.output.users old = [])
    (hs : ∀ i, d.mapping.get? i ≠ some old) :
    d.removeOutput old = { d with output := (d.output.remove old).2 } := by
  have hstale : d.mapping.toList.filter (fun p => decide (p.2 ∈ (d.output.remove old).1)) = [] := by
    rw [Generation.remove_fst hc hu, List.filter_eq_nil_iff]
    rintro ⟨i, j⟩ hij
    have hj := NodeMap.mem_toList.1 hij
    simp only [List.mem_singleton, decide_eq_true_eq]
    rintro rfl
    exact hs i hj
  unfold removeOutput
  dsimp only
  rw [hstale]
  rfl

/-- The input nodes whose output nodes go with an output node. -/
theorem mem_stale {gone : List NodeId} (i : NodeId) :
    i ∈ (d.mapping.toList.filter fun x => decide (x.2 ∈ gone)).map (·.1) ↔
      ∃ k ∈ gone, d.mapping.get? i = some k := by
  simp only [List.mem_map, List.mem_filter, decide_eq_true_eq, Prod.exists, exists_and_right,
    exists_eq_right]
  exact exists_congr fun k => by rw [NodeMap.mem_toList, and_comm]

theorem isRemoved_removeOutput (j i : NodeId) : (d.removeOutput j).isRemoved i ↔
    d.isRemoved i ∨ ∃ k ∈ (d.output.remove j).1, d.mapping.get? i = some k := by
  rw [← mem_stale]
  exact NodeMap.contains_insertAll (fun x hx =>
    NodeMap.ne_null_of_get? (NodeMap.mem_toList.1 (List.mem_filter.1 hx).1)) () d.removed i

theorem get?_removeOutput (j i k : NodeId) : (d.removeOutput j).mapping.get? i = some k ↔
    d.mapping.get? i = some k ∧ k ∉ (d.output.remove j).1 := by
  have hget : (d.removeOutput j).mapping.get? i =
      if ∃ k ∈ (d.output.remove j).1, d.mapping.get? i = some k then none
      else d.mapping.get? i := by
    simp only [← mem_stale]
    exact NodeMap.get?_eraseAll _ _ i
  rw [hget]
  split_ifs with hstale
  · obtain ⟨k', hgone, hk'⟩ := hstale
    refine iff_of_false (by simp) ?_
    rintro ⟨hk, hk''⟩
    cases hk'.symm.trans hk
    exact hk'' hgone
  · exact ⟨fun hk => ⟨hk, fun hgone => hstale ⟨k, hgone, hk⟩⟩, fun hk => hk.1⟩

end Draft

/-- What every step of a loop keeps, with the elements that are done. -/
theorem runs_forM {f : β → Edit α PUnit} {P : List β → Draft α → Prop} {l done : List β}
    {r : PUnit} (hstep : ∀ done x rest, done ++ x :: rest = l → ∀ d d' r, P done d →
      Runs (f x) d r d' → P (done ++ [x]) d') {rest : List β} (hl : done ++ rest = l) (h : P done d)
    (hr : Runs (rest.forM f) d r d') : P l d' := by
  induction rest generalizing done d with
  | nil =>
    obtain ⟨-, rfl⟩ := runs_pure.1 hr
    rwa [← hl, List.append_nil]
  | cons x rest ih =>
    rw [List.forM_eq_forM, List.forM_cons, runs_bind] at hr
    obtain ⟨y, d₁, hx, hr⟩ := hr
    exact ih (by rw [← hl, List.append_assoc]; rfl) (hstep done x rest hl d d₁ y h hx) hr

/-- A loop of steps that do not fail. -/
theorem exists_runs_forM {f : β → Edit α PUnit} {P : List β → Draft α → Prop} {l : List β}
    (hstep : ∀ done x rest, done ++ x :: rest = l → ∀ d, P done d →
      ∃ d', Runs (f x) d ⟨⟩ d' ∧ P (done ++ [x]) d') (h : P [] d) :
    ∃ d', Runs (l.forM f) d ⟨⟩ d' ∧ P l d' := by
  have hrest : ∀ (rest done : List β) (d : Draft α), done ++ rest = l → P done d →
      ∃ d', Runs (rest.forM f) d ⟨⟩ d' ∧ P l d' := by
    intro rest
    induction rest with
    | nil =>
      intro done d hl hP
      rw [List.append_nil] at hl
      exact ⟨d, runs_pure.2 ⟨rfl, rfl⟩, hl ▸ hP⟩
    | cons x rest ih =>
      intro done d hl hP
      obtain ⟨d₁, hx, hP₁⟩ := hstep done x rest hl d hP
      obtain ⟨d₂, hr, hP₂⟩ := ih (done ++ [x]) d₁ (by rw [← hl, List.append_assoc]; rfl) hP₁
      refine ⟨d₂, ?_, hP₂⟩
      rw [List.forM_eq_forM, List.forM_cons]
      exact runs_bind.2 ⟨⟨⟩, d₁, hx, hr⟩
  exact hrest l [] d rfl h

/-- A loop whose steps do nothing. -/
theorem runs_forM_idle {f : β → Edit α PUnit} {l : List β} (h : ∀ x ∈ l, Runs (f x) d ⟨⟩ d) :
    Runs (l.forM f) d ⟨⟩ d := by
  obtain ⟨d', hr, rfl⟩ := exists_runs_forM (f := f) (l := l) (P := fun _ d' => d = d')
    (fun done x rest hl d' hd => ⟨d', hd ▸ h x (hl ▸ by simp), hd⟩) rfl
  exact hr

/-- An edit gives one result on one draft. -/
theorem Runs.unique {m : Edit α β} {r r' : β} {d₁ d₂ : Draft α} (h : Runs m d r d₁)
    (h' : Runs m d r' d₂) : r = r' ∧ d₁ = d₂ := by
  cases h.symm.trans h'
  exact ⟨rfl, rfl⟩

theorem Pass.runs_of_apply_journal [Scalar α] {pass : Pass α} {g : Generation α} {deduplicate : Bool}
    {journal journal' : Journal} {rev : Revision α}
    (h : pass.apply deduplicate journal g = .ok (rev, journal')) :
    ∃ d d', Runs pass.run (Draft.start g deduplicate journal) ⟨⟩ d ∧
      Runs Draft.close d rev d' ∧ d'.journal = journal' := by
  unfold apply at h
  dsimp only at h
  split at h
  · rename_i r d' hr
    cases h
    have hr' : Runs (do pass.run; Draft.close) (Draft.start g deduplicate journal) rev d' := hr
    obtain ⟨x, d, hx, hc⟩ := runs_bind.1 hr'
    exact ⟨d, d', hx, hc, rfl⟩
  · cases h

theorem Pass.runs_of_apply [Scalar α] {pass : Pass α} {g : Generation α} {deduplicate : Bool}
    {journal journal' : Journal} {rev : Revision α}
    (h : pass.apply deduplicate journal g = .ok (rev, journal')) :
    ∃ d d', Runs pass.run (Draft.start g deduplicate journal) ⟨⟩ d ∧
      Runs Draft.close d rev d' := by
  obtain ⟨d, d', hr, hc, -⟩ := runs_of_apply_journal h
  exact ⟨d, d', hr, hc⟩

/-- The law gives `r` on the draft `d` and leaves the draft `d'`. -/
abbrev LawRuns (m : Pass.Law α β) (d : Draft α) (r : Option β) (d' : Draft α) : Prop :=
  Runs m.run d r d'

theorem lawRuns_pure {x : β} {r : Option β} :
    LawRuns (pure x) d r d' ↔ r = some x ∧ d' = d := runs_pure

theorem lawRuns_bind {m : Pass.Law α β} {f : β → Pass.Law α γ} {r : Option γ} :
    LawRuns (m >>= f) d r d' ↔ (LawRuns m d none d' ∧ r = none) ∨
      ∃ x d₁, LawRuns m d (some x) d₁ ∧ LawRuns (f x) d₁ r d' := by
  rw [LawRuns, OptionT.run_bind, Option.elimM, runs_bind]
  constructor
  · rintro ⟨x | x, d₁, hm, hf⟩
    · obtain ⟨rfl, rfl⟩ := runs_pure.1 hf
      exact Or.inl ⟨hm, rfl⟩
    · exact Or.inr ⟨x, d₁, hm, hf⟩
  · rintro (⟨hm, rfl⟩ | ⟨x, d₁, hm, hf⟩)
    · exact ⟨none, d', hm, runs_pure.2 ⟨rfl, rfl⟩⟩
    · exact ⟨some x, d₁, hm, hf⟩

theorem lawRuns_lift {m : Edit α β} {r : Option β} :
    LawRuns (.lift m) d r d' ↔ ∃ x, Runs m d x d' ∧ r = some x := by
  rw [LawRuns, OptionT.run_lift]
  exact runs_map

theorem lawRuns_discard_lift {m : Edit α β} {r : Option Unit} :
    LawRuns (discard (.lift m)) d r d' ↔ ∃ x, Runs m d x d' ∧ r = some () := by
  change LawRuns ((fun _ => ()) <$> OptionT.lift m) d r d' ↔ _
  rw [LawRuns, OptionT.run_map, runs_map]
  constructor
  · rintro ⟨y, hy, rfl⟩
    obtain ⟨x, hx, rfl⟩ := lawRuns_lift.1 hy
    exact ⟨x, hx, rfl⟩
  · rintro ⟨x, hx, rfl⟩
    exact ⟨some x, lawRuns_lift.2 ⟨x, hx, rfl⟩, rfl⟩

theorem lawRuns_lift_bind {m : Edit α β} {f : β → Pass.Law α γ} {r : Option γ} :
    LawRuns (.lift m >>= f) d r d' ↔ ∃ x d₁, Runs m d x d₁ ∧ LawRuns (f x) d₁ r d' := by
  simp only [lawRuns_bind, lawRuns_lift]
  constructor
  · rintro (⟨⟨x, -, hx⟩, -⟩ | ⟨x, d₁, ⟨y, hy, hxy⟩, hf⟩)
    · cases hx
    · cases hxy
      exact ⟨x, d₁, hy, hf⟩
  · rintro ⟨x, d₁, hx, hf⟩
    exact Or.inr ⟨x, d₁, ⟨x, hx, rfl⟩, hf⟩

theorem lawRuns_discard_lift_bind {m : Edit α β} {f : Unit → Pass.Law α γ} {r : Option γ} :
    LawRuns (discard (.lift m) >>= f) d r d' ↔ ∃ x d₁, Runs m d x d₁ ∧ LawRuns (f ()) d₁ r d' := by
  simp only [lawRuns_bind, lawRuns_discard_lift]
  constructor
  · rintro (⟨⟨x, -, hx⟩, -⟩ | ⟨_, d₁, ⟨x, hx, -⟩, hf⟩)
    · cases hx
    · exact ⟨x, d₁, hx, hf⟩
  · rintro ⟨x, d₁, hx, hf⟩
    exact Or.inr ⟨(), d₁, ⟨x, hx, trivial⟩, hf⟩

theorem lawRuns_get_bind {f : Draft α → Pass.Law α β} {r : Option β} :
    LawRuns (get >>= f) d r d' ↔ LawRuns (f d) d r d' := by
  rw [lawRuns_bind]
  constructor
  · rintro (⟨hnone, -⟩ | ⟨x, d₁, hx, hf⟩)
    · cases hnone
    · cases hx
      exact hf
  · exact fun h => Or.inr ⟨d, d, rfl, h⟩

namespace Draft

variable {id target old : NodeId} {q : Provenance}

/-- Redirecting only seats the node where nothing has to make way for the target. -/
theorem runs_redirect_of_vacant (ht : d.output.contains target)
    (hq : Runs (inputProvenance id) { d with dirty := true } q { d with dirty := true })
    (hvacant : ∀ old, d.mapping.get? id = some old → old = target ∨ d.output.contains old = false) :
    Runs (redirect id target) d ⟨⟩ { d with
      dirty := true, output := d.output.addProvenance target q
      mapping := d.mapping.insert id target } := by
  rw [redirect, runs_get_bind]
  simp only [ht, Bool.not_true, Bool.false_eq_true, if_false]
  refine runs_modify_bind.2 (runs_bind.2 ⟨q, _, hq, runs_get_bind.2 (runs_modify_bind.2 ?_)⟩)
  cases hold : d.mapping.get? id with
  | none => exact runs_pure.2 ⟨rfl, rfl⟩
  | some old =>
    dsimp only
    rw [runs_get_bind, if_pos (by simpa [Generation.contains_addProvenance] using hvacant old hold)]
    exact runs_pure.2 ⟨rfl, rfl⟩

/-- Where another node stood, its users are rewired and it goes. -/
theorem runs_redirect_of_rewired (ht : d.output.contains target)
    (hq : Runs (inputProvenance id) { d with dirty := true } q { d with dirty := true })
    (hold : d.mapping.get? id = some old) (hne : old ≠ target) (hthere : d.output.contains old)
    (hloop : Runs (((d.output.addProvenance target q).users old).forM (rewire old target)) { d with
      dirty := true, output := d.output.addProvenance target q
      mapping := d.mapping.insert id target } ⟨⟩ d') :
    Runs (redirect id target) d ⟨⟩ { d'.removeOutput old with
      mapping := (d'.removeOutput old).mapping.insert id target } := by
  rw [redirect, runs_get_bind]
  simp only [ht, Bool.not_true, Bool.false_eq_true, if_false]
  refine runs_modify_bind.2 (runs_bind.2 ⟨q, _, hq, runs_get_bind.2 (runs_modify_bind.2 ?_)⟩)
  simp only [hold]
  rw [runs_get_bind, if_neg (by simpa [Generation.contains_addProvenance] using ⟨hne, hthere⟩)]
  exact runs_bind.2 ⟨⟨⟩, d', hloop, runs_modify.2 rfl⟩

end Draft

end ParameterSolver
