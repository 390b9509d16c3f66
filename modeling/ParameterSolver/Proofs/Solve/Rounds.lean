import ParameterSolver.Proofs.Pass.Constraints
import ParameterSolver.Proofs.Pass.Nesting
import ParameterSolver.Proofs.Pass.Operators
import ParameterSolver.Solve

/-! Every pass, and so every round and the whole solve, gives a graph with the same models. -/

namespace ParameterSolver

open Exact ParameterSolver.Valuation

/-- The two graphs have the same models, with one value for a node and what it is resolved to. -/
structure Carries (g g' : Generation Exact) (steps : List (NodeMap NodeId)) : Prop where
  tame : g'.Tame
  arranged : g'.Arranged
  forth : ∀ v, Models g v → ∃ w, Models g' w ∧ ∀ i j, resolveThrough? steps i = some j → w j = v i
  back : ∀ w, Models g' w → ∃ v, Models g v ∧ ∀ i j, resolveThrough? steps i = some j → w j = v i
  parameters : ∀ id p, g.node? id = some (.parameter p) →
    ∃ j p', resolveThrough? steps id = some j ∧ g'.node? j = some (.parameter p')

variable {g g' g'' : Generation Exact} {steps : List (NodeMap NodeId)} {m : NodeMap NodeId}

theorem resolveThrough?_append_list (steps steps' : List (NodeMap NodeId)) (i : NodeId) :
    resolveThrough? (steps ++ steps') i = (resolveThrough? steps i).bind (resolveThrough? steps') :=
  List.foldlM_append ..

theorem resolveThrough?_append (i : NodeId) :
    resolveThrough? (steps ++ [m]) i = (resolveThrough? steps i).bind m.get? := by
  rw [resolveThrough?_append_list]
  cases resolveThrough? steps i <;> simp [resolveThrough?]

theorem Carries.refl (ht : g.Tame) (ha : g.Arranged) : Carries g g [] := by
  refine ⟨ht, ha, fun v hv => ⟨v, hv, fun i j hj => ?_⟩, fun w hw => ⟨w, hw, fun i j hj => ?_⟩,
    fun id p hp => ⟨id, p, rfl, hp⟩⟩
  · cases hj
    rfl
  · cases hj
    rfl

theorem Carries.step (h : Carries g g' steps) (hr : Refines g' g'' m) (ha : g''.Arranged) :
    Carries g g'' (steps ++ [m]) := by
  have hval : ∀ {u v w : Valuation}, (∀ i j, resolveThrough? steps i = some j → v j = u i) →
      (∀ i j, m.get? i = some j → w j = v i) →
      ∀ i j, resolveThrough? (steps ++ [m]) i = some j → w j = u i := by
    intro u v w huv hvw i j hj
    rw [resolveThrough?_append] at hj
    obtain ⟨k, hk, hkj⟩ := Option.bind_eq_some_iff.1 hj
    rw [hvw k j hkj, huv i k hk]
  refine ⟨hr.tame, ha, fun u hu => ?_, fun w hw => ?_, fun id p hp => ?_⟩
  · obtain ⟨v, hv, huv⟩ := h.forth u hu
    obtain ⟨w, hw, hvw⟩ := hr.forth v hv
    exact ⟨w, hw, hval huv hvw⟩
  · obtain ⟨v, hv, hvw⟩ := hr.back w hw
    obtain ⟨u, hu, huv⟩ := h.back v hv
    exact ⟨u, hu, hval huv hvw⟩
  · obtain ⟨j, p', hj, hp'⟩ := h.parameters id p hp
    obtain ⟨k, p'', hk, hp''⟩ := hr.parameters j p' hp'
    exact ⟨k, p'', by rw [resolveThrough?_append, hj]; exact hk, hp''⟩

theorem arranged_of_validate (h : g.validate = .ok ()) : g.Arranged := by
  intro id e hn
  unfold Generation.validate at h
  split at h
  · cases h
  · rename_i hnone
    obtain ⟨entry, hentry, hnode⟩ := Option.map_eq_some_iff.1 hn
    have hfault := List.findSome?_eq_none_iff.1 hnone (id, entry) (Generation.mem_toList.2 hentry)
    simp only [Generation.entryFault?, hnode] at hfault
    split_ifs at hfault
    rw [Node.expression?, Option.bind_some, Generation.expressionFault?] at hfault
    split at hfault
    · cases hfault
    · split_ifs at hfault with hacc
      exact hacc

theorem refines_pipeline (hg : g.Tame) (ha : g.Arranged) {pass : Pass Exact}
    (hp : pass ∈ Pass.pipeline) {deduplicate : Bool} {journal journal' : Journal}
    {rev : Revision Exact} (h : pass.apply deduplicate journal g = .ok (rev, journal')) :
    Refines g rev.generation rev.mapping := by
  simp only [Pass.pipeline, List.mem_cons, List.not_mem_nil, or_false] at hp
  rcases hp with rfl | rfl | rfl | rfl | rfl
  · exact Pass.refines_domains hg h
  · exact Pass.refines_assertions hg h
  · exact Pass.refines_leaves hg h
  · exact Pass.refines_operators hg ha h
  · exact Pass.refines_nesting hg h

namespace Progress

variable {p p' : Progress Exact} {deduplicate published : Bool}

/-- The graph that a solve has come to. -/
def Sound (g : Generation Exact) (p : Progress Exact) : Prop :=
  Carries g p.current p.steps.reverse

theorem bind_eq_ok {ε α β : Type} {x : Except ε α} {f : α → Except ε β} {b : β} :
    (x >>= f) = .ok b ↔ ∃ a, x = .ok a ∧ f a = .ok b := by
  cases x with
  | error e => simp [bind, Except.bind]
  | ok a => simp [bind, Except.bind]

theorem Sound.runPass (h : Sound g p) {pass : Pass Exact} (hp : pass ∈ Pass.pipeline)
    (hr : p.runPass deduplicate pass = .ok (p', published)) : Sound g p' := by
  unfold Progress.runPass at hr
  obtain ⟨⟨rev, journal⟩, happly, hr₁⟩ := bind_eq_ok.1 hr
  dsimp only at hr₁
  split_ifs at hr₁
  · cases hr₁
    exact h
  · obtain ⟨_, hvalid, hr₂⟩ := bind_eq_ok.1 hr₁
    cases hr₂
    unfold Sound
    rw [List.reverse_cons]
    exact h.step (refines_pipeline h.tame h.arranged hp happly) (arranged_of_validate hvalid)

theorem Sound.runRound (h : Sound g p) (hr : p.runRound deduplicate = .ok (p', published)) :
    Sound g p' := by
  have hfold : ∀ (l : List (Pass Exact)), (∀ pass ∈ l, pass ∈ Pass.pipeline) →
      ∀ (q : Progress Exact × Bool), Sound g q.1 →
        l.foldlM (fun (p, dirty) pass => do
          let (p, published) ← p.runPass deduplicate pass
          return (p, dirty || published)) q = .ok (p', published) → Sound g p' := by
    intro l
    induction l with
    | nil =>
      intro _ q hq hr
      cases hr
      exact hq
    | cons pass l ih =>
      intro hl q hq hr
      rw [List.foldlM_cons] at hr
      obtain ⟨q', hq', hr₁⟩ := bind_eq_ok.1 hr
      obtain ⟨⟨p₁, b⟩, hpass, hq'⟩ := bind_eq_ok.1 hq'
      cases hq'
      exact ih (fun x hx => hl x (by simp [hx])) _ (hq.runPass (hl pass (by simp)) hpass) hr₁
  exact hfold Pass.pipeline (fun _ h => h) (p, false) h hr

theorem Sound.runRounds (h : Sound g p) {budget rounds n : ℕ}
    (hr : p.runRounds deduplicate budget rounds = .ok (p', n)) : Sound g p' := by
  induction budget generalizing rounds p with
  | zero => cases hr
  | succ budget ih =>
    rw [Progress.runRounds] at hr
    obtain ⟨⟨p₁, dirty⟩, hround, hr₁⟩ := bind_eq_ok.1 hr
    have h₁ := h.runRound hround
    dsimp only at hr₁
    split_ifs at hr₁
    · exact ih h₁ hr₁
    · cases hr₁
      exact h₁

end Progress

/-- All operators are in the basis. -/
def Generation.Canonical (g : Generation Exact) : Prop :=
  ∀ id e, g.node? id = some (.expression e) → e.op.isCanonical

theorem canonical_of_firstNonCanonical? (h : g.firstNonCanonical? = none) : g.Canonical := by
  intro id e hn
  obtain ⟨entry, hentry, hnode⟩ := Option.map_eq_some_iff.1 hn
  have hnone := List.findSome?_eq_none_iff.1 h (id, entry) (Generation.mem_toList.2 hentry)
  simp only [Generation.nonCanonicalEntry?, hnode] at hnone
  split_ifs at hnone with hc
  exact hc

/-- A solve that succeeds keeps the models and comes to a graph over the basis. -/
theorem carries_of_solve (hg : g.Tame) {config : Config} {sol : Solution Exact}
    (h : solve config g = .ok sol) : Carries g sol.last sol.mappings ∧ sol.last.Canonical := by
  unfold solve at h
  obtain ⟨_, hvalid, h₁⟩ := Progress.bind_eq_ok.1 h
  obtain ⟨⟨p, rounds⟩, hrounds, h₂⟩ := Progress.bind_eq_ok.1 h₁
  have hstart : Progress.Sound g ⟨g, [], [], .empty⟩ := .refl hg (arranged_of_validate hvalid)
  have hp := hstart.runRounds hrounds
  dsimp only at h₂
  split at h₂
  · cases h₂
  · rename_i hnone
    cases h₂
    refine ⟨hp, canonical_of_firstNonCanonical? ?_⟩
    cases hc : p.current.firstNonCanonical? with
    | none => rfl
    | some x => exact absurd hc (hnone _ _)

end ParameterSolver
