import ParameterSolver.Proofs.Draft.Edit
import ParameterSolver.Proofs.Graph.Listing

/-! A pass whose every step keeps the simulation gives a graph with the same models. -/

namespace ParameterSolver

open Exact ParameterSolver.Valuation

/-- Every operator has the operands that it takes. -/
def Generation.Arranged (g : Generation Exact) : Prop :=
  ∀ id e, g.node? id = some (.expression e) → e.op.arity.accepts e.operands.length

/-- The two graphs have the same models, with one value for a node and what has become of it. No
parameter gets lost. -/
structure Refines (g g' : Generation Exact) (m : NodeMap NodeId) : Prop where
  tame : g'.Tame
  forth : ∀ v, Models g v → ∃ w, Models g' w ∧ ∀ i j, m.get? i = some j → w j = v i
  back : ∀ w, Models g' w → ∃ v, Models g v ∧ ∀ i j, m.get? i = some j → w j = v i
  parameters : ∀ id p, g.node? id = some (.parameter p) →
    ∃ j p', m.get? id = some j ∧ g'.node? j = some (.parameter p')

namespace Draft

variable {g : Generation Exact} {R T : Set NodeId} {K : Valuation → Prop}
  {P : Set (NodeId × NodeId)} {d d' : Draft Exact} {id : NodeId}

theorem simulates_start (g : Generation Exact) (deduplicate : Bool) (journal : Journal) :
    Simulates g ∅ ∅ (fun _ => True) ∅ (start g deduplicate journal) := by
  have hnode : ∀ j, (start g deduplicate journal).output.node? j = none := fun j => by
    simp [start, Generation.node?, Generation.get?, Generation.empty]
  have hmap : ∀ i, (start g deduplicate journal).mapping.get? i = none := fun i => by simp [start]
  constructor
  · refine ⟨rfl, ⟨Generation.linked_empty _ _, ?_⟩, ?_, ?_, ?_, ?_, ?_, ?_, ?_, ?_, ?_, ?_, ?_⟩
    · intro j n hj
      simp [hnode] at hj
    · intro i
      simp [isRemoved, start, NodeMap.contains]
    all_goals intros
    all_goals simp_all [start]
  · refine ⟨by simp, fun v hv => ⟨v, hv, fun j n hj => ?_, fun i j hi => ?_, by simp⟩,
      fun v w _ _ _ i j n hi => ?_⟩
    · simp [hnode] at hj
    · simp [hmap] at hi
    · simp [hmap] at hi

theorem Simulates.copyRemoved {r : Option NodeId} (h : Simulates g R T K P d) (hR : id ∈ R)
    (hr : Runs (Draft.copy id) d r d') : d' = d := by
  unfold Draft.copy at hr
  rw [runs_get_bind, Draft.copyWith, runs_get_bind] at hr
  rw [if_pos ((h.removed id).2 hR)] at hr
  exact (runs_pure.1 hr).2

/-- Closing copies everything that is not gone. -/
theorem Simulates.close (hg : g.Tame) {rev : Revision Exact} (h : Simulates g R T K P d)
    (hr : Runs Draft.close d rev d') : Simulates g R T K P d' ∧ Extends d d' ∧
      (∀ id, g.contains id → id ∉ R → ∃ k, d'.mapping.get? id = some k) ∧
      rev = ⟨d'.output, d'.dirty, d'.mapping⟩ := by
  unfold Draft.close at hr
  rw [runs_get_bind] at hr
  obtain ⟨_, d₁, hloop, hr₁⟩ := runs_bind.1 hr
  rw [runs_get_bind] at hr₁
  obtain ⟨rfl, rfl⟩ := runs_pure.1 hr₁
  rw [h.input] at hloop
  have hall := runs_forM (P := fun done d' => Simulates g R T K P d' ∧ Extends d d' ∧
      ∀ id ∈ done, id ∉ R → ∃ k, d'.mapping.get? id = some k) (l := g.order)
    (fun done id rest hl d₁ d₂ r ⟨h, hext₁, hdone⟩ hr => by
      obtain ⟨r', hr⟩ := runs_discard.1 hr
      have hid : g.contains id := NodeMap.mem_keys.1 (hl ▸ by simp : id ∈ g.order)
      by_cases hR : id ∈ R
      · obtain rfl := h.copyRemoved hR hr
        refine ⟨h, hext₁, fun i hi hiR => ?_⟩
        rcases List.mem_append.1 hi with hi | hi
        · exact hdone i hi hiR
        · rw [List.mem_singleton.1 hi] at hiR
          exact absurd hR hiR
      · obtain ⟨h', hext, ⟨k, -, hk⟩, -⟩ := h.copy hg hid hR hr
        refine ⟨h', hext₁.trans hext, fun i hi hiR => ?_⟩
        rcases List.mem_append.1 hi with hi | hi
        · obtain ⟨k', hk'⟩ := hdone i hi hiR
          exact ⟨k', hext.mapping i k' hk'⟩
        · rw [List.mem_singleton.1 hi]
          exact ⟨k, hk⟩) (List.nil_append _) ⟨h, .refl _, by simp⟩ hloop
  exact ⟨hall.1, hall.2.1, fun id hid hR => hall.2.2 id (NodeMap.mem_keys.2 hid) hR, rfl⟩

/-- A loop over nodes that are all different touches each at most once. -/
theorem Simulates.forM {β : Type} {l : List (NodeId × β)} {f : NodeId × β → Edit Exact PUnit}
    {r : PUnit} (hnd : (l.map (·.1)).Nodup)
    (hstep : ∀ x ∈ l, ∀ T d d' r, x.1 ∉ T → Simulates g ∅ T K ∅ d → Runs (f x) d r d' →
      Simulates g ∅ (T ∪ {x.1}) K ∅ d') (h : Simulates g ∅ ∅ K ∅ d)
    (hr : Runs (l.forM f) d r d') : ∃ T, Simulates g ∅ T K ∅ d' := by
  refine ⟨_, runs_forM (P := fun done d => Simulates g ∅ { i | i ∈ done.map (·.1) } K ∅ d)
    (fun done x rest hl d d' r h hr => ?_) (List.nil_append _) (by simpa using h) hr⟩
  have hx : x.1 ∉ done.map (·.1) := by
    rw [← hl, List.map_append, List.map_cons] at hnd
    exact fun hmem => (List.nodup_append.1 hnd).2.2 _ hmem _ (by simp) rfl
  refine (hstep x (hl ▸ by simp) _ d d' r hx h hr).mono ?_
  rintro i (hi | hi)
  · simp only [List.map_append, List.mem_append, Set.mem_ofPred_eq]
    exact Or.inl hi
  · simp [Set.mem_singleton_iff.1 hi]

/-- The finished draft when nothing was removed. -/
theorem Simulates.refines (hg : g.Tame) {rev : Revision Exact} (h : Simulates g ∅ T (fun _ => True) P d)
    (hr : Runs Draft.close d rev d') : Refines g rev.generation rev.mapping := by
  obtain ⟨h', -, hall, rfl⟩ := h.close hg hr
  refine ⟨h'.tame, fun v hv => ?_, fun w hw => ?_, fun id p hn => ?_⟩
  · obtain ⟨w, hw⟩ := h'.forth v hv
    exact ⟨w, hw.output, hw.agrees⟩
  · have hag : d'.Agrees (fun i => w (d'.out i)) w := fun i j hj =>
      congrArg w (out_of_get? hj).symm
    refine ⟨fun i => w (d'.out i), fun id n hn => ?_, hag⟩
    obtain ⟨k, hk⟩ := hall id (Generation.contains_of_node? hn) (by simp)
    exact h'.back _ w hw hag trivial id k n hk hn
  · obtain ⟨j, hj⟩ := hall id (Generation.contains_of_node? hn) (by simp)
    obtain ⟨p', hp'⟩ := h'.parameters id j p hj hn
    exact ⟨j, p', hj, hp'⟩

end Draft

namespace Pass

open Draft

variable {g : Generation Exact} {pass : Pass Exact} {deduplicate : Bool} {journal journal' : Journal}
  {rev : Revision Exact}

/-- A pass that keeps the simulation. -/
theorem refines_of_apply (hg : g.Tame)
    (hrun : ∀ d d', Simulates g ∅ ∅ (fun _ => True) ∅ d → Runs pass.run d ⟨⟩ d' →
      ∃ T, Simulates g ∅ T (fun _ => True) ∅ d')
    (h : pass.apply deduplicate journal g = .ok (rev, journal')) :
    Refines g rev.generation rev.mapping := by
  obtain ⟨d, d', hr, hc⟩ := runs_of_apply h
  obtain ⟨T, hd⟩ := hrun _ _ (simulates_start g deduplicate journal) hr
  exact hd.refines hg hc

end Pass

end ParameterSolver
