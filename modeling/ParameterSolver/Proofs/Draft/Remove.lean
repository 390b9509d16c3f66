import ParameterSolver.Proofs.Draft.Redirect

/-! Taking a node out of a draft, when everything that used it has been written anew or is gone. Models
carry back as long as the node has a value that it can have. -/

namespace ParameterSolver

open Exact ParameterSolver.Valuation Operand

namespace Draft

variable {g : Generation Exact} {R T : Set NodeId} {K : Valuation → Prop} {d d' : Draft Exact}
  {id j : NodeId} {n : Node Exact}

/-- Only the node `id` has gone from the first draft to the second. -/
structure Drops (id : NodeId) (d d' : Draft Exact) : Prop where
  mapping : ∀ i, d'.mapping.get? i = if i = id then none else d.mapping.get? i
  node? : ∀ j, d'.output.node? j
    = if d.mapping.get? id = some j then none else d.output.node? j

theorem Drops.get?_of_ne (h : Drops id d d') {i : NodeId} (hi : i ≠ id) :
    d'.mapping.get? i = d.mapping.get? i := by rw [h.mapping, if_neg hi]

theorem Drops.ne_of_get? (h : Drops id d d') {i : NodeId} (hj : d'.mapping.get? i = some j) :
    i ≠ id ∧ d.mapping.get? i = some j := by
  rw [h.mapping] at hj
  split_ifs at hj with hi
  exact ⟨hi, hj⟩

theorem Drops.node?_of_ne (h : Drops id d d') (hj : d.mapping.get? id ≠ some j) :
    d'.output.node? j = d.output.node? j := by rw [h.node?, if_neg hj]

theorem Drops.full (h : Drops id d d') (hd : d.Full) : d'.Full := by
  intro j hj
  obtain ⟨n, hn⟩ := Generation.contains_iff.1 hj
  rw [h.node?] at hn
  split_ifs at hn with hid
  obtain ⟨i, hi⟩ := hd j (Generation.contains_of_node? hn)
  have hne : i ≠ id := fun heq => hid (heq ▸ hi)
  exact ⟨i, by rw [h.get?_of_ne hne, hi]⟩

/-- The node is used only by nodes that are gone or have been written anew. -/
def Unused (g : Generation Exact) (R T : Set NodeId) (d : Draft Exact) (id : NodeId) : Prop :=
  ∀ u, id ∈ g.operands u → ¬ g.isUnion u ∧ (u ∈ R ∨ u ∈ T ∧ ∃ k, d.mapping.get? u = some k)

theorem Frame.drop (h : Frame g R T d) (hd : Drops id d d') (hu : Unused g R T d id)
    (hin : d'.input = g) (hr : ∀ i, d'.isRemoved i ↔ d.isRemoved i ∨ i = id)
    (htame : d'.output.Tame) (hissued : ∀ o, d.output.Issued o → d'.output.Issued o)
    (hcr : d'.created = d.created) : Frame g (R ∪ {id}) T d' := by
  have hne : ∀ {i k}, d'.mapping.get? i = some k → d.mapping.get? id ≠ some k := fun hk hid =>
    (hd.ne_of_get? hk).1 (h.injective _ id _ (hd.ne_of_get? hk).2 hid)
  have hout : ∀ {i}, i ≠ id → d'.out i = d.out i := fun hi => by
    rw [out, hd.get?_of_ne hi, out]
  have hmem : ∀ {i k}, d'.mapping.get? i = some k → ∀ m ∈ Knowledge.members g i, m ≠ id := by
    intro i k hk m hm
    by_cases hun : g.isUnion i
    · rintro rfl
      obtain ⟨e, he, hop⟩ := hun
      rw [members_of_isUnion he hop] at hm
      refine (hu i ?_).1 ⟨e, he, hop⟩
      rwa [Generation.operands_of_node? (Generation.expression?_eq.1 he)]
    · rw [mem_members_of_not_isUnion hun] at hm
      rw [hm]
      exact (hd.ne_of_get? hk).1
  constructor
  case input => exact hin
  case tame => exact htame
  case removed =>
    intro i
    rw [hr, h.removed]
    rfl
  case contains =>
    intro i k hk
    obtain ⟨hi, hk'⟩ := hd.ne_of_get? hk
    obtain ⟨hc, hc'⟩ := h.contains i k hk'
    refine ⟨hc, ?_⟩
    rw [Generation.contains_iff] at hc' ⊢
    rwa [hd.node?_of_ne (hne hk)]
  case kept =>
    intro i k hk
    obtain ⟨hi, hk'⟩ := hd.ne_of_get? hk
    rintro (hR | hR)
    · exact h.kept i k hk' hR
    · exact hi hR
  case injective =>
    intro i i' k hk hk'
    exact h.injective i i' k (hd.ne_of_get? hk).2 (hd.ne_of_get? hk').2
  case copied =>
    intro i k n hk hT hn
    obtain ⟨hi, hk'⟩ := hd.ne_of_get? hk
    obtain ⟨hcopy, hop⟩ := h.copied i k n hk' hT hn
    have hoid : ∀ o ∈ n.operands, o ≠ id := by
      rintro o ho rfl
      rcases (hu i (by rwa [Generation.operands_of_node? hn])).2 with hR | ⟨hT', -⟩
      · exact h.kept i k hk' hR
      · exact hT hT'
    refine ⟨?_, fun o ho => ?_⟩
    · rw [hd.node?_of_ne (hne hk), hcopy, Node.rename_congr fun o ho => hout (hoid o ho)]
    · rw [hd.get?_of_ne (hoid o ho)]
      exact hop o ho
  case outlines =>
    intro i k hk
    obtain ⟨hi, hk'⟩ := hd.ne_of_get? hk
    refine (h.outlines i k hk').congr ?_ (hout hi) fun m hm => hout (hmem hk m hm)
    rw [out_of_get? hk', hd.node?_of_ne (hne hk)]
  case members =>
    intro i k hk m hm
    rw [hd.get?_of_ne (hmem hk m hm)]
    exact h.members i k (hd.ne_of_get? hk).2 m hm
  case unions =>
    intro i k hk hun
    exact h.unions i k (hd.ne_of_get? hk).2
      ((Generation.isUnion_congr (hd.node?_of_ne (hne hk))).1 hun)
  case parameters =>
    intro i k p hk hp
    rw [hd.node?_of_ne (hne hk)]
    exact h.parameters i k p (hd.ne_of_get? hk).2 hp
  case ready =>
    intro i n hn hiR hnone o ho
    have hi : i ≠ id := fun heq => hiR (Or.inr heq)
    rw [hd.get?_of_ne hi] at hnone
    rintro (hR | hR)
    · exact h.ready i n hn (fun hiR' => hiR (Or.inl hiR')) hnone o ho hR
    · obtain rfl : o = id := hR
      rcases (hu i (by rwa [Generation.operands_of_node? hn])).2 with hR | ⟨-, k, hk⟩
      · exact hiR (Or.inl hR)
      · simp [hnone] at hk
  case created =>
    intro e c hc
    rw [hcr] at hc
    obtain ⟨hspare, ⟨e', he'⟩, hiss, hsame⟩ := h.created e c hc
    have hcid : d.mapping.get? id ≠ some c := hspare id
    refine ⟨fun i hi => hspare i (hd.ne_of_get? hi).2, ⟨e', by rw [hd.node?_of_ne hcid, he']⟩,
      fun o ho => hissued o (hiss o ho), fun hall => ?_⟩
    rw [hd.node?_of_ne hcid]
    refine hsame fun o ho => ?_
    obtain ⟨m, hm⟩ := Generation.contains_iff.1 (hall o ho)
    rw [hd.node?] at hm
    split_ifs at hm
    exact Generation.contains_of_node? hm

/-- Removal of an input node that has no users left in the output. -/
theorem runs_remove {r : Unit} (hid : id ≠ .null)
    (hinj : ∀ i j, d.mapping.get? i = some j → d.mapping.get? id = some j → i = id)
    (hout : ∀ j, d.mapping.get? id = some j → d.output.contains j ∧ d.output.users j = [])
    (hr : Runs (Draft.remove id) d r d') : Drops id d d' ∧ d'.input = d.input ∧
      (∀ i, d'.isRemoved i ↔ d.isRemoved i ∨ i = id) ∧ d'.created = d.created ∧
      (d'.output = d.output ∧ d.mapping.get? id = none ∨
        ∃ j, d.mapping.get? id = some j ∧ d.output.Removed j d'.output) := by
  unfold Draft.remove markDirty markRemoved at hr
  rw [runs_modify_bind, runs_modify_bind, runs_modify_bind, runs_get_bind] at hr
  have hal := runs_log hr
  dsimp only at hal
  cases hj : d.mapping.get? id with
  | none =>
    rw [hj] at hal
    refine ⟨⟨fun i => ?_, fun j => ?_⟩, hal.input, fun i => ?_, hal.created,
      Or.inl ⟨hal.output, rfl⟩⟩
    · rw [hal.mapping]
      split_ifs with hi
      · rw [hi, hj]
      · rfl
    · rw [hal.output, hj]
      simp
    · rw [isRemoved, hal.removed]
      exact NodeMap.contains_insert hid
  | some j =>
    rw [hj] at hal
    obtain ⟨hc, hu⟩ := hout j hj
    have hspare : Spare { d with mapping := d.mapping.erase id } j := fun i hi => by
      rw [NodeMap.get?_erase_of_ne hid] at hi
      split_ifs at hi with hid'
      exact hid' (hinj i j hi hj)
    dsimp only at hal
    rw [removeOutput_eq (by exact hc) (by exact hu) (by exact hspare)] at hal
    have hrem := Generation.removed_of_remove hc hu
    refine ⟨⟨fun i => ?_, fun k => ?_⟩, hal.input, fun i => ?_, hal.created,
      Or.inr ⟨j, rfl, by rw [hal.output]; exact hrem⟩⟩
    · rw [hal.mapping]
      exact NodeMap.get?_erase_of_ne hid i
    · rw [hal.output, hj, hrem.node?]
      simp [eq_comm]
    · rw [isRemoved, hal.removed]
      exact NodeMap.contains_insert hid

/-- A node that is no longer used goes. -/
theorem Simulates.remove {r : Unit} (h : Simulates g R T K ∅ d) (hn : g.node? id = some n)
    (hT : id ∉ T) (hu : Unused g R T d id)
    (hout : ∀ j, d.mapping.get? id = some j → d.output.users j = [])
    (hK : ∀ v, K v → n.Holds (listed g v) (v id)) (hr : Runs (Draft.remove id) d r d') :
    Simulates g (R ∪ {id}) T K ∅ d' ∧ Drops id d d' := by
  have hid : id ≠ .null := Generation.ne_null_of_contains (Generation.contains_of_node? hn)
  obtain ⟨hd, hin, hrem, hcr, hoc⟩ := runs_remove hid
    (fun i j hi hj => h.injective i id j hi hj)
    (fun j hj => ⟨(h.contains id j hj).2, hout j hj⟩) hr
  have hag : ∀ {v w}, d.Agrees v w → d'.Agrees v w := fun ha i k hk =>
    ha i k (hd.ne_of_get? hk).2
  rcases hoc with ⟨ho, hnone⟩ | ⟨j, hj, hr'⟩
  · refine ⟨⟨h.toFrame.drop hd hu (hin.trans h.input) hrem (ho ▸ h.tame) (fun o hi => ho ▸ hi) hcr,
      by simp, fun v hv => ?_, fun v w hw ha hk i k m hi => ?_⟩, hd⟩
    · obtain ⟨w, hw⟩ := h.forth v hv
      exact ⟨w, hv, ho ▸ hw.output, hag hw.agrees, by simp⟩
    · refine h.back v w (ho ▸ hw) (fun i k hik => ha i k ?_) hk i k m (hd.ne_of_get? hi).2
      rw [hd.get?_of_ne fun heq => by simp [heq, hnone] at hik, hik]
  · have hlinked := h.tame.linked
    refine ⟨⟨h.toFrame.drop hd hu (hin.trans h.input) hrem (h.tame.remove hr' (hout j hj))
      hr'.issued hcr, by simp, fun v hv => ?_, fun v w hw ha hk i k m hi => ?_⟩, hd⟩
    · obtain ⟨w, hw⟩ := h.forth v hv
      exact ⟨w, hv, (models_of_removed hr' hlinked (hout j hj)).2 (hw.output.modelsOff _),
        hag hw.agrees, by simp⟩
    · -- the copy comes back with the value of the node
      obtain ⟨hcopy, hop⟩ := h.copied id j n hj hT hn
      have hupd : ∀ k, k ≠ j → Function.update w j (v id) k = w k := fun k hkj =>
        Function.update_of_ne hkj _ _
      have hag' : d.Agrees v (Function.update w j (v id)) := fun i k hik => by
        by_cases hi : i = id
        · subst hi
          rw [hj] at hik
          cases hik
          rw [Function.update_self]
        · rw [hupd k fun hkj => hi (h.injective i id j (hkj ▸ hik) hj)]
          exact ha i k (by rw [hd.get?_of_ne hi, hik])
      have hoff : ModelsOff {j} d.output (Function.update w j (v id)) := by
        refine (models_of_removed hr' hlinked (hout j hj)).1 ?_
        refine hw.congr (hr'.linked (hout j hj) hlinked) fun k hkc => hupd k ?_
        rintro rfl
        obtain ⟨m, hm⟩ := Generation.contains_iff.1 hkc
        simp [hr'.node?] at hm
      have hmodels : Models d.output (Function.update w j (v id)) := by
        intro k m hm
        by_cases hkj : k = j
        · subst hkj
          rw [hcopy] at hm
          cases hm
          rw [Function.update_self]
          exact (h.holds_rename hag' hop).2 (hK v hk)
        · exact hoff k m hm hkj
      exact h.back v _ hmodels hag' hk i k m (hd.ne_of_get? hi).2

end Draft

end ParameterSolver
