import ParameterSolver.Proofs.Draft.Edit

/-! A new parameter in the place of a node. If the node has been copied, the users of the copy are made
to use the parameter before the copy goes. -/

namespace ParameterSolver

open Exact ParameterSolver.Valuation Operand

/-- Where an operand is found after `old` has given way to `target`. -/
def reroute (old target o : NodeId) : NodeId := if o = old then target else o

namespace Generation

variable {g g' g'' : Generation Exact} {old target j : NodeId} {n : Node Exact} {w : Valuation}

theorem reroute_self : reroute old target old = target := if_pos rfl

theorem reroute_of_ne (h : j ≠ old) : reroute old target j = j := if_neg h

theorem rename_reroute_of_not_mem (h : old ∉ n.operands) : n.rename (reroute old target) = n := by
  have hid : n.rename (reroute old target) = n.rename fun o => o :=
    Node.rename_congr fun o ho => reroute_of_ne fun heq => h (heq ▸ ho)
  rw [hid]
  cases n <;> simp [Node.rename]

theorem not_mem_rename_reroute (h : old ≠ target) :
    old ∉ (n.rename (reroute old target)).operands := by
  rw [Node.operands_rename]
  intro hmem
  obtain ⟨o, -, ho⟩ := List.mem_map.1 hmem
  unfold reroute at ho
  split_ifs at ho with hold
  · exact h ho.symm
  · exact hold ho

/-- The nodes in `D` use `target` in the place of `old`. -/
structure Rewired (g : Generation Exact) (old target : NodeId) (D : Set NodeId)
    (g' : Generation Exact) : Prop where
  tame : g'.Tame
  issued : ∀ o, g.Issued o → g'.Issued o
  done : ∀ j ∈ D, g'.node? j = (g.node? j).map (·.rename (reroute old target))
  rest : ∀ j ∉ D, g'.node? j = g.node? j

/-- Nothing uses `old` any more, and it is gone. -/
structure Rerouted (g : Generation Exact) (old target : NodeId) (g' : Generation Exact) : Prop where
  tame : g'.Tame
  issued : ∀ o, g.Issued o → g'.Issued o
  gone : g'.node? old = none
  node? : ∀ j, j ≠ old → g'.node? j = (g.node? j).map (·.rename (reroute old target))

theorem Rewired.isUnion_iff {D : Set NodeId} (h : g.Rewired old target D g') :
    g'.isUnion j ↔ g.isUnion j := by
  by_cases hj : j ∈ D
  · unfold isUnion expression?
    rw [h.done j hj]
    cases g.node? j with
    | none => simp
    | some n => cases n <;> simp [Node.rename, Node.expression?]
  · exact isUnion_congr (h.rest j hj)

theorem Rewired.contains_iff {D : Set NodeId} (h : g.Rewired old target D g') :
    g'.contains j ↔ g.contains j := by
  rw [Generation.contains_iff, Generation.contains_iff]
  by_cases hj : j ∈ D
  · rw [h.done j hj]
    simp
  · rw [h.rest j hj]

/-- One more node is rewired. -/
theorem Rewired.replace {D : Set NodeId} (h : g.Rewired old target D g')
    (hne : old ≠ target) (ht : ¬ g.isUnion target) (hn : g'.node? j = some n)
    (hr : g'.Replaced j (n.rename (reroute old target)) g'') :
    g.Rewired old target (D ∪ {j}) g'' := by
  have hself : (g.node? j).map (·.rename (reroute old target))
      = some (n.rename (reroute old target)) := by
    by_cases hj : j ∈ D
    · have hd := h.done j hj
      rw [hn] at hd
      rw [← hd, rename_reroute_of_not_mem]
      cases hg : g.node? j with
      | none => rw [hg] at hd; cases hd
      | some m =>
        rw [hg] at hd
        cases hd
        exact not_mem_rename_reroute hne
    · rw [← h.rest j hj, hn]
      rfl
  have hadm : g'.Admits (n.rename (reroute old target)) := by
    intro e he
    cases n <;> cases he
    rename_i e
    obtain ⟨hm, ho⟩ := h.tame.admits j _ hn e rfl
    refine ⟨hm, fun hgath => ⟨(ho hgath).1, fun o hmem => ?_⟩⟩
    obtain ⟨i, hi, rfl⟩ := List.mem_map.1 hmem
    by_cases hio : i = old
    · rw [hio, reroute_self, h.isUnion_iff]
      exact ht
    · rw [reroute_of_ne hio]
      exact (ho hgath).2 i hi
  refine ⟨h.tame.replace hr hadm ?_, fun o ho => hr.issued o (h.issued o ho), fun k hk => ?_,
    fun k hk => ?_⟩
  · rw [isUnion_iff_of_node? hr.node?_self, isUnion_iff_of_node? hn]
    rintro ⟨e, he, hop⟩
    cases n <;> cases he
    exact ⟨_, rfl, hop⟩
  · by_cases hkj : k = j
    · rw [hkj, hr.node?_self, hself]
    · rw [hr.node?_of_ne hkj]
      exact h.done k (hk.resolve_right hkj)
  · have hkj : k ≠ j := fun heq => hk (Or.inr heq)
    rw [hr.node?_of_ne hkj]
    exact h.rest k fun hkD => hk (Or.inl hkD)

/-- Once all users of a node are rewired, nothing uses it. -/
theorem Rewired.users_eq {D : Set NodeId} (h : g.Rewired old target D g') (hg : g.Tame)
    (hne : old ≠ target) (hD : ∀ u ∈ g.users old, u ∈ D) : g'.users old = [] := by
  refine List.eq_nil_iff_forall_not_mem.2 fun u hu => ?_
  rw [h.tame.linked.users] at hu
  by_cases huD : u ∈ D
  · have hd := h.done u huD
    cases hn : g.node? u with
    | none =>
      rw [hn] at hd
      rw [operands_of_not_node? hd] at hu
      cases hu
    | some n =>
      rw [hn] at hd
      rw [operands_of_node? hd] at hu
      exact not_mem_rename_reroute hne hu
  · rw [operands_congr (h.rest u huD), ← hg.linked.users] at hu
    exact huD (hD u hu)

theorem Rewired.rerouted {D : Set NodeId} (h : g.Rewired old target D g') (hg : g.Tame)
    (hne : old ≠ target) (hD : ∀ u ∈ g.users old, u ∈ D) (hr : g'.Removed old g'') :
    g.Rerouted old target g'' := by
  refine ⟨h.tame.remove hr (h.users_eq hg hne hD), fun o ho => hr.issued o (h.issued o ho), ?_,
    fun j hj => ?_⟩
  · rw [hr.node?, if_pos rfl]
  · rw [hr.node?, if_neg hj]
    by_cases hjD : j ∈ D
    · exact h.done j hjD
    · rw [h.rest j hjD]
      cases hn : g.node? j with
      | none => rfl
      | some n =>
        have hmem : old ∉ n.operands := fun ho => hjD (hD j (by
          rwa [hg.linked.users, operands_of_node? hn]))
        rw [Option.map_some, rename_reroute_of_not_mem hmem]

namespace Rerouted

variable (h : g.Rerouted old target g') {p : Parameter Exact}

include h

theorem contains_iff : g'.contains j ↔ g.contains j ∧ j ≠ old := by
  rw [Generation.contains_iff, Generation.contains_iff]
  by_cases hj : j = old
  · subst hj
    simp [h.gone]
  · rw [h.node? j hj]
    simp [hj]

theorem node?_target (hne : old ≠ target) (ht : g.node? target = some (.parameter p)) :
    g'.node? target = some (.parameter p) := by
  rw [h.node? target hne.symm, ht]
  rfl

/-- What is read of a node stays, if `old` is read like a parameter. -/
theorem outlines (hne : old ≠ target) (ht : g.node? target = some (.parameter p))
    {e : Expression} (ho : g.node? old = some (.expression e)) (hu : e.op ≠ .union)
    (hj : g.contains j) : Outlines g g' (reroute old target) j := by
  by_cases hold : j = old
  · subst hold
    have ht' := h.node?_target hne ht
    have hu' : ¬ g.isUnion j := by
      rw [isUnion_iff_of_node? ho]
      rintro ⟨_, ⟨⟩, hop⟩
      exact hu hop
    have hut : ¬ g'.isUnion target := by simp [isUnion_iff_of_node? ht']
    refine ⟨?_, fun y => ?_⟩
    · rw [reroute_self, givenSet?, given?, ht', givenSet?, given?, ho]
      rfl
    · rw [reroute_self, mem_members_of_not_isUnion hut, members_of_not_isUnion hu']
      simp [reroute_self, eq_comm]
  · obtain ⟨n, hn⟩ := Generation.contains_iff.1 hj
    refine outlines_of_rename hn ?_
    rw [reroute_of_ne hold, h.node? j hold, hn]
    rfl

/-- A model of what is left, with the value of `target` for `old`. -/
theorem models_iff (hg : g.Tame) (hne : old ≠ target)
    (ht : g.node? target = some (.parameter p)) {e : Expression}
    (ho : g.node? old = some (.expression e)) (hu : e.op ≠ .union) (hw : w old = w target) :
    Models g' w ↔ ModelsOff {old} g w := by
  have hread : ∀ o, g.contains o → listed g' w (reroute old target o) = listed g w o := by
    have hval : ∀ o, w (reroute old target o) = w o := fun o => by
      by_cases hold : o = old
      · rw [hold, reroute_self, hw]
      · rw [reroute_of_ne hold]
    exact fun o hc => (h.outlines hne ht ho hu hc).listed (hval o) fun m _ => hval m
  constructor
  · intro hm j n hn hj
    have hh := hm j _ (by rw [h.node? j hj, hn]; rfl)
    rw [Node.holds_rename] at hh
    exact hh.congr fun o hmem => (hread o (hg.linked.contains hn hmem)).symm
  · intro hm j n hn
    by_cases hj : j = old
    · rw [hj, h.gone] at hn
      cases hn
    · rw [h.node? j hj] at hn
      obtain ⟨m, hm', rfl⟩ := Option.map_eq_some_iff.1 hn
      rw [Node.holds_rename]
      exact (hm j m hm' hj).congr fun o hmem => hread o (hg.linked.contains hm' hmem)

end Rerouted

end Generation

namespace Draft

variable {g o' : Generation Exact} {R T : Set NodeId} {K : Valuation → Prop}
  {P : Set (NodeId × NodeId)} {d d' : Draft Exact} {id old target : NodeId} {e : Expression}
  {p : Parameter Exact}

theorem runs_rewire {D : Set NodeId} {u : NodeId} {r : Unit}
    (h : g.Rewired old target D d.output) (hne : old ≠ target) (ht : ¬ g.isUnion target)
    (hr : Runs (rewire old target u) d r d') :
    ∃ o', d' = { d with output := o' } ∧ g.Rewired old target (D ∪ {u}) o' := by
  unfold rewire at hr
  rw [runs_get_bind] at hr
  split at hr
  · rename_i e q us hget
    have hn : d.output.node? u = some (.expression e) := by
      rw [Generation.node?, hget]
      rfl
    dsimp only at hr
    split at hr
    · rename_i o' ho
      exact ⟨o', runs_set.1 hr, h.replace hne ht hn (Generation.replaced_of_replace ho)⟩
    · exact absurd hr runs_throw
  · rename_i hno
    obtain ⟨-, rfl⟩ := runs_pure.1 hr
    refine ⟨d'.output, rfl, h.tame, h.issued, fun j hj => ?_, fun j hj => h.rest j fun hjD =>
      hj (Or.inl hjD)⟩
    by_cases hjD : j ∈ D
    · exact h.done j hjD
    · -- a node that is no expression has no operands
      obtain rfl : j = u := hj.resolve_left hjD
      rw [h.rest j hjD]
      cases hn : g.node? j with
      | none => rfl
      | some n =>
        have hn' := (h.rest j hjD).trans hn
        obtain ⟨entry, hentry, rfl⟩ := Option.map_eq_some_iff.1 hn'
        cases hnode : entry.node with
        | expression e => exact absurd (hentry.trans (by rw [← hnode])) (hno e _ _)
        | _ => rfl

theorem runs_rewireAll {us : List NodeId} {r : PUnit} (hd : d.output.Tame) (hne : old ≠ target)
    (ht : ¬ d.output.isUnion target) (hr : Runs (us.forM (rewire old target)) d r d') :
    ∃ o', d' = { d with output := o' } ∧ d.output.Rewired old target { u | u ∈ us } o' := by
  refine runs_forM (P := fun done d' => ∃ o', d' = { d with output := o' } ∧
    d.output.Rewired old target { u | u ∈ done } o') (fun done u rest _ d₁ d₂ r hP hr => ?_)
    (List.nil_append _) ⟨d.output, rfl, hd, fun _ h => h, by simp, fun _ _ => rfl⟩ hr
  obtain ⟨o₁, rfl, h⟩ := hP
  obtain ⟨o₂, rfl, h'⟩ := runs_rewire h hne ht hr
  refine ⟨o₂, rfl, ?_⟩
  have hD : ({ u | u ∈ done } : Set NodeId) ∪ {u} = { i | i ∈ done ++ [u] } := by
    ext i
    simp [or_comm]
  rw [← hD]
  exact h'

/-- The parameter has taken the place of the copy. -/
theorem Frame.rerouted (h : Frame g R T d) (hn : g.node? id = some (.expression e))
    (hu : e.op ≠ .union) (hT : id ∉ T) (hj : d.mapping.get? id = some old) (hne : old ≠ target)
    (ht : d.output.node? target = some (.parameter p)) (hs : d.Spare target)
    (hr : d.output.Rerouted old target o') :
    Frame g R (T ∪ {id}) { d with output := o', mapping := d.mapping.insert id target } := by
  obtain ⟨hcopy, -⟩ := h.copied id old _ hj hT hn
  have hbinds : d.mapping.Binds id target (d.mapping.insert id target) :=
    NodeMap.binds_insert (Generation.ne_null_of_contains (Generation.contains_of_node? hn))
  have hcases : ∀ i k, (d.mapping.insert id target).get? i = some k →
      (i = id ∧ k = target) ∨ (i ≠ id ∧ d.mapping.get? i = some k ∧ k ≠ old) := fun i k hk =>
    (hbinds.cases_of_injective h.injective hk).imp_right fun ⟨hi, hk, hold⟩ =>
      ⟨hi, hk, fun hko => hold (hko ▸ hj)⟩
  have hout : ∀ i, (∃ k, d.mapping.get? i = some k) →
      ({ d with output := o', mapping := d.mapping.insert id target } : Draft Exact).out i
        = reroute old target (d.out i) := by
    rintro i ⟨k, hk⟩
    have hk' := out_of_get? hk
    by_cases hi : i = id
    · subst hi
      rw [hj] at hk
      cases hk
      rw [hk', Generation.reroute_self]
      exact out_of_get? hbinds.self
    · have hko : k ≠ old := fun hko => hi (h.injective i id old (hko ▸ hk) hj)
      rw [hk', Generation.reroute_of_ne hko]
      exact out_of_get? ((hbinds.of_ne hi).trans hk)
  have hmapped : ∀ i k, (d.mapping.insert id target).get? i = some k →
      ∃ k', d.mapping.get? i = some k' := by
    intro i k hk
    rcases hcases i k hk with ⟨rfl, -⟩ | ⟨-, hk, -⟩
    · exact ⟨old, hj⟩
    · exact ⟨k, hk⟩
  constructor
  case input => exact h.input
  case tame => exact hr.tame
  case removed => exact h.removed
  case contains =>
    intro i k hk
    rcases hcases i k hk with ⟨rfl, rfl⟩ | ⟨-, hk, hko⟩
    · exact ⟨Generation.contains_of_node? hn,
        Generation.contains_of_node? (hr.node?_target hne ht)⟩
    · exact ⟨(h.contains i k hk).1, hr.contains_iff.2 ⟨(h.contains i k hk).2, hko⟩⟩
  case kept =>
    intro i k hk
    obtain ⟨k', hk'⟩ := hmapped i k hk
    exact h.kept i k' hk'
  case injective =>
    exact fun i i' k hk hk' => hbinds.injective hs h.injective hk hk'
  case copied =>
    intro i k n hk hi hn'
    rcases hcases i k hk with ⟨rfl, -⟩ | ⟨-, hk, hko⟩
    · exact absurd (Or.inr rfl) hi
    · obtain ⟨hnode, hop⟩ := h.copied i k n hk (fun hiT => hi (Or.inl hiT)) hn'
      refine ⟨?_, fun o ho => hbinds.exists_get? (hop o ho)⟩
      have hren : n.rename ({ d with output := o', mapping := d.mapping.insert id target }
          : Draft Exact).out = (n.rename d.out).rename (reroute old target) := by
        rw [Node.rename_congr fun o ho => hout o (hop o ho)]
        cases n <;> simp [Node.rename]
      rw [hren, hr.node? k hko, hnode]
      rfl
  case outlines =>
    intro i k hk
    obtain ⟨k', hk'⟩ := hmapped i k hk
    have hcomp := (h.outlines i k' hk').comp (hr.outlines hne ht hcopy (by exact hu)
      (j := d.out i) (by rw [out_of_get? hk']; exact (h.contains i k' hk').2))
    refine hcomp.congr rfl (hout i ⟨k', hk'⟩) fun m hm => hout m (h.members i k' hk' m hm)
  case members =>
    intro i k hk m hm
    obtain ⟨k', hk'⟩ := hmapped i k hk
    exact hbinds.exists_get? (h.members i k' hk' m hm)
  case unions =>
    intro i k hk hun
    rcases hcases i k hk with ⟨rfl, rfl⟩ | ⟨-, hk, hko⟩
    · simp [isUnion_iff_of_node? (hr.node?_target hne ht)] at hun
    · refine h.unions i k hk ?_
      unfold Generation.isUnion Generation.expression? at hun ⊢
      rw [hr.node? k hko] at hun
      cases hnk : d.output.node? k with
      | none => simp [hnk] at hun
      | some n =>
        rw [hnk] at hun
        cases n <;> simp_all [Node.rename, Node.expression?]
  case parameters =>
    intro i k p' hk hp'
    rcases hcases i k hk with ⟨rfl, -⟩ | ⟨-, hk, hko⟩
    · rw [hn] at hp'
      cases hp'
    · obtain ⟨q, hq⟩ := h.parameters i k p' hk hp'
      exact ⟨q, by rw [hr.node? k hko, hq]; rfl⟩
  case ready =>
    intro i n hn' hiR hnone
    refine h.ready i n hn' hiR ?_
    cases hk : d.mapping.get? i with
    | none => rfl
    | some k =>
      obtain ⟨k', hk'⟩ := hbinds.exists_get? ⟨k, hk⟩
      cases hnone.symm.trans hk'
  case created =>
    intro e' c hc
    obtain ⟨hspare, ⟨e'', he''⟩, hissued, hsame⟩ := h.created e' c hc
    have hco : c ≠ old := fun hco => hspare id (hco ▸ hj)
    refine ⟨fun i hi => ?_, ⟨⟨e''.op, e''.operands.map (reroute old target), e''.asserted⟩, ?_⟩,
      fun o ho => hr.issued o (hissued o ho), fun hall => ?_⟩
    · rcases hcases i c hi with ⟨-, rfl⟩ | ⟨-, hi, -⟩
      · rw [ht] at he''
        cases he''
      · exact hspare i hi
    · rw [hr.node? c hco, he'']
      rfl
    · have hall' := fun o ho => hr.contains_iff.1 (hall o ho)
      rw [hr.node? c hco, hsame fun o ho => (hall' o ho).1, Option.map_some,
        Generation.rename_reroute_of_not_mem fun ho => (hall' old ho).2 rfl]

theorem Simulates.rerouted (h : Simulates g R T K P d) (hn : g.node? id = some (.expression e))
    (hu : e.op ≠ .union) (hT : id ∉ T) (hj : d.mapping.get? id = some old) (hne : old ≠ target)
    (ht : d.output.node? target = some (.parameter p)) (hs : d.Spare target) (hp : (id, target) ∈ P)
    (hr : d.output.Rerouted old target o')
    (hb : ∀ v w, SparesHold d w → d.Agrees v w → w target = v id → K v →
      Node.Holds (.expression e) (listed g v) (v id)) :
    Simulates g R (T ∪ {id}) K ∅ { d with output := o', mapping := d.mapping.insert id target } := by
  obtain ⟨hcopy, hop⟩ := h.copied id old _ hj hT hn
  have hbinds : d.mapping.Binds id target (d.mapping.insert id target) :=
    NodeMap.binds_insert (Generation.ne_null_of_contains (Generation.contains_of_node? hn))
  have hmodels : ∀ {w : Valuation}, w old = w target → (Models o' w ↔ ModelsOff {old} d.output w) :=
    hr.models_iff h.tame hne ht hcopy (by exact hu)
  refine ⟨h.toFrame.rerouted hn hu hT hj hne ht hs hr, by simp, fun v hv => ?_,
    fun v w hw ha hK i k n hk hn' => ?_⟩
  · obtain ⟨w, hw⟩ := h.forth v hv
    have hold : w old = w target := by rw [hw.agrees id old hj, hw.pinned _ hp]
    refine ⟨w, hv, (hmodels hold).2 (hw.output.modelsOff _), fun i k hk => ?_, by simp⟩
    rcases hbinds.cases hk with ⟨rfl, rfl⟩ | ⟨-, hk⟩
    · exact hw.pinned _ hp
    · exact hw.agrees i k hk
  · -- the copy gets the value of the parameter back
    have hself : w target = v id := ha id target hbinds.self
    have hupd : ∀ j, j ≠ old → Function.update w old (w target) j = w j := fun j hj =>
      Function.update_of_ne hj _ _
    have hag : d.Agrees v (Function.update w old (w target)) := fun i k hik => by
      by_cases hi : i = id
      · subst hi
        rw [hj] at hik
        cases hik
        rw [Function.update_self, hself]
      · rw [hupd k fun hko => hi (h.injective i id old (hko ▸ hik) hj)]
        exact ha i k ((hbinds.of_ne hi).trans hik)
    have hw' : Models o' (Function.update w old (w target)) :=
      hw.congr hr.tame.linked fun j hj => hupd j (hr.contains_iff.1 hj).2
    have hoff := (hmodels (by rw [Function.update_self, hupd target hne.symm])).1 hw'
    have hspares : SparesHold d (Function.update w old (w target)) := fun j m hm hsp =>
      hoff j m hm fun hjo => hsp id (Set.mem_singleton_iff.1 hjo ▸ hj)
    have hid := hb v _ hspares hag (by rw [hupd target hne.symm, hself]) hK
    have hout : Models d.output (Function.update w old (w target)) := by
      intro j m hm
      by_cases hjo : j = old
      · subst hjo
        rw [hcopy] at hm
        cases hm
        rw [hag id j hj]
        exact (h.holds_rename hag hop).2 hid
      · exact hoff j m hm hjo
    have hmapped : ∃ k', d.mapping.get? i = some k' := by
      rcases hbinds.cases hk with ⟨rfl, -⟩ | ⟨-, hk⟩
      · exact ⟨old, hj⟩
      · exact ⟨k, hk⟩
    obtain ⟨k', hk'⟩ := hmapped
    exact h.back v _ hout hag hK i k' n hk' hn'

theorem fills_of_parameter (hu : e.op ≠ .union) : Fills d (.expression e) (.parameter p) :=
  .of_leaf rfl (by simpa [isUnion] using hu) (by simp [isUnion]) (by simp)

/-- A new parameter with the value of an untouched expression takes its place. -/
theorem Simulates.redirect {r : Unit} (h : Simulates g R T K P d)
    (hn : g.node? id = some (.expression e)) (hu : e.op ≠ .union) (hR : id ∉ R) (hT : id ∉ T)
    (ht : d.output.node? target = some (.parameter p)) (hs : d.Spare target) (hp : (id, target) ∈ P)
    (hb : ∀ v w, SparesHold d w → d.Agrees v w → w target = v id → K v →
      Node.Holds (.expression e) (listed g v) (v id))
    (hr : Runs (Draft.redirect id target) d r d') : Simulates g R (T ∪ {id}) K ∅ d' := by
  have hcr : ∀ e', (e', target) ∉ d.created := fun e' hc => by
    obtain ⟨-, ⟨e'', he''⟩, -⟩ := h.created e' target hc
    rw [ht] at he''
    cases he''
  have hug : ¬ g.isUnion id := by
    rw [isUnion_iff_of_node? hn]
    rintro ⟨_, ⟨⟩, hop⟩
    exact hu hop
  have hut : ¬ d.output.isUnion target := by simp [isUnion_iff_of_node? ht]
  unfold Draft.redirect markDirty at hr
  rw [runs_get_bind, Generation.contains_of_node? ht] at hr
  simp only [Bool.not_true, Bool.false_eq_true, if_false] at hr
  rw [runs_modify_bind] at hr
  obtain ⟨q, d₀, hq, hr₀⟩ := runs_bind.1 hr
  rw [eq_of_runs_inputProvenance hq, runs_get_bind, runs_modify_bind] at hr₀
  have hnode : ∀ j, (d.output.addProvenance target q).node? j = d.output.node? j :=
    Generation.node?_addProvenance
  have h₁ := h.addProvenance (p := q) target
  have ht₁ := (hnode target).trans ht
  have hb₁ : ∀ v w, SparesHold { d with output := d.output.addProvenance target q } w →
      d.Agrees v w → w target = v id → K v → Node.Holds (.expression e) (listed g v) (v id) := by
    intro v w hsp
    refine hb v w fun j m hm hj => ?_
    refine (hsp j m ((hnode j).trans hm) hj).congr fun o _ => ?_
    exact ((outlines_of_node? (hnode o)).listed rfl fun _ _ => rfl).symm
  split at hr₀
  · rename_i hun
    obtain ⟨-, rfl⟩ := runs_pure.1 hr₀
    have h₂ : Simulates g R (T ∪ {id}) K P _ := h₁.mono Set.subset_union_left
    refine ((h₂.bind hn hR hun hs hcr hp (fun f hf hfo => ?_)
      (fun m hm => Or.inl ((mem_members_of_not_isUnion hug).1 hm)) (fun hun' => ?_) (by simp)
      (fun hT' => absurd (Or.inr rfl) hT') fun v w hw ha hwt hK => ?_).unpin
        (Set.empty_subset _)).alike ⟨rfl, rfl, rfl, rfl, rfl⟩
    · exact (fills_of_parameter (d := d) hu).outlines hn (by rw [hf]; exact ht₁) fun hun' => absurd hun' (by
        rwa [isUnion_iff_of_node? hn] at hug)
    · exact absurd ((Generation.isUnion_congr (hnode target)).1 hun') hut
    · exact hb₁ v w (fun j m hm _ => hw j m hm) ha hwt hK
  · rename_i old hold
    have hne : old ≠ target := fun heq => hs id (heq ▸ hold)
    have hcont : (d.output.addProvenance target q).contains old :=
      (h₁.contains id old hold).2
    rw [runs_get_bind] at hr₀
    simp only [hne, decide_false, hcont, Bool.not_true, Bool.or_self, Bool.false_eq_true,
      if_false] at hr₀
    obtain ⟨_, d₁, hloop, hr₁⟩ := runs_bind.1 hr₀
    have hut₁ : ¬ (d.output.addProvenance target q).isUnion target := fun hun =>
      hut ((Generation.isUnion_congr (hnode target)).1 hun)
    obtain ⟨o₁, rfl, hrew⟩ := runs_rewireAll (by exact h₁.tame) hne (by exact hut₁) hloop
    obtain rfl := runs_modify.1 hr₁
    have hspare : Spare { d with mapping := d.mapping.insert id target } old :=
      (NodeMap.binds_insert (Generation.ne_null_of_contains (Generation.contains_of_node? hn))).gone
        h.injective hold hne
    have hD : ∀ u ∈ (d.output.addProvenance target q).users old,
      u ∈ ({ u | u ∈ (d.output.addProvenance target q).users old } : Set NodeId) := fun _ hu => hu
    have hc := hrew.contains_iff.2 hcont
    have husers := hrew.users_eq h₁.tame hne hD
    have hrer := hrew.rerouted h₁.tame hne hD (Generation.removed_of_remove hc husers)
    rw [removeOutput_eq (by exact hc) (by exact husers) (by exact hspare)]
    refine (h₁.rerouted hn hu hT hold hne ht₁ hs hp hrer hb₁).alike ⟨rfl, rfl, ?_, rfl, rfl⟩
    exact NodeMap.insert_insert

end Draft

end ParameterSolver
