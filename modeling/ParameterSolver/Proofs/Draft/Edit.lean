import ParameterSolver.Proofs.Draft.Simulation

/-! Edits of a draft keep the simulation, when what they write means what it is written for. -/

namespace ParameterSolver

open Exact ParameterSolver.Valuation Operand

namespace Draft

variable {g o' : Generation Exact} {R T : Set NodeId} {K K' : Valuation → Prop}
  {P : Set (NodeId × NodeId)} {d d' : Draft Exact} {id j c : NodeId} {n n' : Node Exact}
  {v w : Valuation} {x : Value ℚ} {op : Operator} {l : List (Operand Exact)} {asserted : Bool}

/-- Other graphs with the same nodes have the same models. -/
theorem models_congr_node? (h : ∀ j, o'.node? j = g.node? j) : Models o' w ↔ Models g w := by
  have hread : listed o' w = listed g w := funext fun j =>
    (outlines_of_node? (h j)).listed rfl fun _ _ => rfl
  simp only [Models, h, hread]

theorem Simulates.addProvenance {p : Provenance} (h : Simulates g R T K P d) (j : NodeId) :
    Simulates g R T K P { d with output := d.output.addProvenance j p } := by
  have hnode : ∀ k, (d.output.addProvenance j p).node? k = d.output.node? k :=
    Generation.node?_addProvenance
  have hcont : ∀ k, (d.output.addProvenance j p).contains k ↔ d.output.contains k := fun k => by
    rw [Generation.contains_iff, Generation.contains_iff, hnode]
  refine ⟨⟨h.input, h.tame.addProvenance, h.removed, fun i k hk => ?_, h.kept, h.injective,
    fun i k m hk hT hm => ?_, fun i k hk => ?_, h.members, fun i k hk hu => ?_,
    fun i k p hk hp => ?_, h.ready,
    fun e c hc => ?_⟩, fun p hp => ?_, fun v hv => ?_, fun v w hw ha => ?_⟩
  · exact ⟨(h.contains i k hk).1, (hcont k).2 (h.contains i k hk).2⟩
  · obtain ⟨hcopy, hop⟩ := h.copied i k m hk hT hm
    exact ⟨(hnode k).trans hcopy, hop⟩
  · exact (h.outlines i k hk).congr (hnode _) rfl fun _ _ => rfl
  · exact h.unions i k hk ((Generation.isUnion_congr (hnode k)).1 hu)
  · obtain ⟨p', hp'⟩ := h.parameters i k p hk hp
    exact ⟨p', (hnode k).trans hp'⟩
  · obtain ⟨hspare, ⟨e', he'⟩, hissued, hsame⟩ := h.created e c hc
    exact ⟨hspare, ⟨e', (hnode c).trans he'⟩, fun o ho => (hissued o ho).addProvenance,
      fun hall => (hnode c).trans (hsame fun o ho => (hcont o).1 (hall o ho))⟩
  · exact (hcont _).2 (h.pins p hp)
  · obtain ⟨w, hw⟩ := h.forth v hv
    exact ⟨w, hv, (models_congr_node? hnode).2 hw.output, hw.agrees, hw.pinned⟩
  · exact h.back v w ((models_congr_node? hnode).1 hw) ha

theorem extends_addProvenance {p : Provenance} :
    Extends d { d with output := d.output.addProvenance j p } :=
  ⟨fun k _ hk => (Generation.node?_addProvenance k).trans hk, fun _ _ h => h, fun _ _ h => h⟩

theorem eq_of_runs_inputProvenance {p : Provenance} (h : Runs (inputProvenance id) d p d') :
    d' = d := by
  unfold inputProvenance at h
  rw [runs_get_bind] at h
  split at h
  · exact (runs_pure.1 h).2
  · exact absurd h runs_throw

theorem eq_of_runs_provenanceOf {sources : List NodeId} {p : Provenance}
    (h : Runs (provenanceOf sources) d p d') : d' = d := by
  have hfold : ∀ (l : List NodeId) (p r : Provenance) (d d' : Draft Exact),
      Runs (l.foldlM (fun p id => return p.union (← inputProvenance id)) p) d r d' → d' = d := by
    intro l
    induction l with
    | nil => exact fun p r d d' h => (runs_pure.1 h).2
    | cons i l ih =>
      intro p r d d' h
      rw [List.foldlM_cons, runs_bind] at h
      obtain ⟨q, d₁, hq, h⟩ := h
      obtain ⟨q', d₂, hq', hq⟩ := runs_bind.1 hq
      rw [ih _ _ _ _ h, (runs_pure.1 hq).2, eq_of_runs_inputProvenance hq']
  unfold provenanceOf at h
  obtain ⟨q, d₁, hq, h⟩ := runs_bind.1 h
  rw [← hfold _ _ _ _ _ hq]
  split_ifs at h
  · rw [bind_pure_comp] at h
    obtain ⟨_, h, -⟩ := runs_map.1 h
    exact absurd h runs_throw
  · exact (runs_pure.1 h).2

/-- A literal for the use of the node that an edit writes. -/
theorem Simulates.insertLiteral {s : ValueSet Exact} {u : Option (MeasureUnit Exact)}
    {p : Provenance} {r : NodeId} (h : Simulates g R T K P d)
    (hr : Runs (Draft.insert (.literal s u) p) d r d') :
    Simulates g R T K P d' ∧ Extends d d' ∧ d'.output.node? r = some (.literal s u) ∧ d'.Spare r := by
  obtain ⟨o', hi, rfl⟩ := runs_insert hr
  refine ⟨(h.insert hi (Generation.admits_leaf (by simp)) ∅ fun v w _ => ?_).unpin
    fun p hp => Or.inl hp, extends_insert hi, hi.node?_self, h.spare_fresh hi⟩
  by_cases hs : ∃ y, y ∈ s
  · obtain ⟨y, hy⟩ := hs
    exact ⟨y, fun t ht _ => by cases ht; exact hy, by simp⟩
  · exact ⟨.boolean true, fun t ht hex => by cases ht; exact absurd hex hs, by simp⟩

theorem Simulates.resolve (hg : g.Tame) {p : Provenance} {r : Option NodeId} {a : Operand Exact}
    (h : Simulates g R T K P d) (hfit : a.Fit g R) (hr : Runs (Draft.resolve p a) d r d') :
    Simulates g R T K P d' ∧ Extends d d' ∧ ∃ k, r = some k ∧ a.Stands d' k := by
  cases a with
  | input o =>
    obtain ⟨h', hext, hk, -⟩ := h.copy hg hfit.1 hfit.2 hr
    exact ⟨h', hext, hk⟩
  | output c =>
    rw [Draft.resolve, runs_get_bind] at hr
    split_ifs at hr with hc
    · obtain ⟨rfl, rfl⟩ := runs_pure.1 hr
      exact ⟨h, .refl _, c, rfl, rfl, hc⟩
    · exact absurd hr runs_throw
  | literal s =>
    rw [Draft.resolve] at hr
    obtain ⟨k, hins, rfl⟩ := runs_map.1 hr
    obtain ⟨h', hext, hnode⟩ := h.insertLiteral hins
    exact ⟨h', hext, k, rfl, hnode⟩

theorem Simulates.resolveAll (hg : g.Tame) {p : Provenance} {r : Option (List NodeId)}
    (h : Simulates g R T K P d) (hfit : ∀ a ∈ l, a.Fit g R)
    (hr : Runs (collect (Draft.resolve p) l) d r d') :
    Simulates g R T K P d' ∧ Extends d d' ∧
      ∃ js, r = some js ∧ List.Forall₂ (Operand.Stands d') l js :=
  collect_spec (fun hq he => hq.mono he)
    (fun a ha _ _ _ h hr => h.resolve hg (hfit a ha) hr) h hr

theorem contains_of_stands {js : List NodeId} (hf : Frame g R T d)
    (h : List.Forall₂ (Operand.Stands d) l js) : ∀ o ∈ js, d.output.contains o := by
  induction h with
  | nil => simp
  | cons hj _ ih => exact List.forall_mem_cons.2 ⟨hj.contains hf, ih⟩

/-- The node was created as an expression over the operands. -/
def Built (d : Draft Exact) (op : Operator) (l : List (Operand Exact)) (asserted : Bool)
    (c : NodeId) : Prop :=
  d.Spare c ∧ ∃ js, d.output.node? c = some (.expression ⟨op, js, asserted⟩) ∧
    List.Forall₂ (Operand.Stands d) l js

theorem Built.mono (h : d.Built op l asserted c) (he : Extends d d') : d'.Built op l asserted c := by
  obtain ⟨hs, js, hc, hjs⟩ := h
  exact ⟨he.spare c (Generation.contains_of_node? hc) hs, js, he.node? c _ hc,
    hjs.imp fun _ _ h => h.mono he⟩

/-- The value of a created expression. -/
theorem Built.denotes (h : d.Built op l asserted c) (hf : Frame g R T d) (ha : d.Agrees v w)
    (hs : SparesHold d w) :
    ∃ rs, List.Forall₂ (Reads g v d w) l rs ∧ op.relaxed.Denotes rs (w c) ∧
      (asserted → w c = .boolean true) := by
  obtain ⟨hspare, js, hc, hjs⟩ := h
  obtain ⟨hd, ht⟩ := hs c _ hc hspare
  exact ⟨_, reads_of_stands hjs hf ha hs, hd, ht⟩

theorem Matches.sparesHold (h : d.Matches g P v w) : SparesHold d w := fun j n hn _ => h.output j n hn

/-- Operands over which the operator makes content that a graph can hold. -/
def Writes (g : Generation Exact) (op : Operator) (l : List (Operand Exact)) (asserted : Bool) :
    Prop :=
  op ∈ Operator.meant ∧ (op ∈ Operator.gathers →
    asserted = false ∧ ∀ a ∈ l, ∃ o, a = .input o ∧ ¬ g.isUnion o)

theorem writes_of_not_gathers (h : op ∈ Operator.meant) (h' : op ∉ Operator.gathers) :
    Writes g op l asserted := ⟨h, fun hg => absurd hg h'⟩

theorem Writes.admits {js : List NodeId} (h : Writes g op l asserted) (hf : Frame g R T d)
    (hjs : List.Forall₂ (Operand.Stands d) l js) :
    d.output.Admits (.expression ⟨op, js, asserted⟩) := by
  have hmem : (∀ a ∈ l, ∃ o, a = .input o ∧ ¬ g.isUnion o) → ∀ o ∈ js, ¬ d.output.isUnion o := by
    clear h
    intro hl
    induction hjs with
    | nil => simp
    | cons hj _ ih =>
      rw [List.forall_mem_cons] at hl
      obtain ⟨⟨i, rfl, hi⟩, hl⟩ := hl
      exact List.forall_mem_cons.2 ⟨fun hu => hi (hf.unions i _ hj hu), ih hl⟩
  rintro e ⟨⟩
  exact ⟨h.1, fun hgath => ⟨(h.2 hgath).1, hmem (h.2 hgath).2⟩⟩

theorem Simulates.addCreated {e : Expression} (h : Simulates g R T K P d) (hs : d.Spare c)
    (hc : d.output.node? c = some (.expression e)) (ho : ∀ o ∈ e.operands, d.output.contains o) :
    Simulates g R T K P { d with created := (e, c) :: d.created } := by
  refine ⟨⟨h.input, h.tame, h.removed, h.contains, h.kept, h.injective, h.copied, h.outlines,
    h.members, h.unions, h.parameters, h.ready, fun e' c' hc' => ?_⟩, h.pins, fun v hv => ?_, h.back⟩
  · rcases List.mem_cons.1 hc' with heq | hc'
    · cases heq
      exact ⟨hs, ⟨e, hc⟩, fun o hoe => Generation.issued_of_contains (ho o hoe), fun _ => hc⟩
    · exact h.created e' c' hc'
  · obtain ⟨w, hw⟩ := h.forth v hv
    exact ⟨w, hw.input, hw.output, hw.agrees, hw.pinned⟩

/-- A new expression that has a value in every model, or one that was created before. -/
theorem Simulates.createExpression (hg : g.Tame) {sources : List NodeId} {r : Option NodeId}
    (h : Simulates g R T K P d) (hfit : ∀ a ∈ l, a.Fit g R) (hw : Writes g op l asserted)
    (hx : ∀ d₁, Extends d d₁ → Frame g R T d₁ → ∀ v w, d₁.Matches g P v w →
      ∀ rs, List.Forall₂ (Reads g v d₁ w) l rs →
        ∃ x, op.relaxed.Denotes rs x ∧ (asserted → x = .boolean true))
    (hr : Runs (Draft.createExpression op l asserted sources) d r d') :
    Simulates g R T K P d' ∧ Extends d d' ∧ ∃ c, r = some c ∧ d'.Built op l asserted c := by
  unfold Draft.createExpression at hr
  obtain ⟨p, d₀, hp, hr₀⟩ := runs_bind.1 hr
  rw [eq_of_runs_provenanceOf hp] at hr₀
  obtain ⟨_, d₁, hcol, hr₁⟩ := runs_bind.1 hr₀
  obtain ⟨h₁, hext, js, rfl, hjs⟩ := h.resolveAll hg hfit hcol
  have hcont := contains_of_stands h₁.toFrame hjs
  dsimp only at hr₁
  rw [runs_get_bind] at hr₁
  split at hr₁
  · rename_i old hold
    rw [runs_set_bind] at hr₁
    obtain ⟨rfl, rfl⟩ := runs_pure.1 hr₁
    unfold reusable? at hold
    split_ifs at hold
    obtain ⟨hlook, -⟩ := Option.filter_eq_some_iff.1 hold
    obtain ⟨hspare, -, -, hsame⟩ := h₁.created _ _ (mem_of_lookup hlook)
    exact ⟨h₁.addProvenance old, hext.trans extends_addProvenance, old, rfl,
      Built.mono ⟨hspare, js, hsame hcont, hjs⟩ extends_addProvenance⟩
  · unfold markDirty at hr₁
    rw [runs_modify_bind] at hr₁
    obtain ⟨c, d₂, hc, hr₂⟩ := runs_bind.1 hr₁
    rw [runs_modify_bind] at hr₂
    obtain ⟨rfl, rfl⟩ := runs_pure.1 hr₂
    have halike : Alike d₁ { d₁ with dirty := true } := ⟨rfl, rfl, rfl, rfl, rfl⟩
    have h₂ := h₁.alike halike
    have hjs₂ := hjs.imp fun _ _ h => h.mono halike.extends
    obtain ⟨o', hi, rfl⟩ := runs_insert hc
    have h₃ := (h₂.insert hi (hw.admits h₂.toFrame hjs₂) ∅ fun v w hm =>
      (hx _ (hext.trans halike.extends) h₂.toFrame v w hm _
        (reads_of_stands hjs₂ h₂.toFrame hm.agrees hm.sparesHold)).imp
          fun x hx => ⟨hx, by simp⟩).unpin fun p hp => Or.inl hp
    have hspare : ({ d₁ with dirty := true, output := o' } : Draft Exact).Spare c :=
      h₂.spare_fresh hi
    have hbuilt : ({ d₁ with dirty := true, output := o' } : Draft Exact).Built op l asserted c :=
      ⟨hspare, js, hi.node?_self,
        hjs₂.imp fun _ _ h => h.mono (extends_insert hi)⟩
    have hext' := hext.trans (halike.extends.trans (extends_insert hi))
    split_ifs
    · refine ⟨h₃.addCreated hspare hi.node?_self fun o ho => hi.contains (hcont o ho),
        hext'.trans ⟨fun _ _ h => h, fun _ _ h => h, fun _ _ h => h⟩, c, rfl, hbuilt.mono
          ⟨fun _ _ h => h, fun _ _ h => h, fun _ _ h => h⟩⟩
    · exact ⟨h₃, hext', c, rfl, hbuilt⟩

/-- The elements of a leaf that is given. -/
def givenSet? (n : Node Exact) : Option (Set (Value ℚ)) := n.given?.map fun s => { x | x ∈ s }

def isUnion (n : Node Exact) : Prop := ∃ e, n = .expression e ∧ e.op = .union

/-- Output content that is read like the input content it is written for. -/
structure Fills (d : Draft Exact) (n n' : Node Exact) : Prop where
  given : givenSet? n' = givenSet? n
  union : isUnion n' ↔ isUnion n
  mapped : isUnion n → ∀ o ∈ n.operands, ∃ k, d.mapping.get? o = some k
  members : isUnion n → ∀ y, y ∈ n'.operands ↔ ∃ m ∈ n.operands, d.out m = y
  parameter : ∀ p, n = .parameter p → ∃ p', n' = .parameter p'

theorem Fills.of_leaf (h : givenSet? n' = givenSet? n) (hn : ¬ isUnion n) (hn' : ¬ isUnion n')
    (hp : ∀ p, n = .parameter p → ∃ p', n' = .parameter p') : Fills d n n' :=
  ⟨h, iff_of_false hn' hn, fun h => absurd h hn, fun h => absurd h hn, hp⟩

theorem fills_rename (hop : ∀ o ∈ n.operands, ∃ k, d.mapping.get? o = some k) :
    Fills d n (n.rename d.out) := by
  refine ⟨by rw [givenSet?, Node.given?_rename, givenSet?], ?_, fun _ => hop, fun _ y => by simp,
    fun p hp => ⟨p, by rw [hp]; rfl⟩⟩
  cases n with
  | expression e => simp [isUnion, Node.rename]
  | _ => simp [isUnion, Node.rename]

theorem givenSet?_of_node? {o : Generation Exact} (h : o.node? j = some n) :
    o.givenSet? j = givenSet? n := by
  rw [Generation.givenSet?, Generation.given?, h]
  rfl

theorem members_of_node? {o : Generation Exact} (h : o.node? j = some n) (hu : isUnion n) :
    Knowledge.members o j = n.operands := by
  obtain ⟨e, rfl, hop⟩ := hu
  exact members_of_isUnion (Generation.expression?_eq.2 h) hop

/-- A node with such content is read like the node it is written for. -/
theorem Fills.outlines {f : NodeId → NodeId} (h : Fills d n n') (hn : g.node? id = some n)
    (hn' : o'.node? (f id) = some n') (hf : isUnion n → ∀ o ∈ n.operands, f o = d.out o) :
    Outlines g o' f id := by
  refine ⟨by rw [givenSet?_of_node? hn', givenSet?_of_node? hn, h.given], fun y => ?_⟩
  by_cases hu : isUnion n
  · rw [members_of_node? hn' (h.union.2 hu), members_of_node? hn hu, h.members hu]
    exact exists_congr fun m => and_congr_right fun hm => by rw [hf hu m hm]
  · have hg : ¬ g.isUnion id := by rwa [isUnion_iff_of_node? hn]
    have ho : ¬ o'.isUnion (f id) := by
      rw [isUnion_iff_of_node? hn']
      exact fun h' => hu (h.union.1 h')
    rw [mem_members_of_not_isUnion ho, members_of_not_isUnion hg]
    simp [eq_comm]

/-- What is written for a node means what the node means. -/
structure Means (g : Generation Exact) (P : Set (NodeId × NodeId)) (K : Valuation → Prop)
    (d : Draft Exact) (id : NodeId) (n n' : Node Exact) : Prop where
  forth : ∀ v w, d.Matches g P v w → n'.Holds (listed d.output w) (v id)
  back : ∀ v w, SparesHold d w → d.Agrees v w → K v → n'.Holds (listed d.output w) (v id) →
    n.Holds (listed g v) (v id)

/-- Other content in the copy of an untouched node. -/
theorem Simulates.replace (h : Simulates g R T K P d) (hn : g.node? id = some n) (hT : id ∉ T)
    (hj : d.mapping.get? id = some j) (hr : d.output.Replaced j n' o') (hfill : Fills d n n')
    (hadm : d.output.Admits n') (hK : ∀ v, K' v → K v) (hm : Means g P K' d id n n') :
    Simulates g R (T ∪ {id}) K' P { d with output := o' } := by
  obtain ⟨hcopy, hop⟩ := h.copied id j n hj hT hn
  have hlinked := h.tame.linked
  have hout : Outlines d.output o' (fun i => i) j := by
    refine ⟨?_, fun y => ?_⟩
    · rw [givenSet?_of_node? hr.node?_self, givenSet?_of_node? hcopy, hfill.given,
        (fills_rename hop).given]
    · by_cases hu : isUnion n
      · rw [members_of_node? hr.node?_self (hfill.union.2 hu), hfill.members hu,
          members_of_node? hcopy ((fills_rename hop).union.2 hu)]
        simp
      · have hold : ¬ d.output.isUnion j := by
          rw [isUnion_iff_of_node? hcopy]
          exact fun h' => hu ((fills_rename hop).union.1 h')
        have hnew : ¬ o'.isUnion j := by
          rw [isUnion_iff_of_node? hr.node?_self]
          exact fun h' => hu (hfill.union.1 h')
        rw [mem_members_of_not_isUnion hnew, members_of_not_isUnion hold]
        simp [eq_comm]
  have hun : o'.isUnion j → d.output.isUnion j := by
    rw [isUnion_iff_of_node? hr.node?_self, isUnion_iff_of_node? hcopy]
    exact fun h' => (fills_rename hop).union.2 (hfill.union.1 h')
  have hpar : ∀ p, g.node? id = some (.parameter p) → ∃ p', n' = .parameter p' := fun p hp =>
    hfill.parameter p (Option.some.inj (hn.symm.trans hp))
  refine ⟨h.toFrame.replace hj hr Set.subset_union_left (Or.inr rfl) hadm hun hpar hout,
    fun p hp => hr.contains_iff.2 (h.pins p hp), fun v hv => ?_, fun v w hw ha hK' => ?_⟩
  · obtain ⟨w, hw⟩ := h.forth v hv
    refine ⟨w, hv, (models_of_replaced hr hlinked hout).2 ⟨hw.output.modelsOff _, ?_⟩, hw.agrees,
      hw.pinned⟩
    rw [hw.agrees id j hj]
    exact hm.forth v w hw
  · have hag : d.Agrees v w := ha
    obtain ⟨hoff, hself⟩ := (models_of_replaced hr hlinked hout).1 hw
    rw [hag id j hj] at hself
    have hspares : SparesHold d w := fun k m hk hs => hoff k m hk fun hkj => hs id (hkj ▸ hj)
    -- the copy holds as well, so this is a model of the output as it was before
    have hold : Models d.output w := by
      intro k m hk
      by_cases hkj : k = j
      · subst hkj
        rw [hcopy] at hk
        cases hk
        rw [hag id k hj]
        exact (h.holds_rename hag hop).2 (hm.back v w hspares hag hK' hself)
      · exact hoff k m hk hkj
    exact h.back v w hold hag (hK v hK')

/-- Of the output nodes that stand for input nodes, only that of `id` has changed. -/
structure Keeps (id : NodeId) (d d' : Draft Exact) : Prop where
  mapping : ∀ i j, d.mapping.get? i = some j → d'.mapping.get? i = some j
  node? : ∀ i j, i ≠ id → d.mapping.get? i = some j → d'.output.node? j = d.output.node? j
  full : d.Full → d'.Full

/-- Content for an untouched input node, in the place of its copy or in a new node. -/
theorem Simulates.emit {p : Provenance} {r : NodeId} (h : Simulates g R T K P d)
    (hn : g.node? id = some n) (hR : id ∉ R) (hT : id ∉ T) (hfill : Fills d n n')
    (hadm : d.output.Admits n') (hK : ∀ v, K' v → K v) (hm : Means g P K' d id n n')
    (hr : Runs (Draft.emit id n' p) d r d') :
    Simulates g R (T ∪ {id}) K' P d' ∧ d'.mapping.get? id = some r ∧
      d'.output.node? r = some n' ∧ Keeps id d d' := by
  unfold Draft.emit markDirty at hr
  rw [runs_modify_bind, runs_get_bind] at hr
  have halike : Alike d { d with dirty := true } := ⟨rfl, rfl, rfl, rfl, rfl⟩
  have h₁ := h.alike halike
  rw [h₁.mapped?_eq] at hr
  split at hr
  · rename_i j hj
    split at hr
    · rename_i o' ho
      rw [runs_set_bind] at hr
      obtain ⟨rfl, rfl⟩ := runs_pure.1 hr
      have hrep := Generation.replaced_of_replace ho
      refine ⟨(h.replace hn hT hj hrep hfill hadm hK hm).alike ⟨rfl, rfl, rfl, rfl, rfl⟩, hj,
        hrep.node?_self, fun _ _ h => h, fun i k hi hk => hrep.node?_of_ne fun hkr => ?_,
        fun hfull k hk => hfull k (hrep.contains_iff.1 hk)⟩
      exact hi (h.injective i id r (hkr ▸ hk) hj)
    · exact absurd hr runs_throw
  · rename_i hun
    obtain ⟨k, d₂, hins, hr₁⟩ := runs_bind.1 hr
    obtain ⟨o', hi, rfl⟩ := runs_insert hins
    rw [runs_modify_bind] at hr₁
    obtain ⟨rfl, rfl⟩ := runs_pure.1 hr₁
    have hi' : d.output.Inserted r n' o' := hi
    have hun' : d.mapping.get? id = none := hun
    have hnull : id ≠ .null := Generation.ne_null_of_contains (Generation.contains_of_node? hn)
    have h₂ := ((h.insert hi' hadm {id} fun v w hvw => ⟨v id, hm.forth v w hvw, by simp⟩).mono
      (Set.subset_union_left (t := {id}))).strengthen hK
    have hmapped : ∀ o, (∃ k, d.mapping.get? o = some k) → o ≠ id := by
      rintro o ⟨k, hk⟩ rfl
      simp [hun'] at hk
    have h₃ : Simulates g R (T ∪ {id}) K' P
        { d with output := o', mapping := d.mapping.insert id r } := by
      refine (h₂.bind hn hR hun' (h.spare_fresh hi') (h.not_created_fresh hi')
        (Or.inr ⟨rfl, rfl⟩) (fun f hf hfo => ?_) (fun m hm => ?_) (fun hu => ?_) (fun p hp => ?_)
        (fun hT' => absurd (Or.inr rfl) hT') fun v w hw ha hwk hK' => ?_).unpin
        fun p hp => Or.inl hp
      · refine hfill.outlines hn (by rw [hf]; exact hi'.node?_self) fun hu o ho => hfo o ?_
        exact hmapped o (hfill.mapped hu o ho)
      · by_cases hu : isUnion n
        · rw [members_of_node? hn hu] at hm
          exact Or.inr (hfill.mapped hu m hm)
        · rw [mem_members_of_not_isUnion (by rwa [isUnion_iff_of_node? hn])] at hm
          exact Or.inl hm
      · rw [isUnion_iff_of_node? hn]
        exact hfill.union.1 ((isUnion_iff_of_node? hi'.node?_self).1 hu)
      · obtain ⟨p', hp'⟩ := hfill.parameter p hp
        exact ⟨p', hp' ▸ hi'.node?_self⟩
      · obtain ⟨hold, hself⟩ := (models_of_inserted hi' h.tame.linked).1 hw
        rw [hwk] at hself
        exact hm.back v w (fun j m hj _ => hold j m hj) ha hK' hself
    refine ⟨h₃.alike ⟨rfl, rfl, rfl, rfl, rfl⟩,
      NodeMap.get?_insert_self hnull, hi'.node?_self,
      (extends_insert_bind hi' hun').mapping, fun i k _ hk => ?_, fun hfull => ?_⟩
    · exact hi'.node?_of_ne (hi'.ne_of_contains (h.contains i k hk).2)
    · exact hfull.insert_bind hi' hnull hun'

/-- An edit of an expression that is not gone copies it, or writes it anew. -/
theorem runs_editExpression {e : Expression} {edit : ExpressionEdit Exact} {r : Option NodeId}
    (hR : d.isRemoved id = false) (he : d.input.expression? id = some e)
    (hr : Runs (Draft.editExpression id edit) d r d') :
    (edit.operands.all (isInputs · e.operands) ∧ Runs (Draft.copy id) d r d') ∨
      ∃ p os d₁, Runs (collect (Draft.resolve p) (edit.operands.getD (e.operands.map .input))) d os d₁ ∧
        ∀ js, os = some js → ∃ k, r = some k ∧ Runs (Draft.emit id
          (.expression ⟨edit.op.getD e.op, js, edit.asserted.getD e.asserted⟩) p) d₁ k d' := by
  unfold Draft.editExpression at hr
  rw [runs_get_bind] at hr
  simp only [hR, Bool.false_eq_true, if_false, he] at hr
  split_ifs at hr with hsame
  · simp only [Bool.and_eq_true] at hsame
    exact Or.inl ⟨hsame.2, hr⟩
  · obtain ⟨p, d₀, hp, hr₀⟩ := runs_bind.1 hr
    rw [eq_of_runs_inputProvenance hp] at hr₀
    obtain ⟨os, d₁, hcol, hr₁⟩ := runs_bind.1 hr₀
    refine Or.inr ⟨p, os, d₁, hcol, ?_⟩
    rintro js rfl
    obtain ⟨k, hemit, rfl⟩ := runs_map.1 hr₁
    exact ⟨k, rfl, hemit⟩

/-- Other operator, operands or assertion for an untouched expression. -/
theorem Simulates.editExpression (hg : g.Tame) {e : Expression} {edit : ExpressionEdit Exact}
    {r : Option NodeId} (h : Simulates g R T K P d) (hn : g.node? id = some (.expression e))
    (hR : id ∉ R) (hT : id ∉ T) (hr : Runs (Draft.editExpression id edit) d r d')
    (hK : ∀ v, K' v → K v) (hop : edit.op.getD e.op = op) (hl : edit.operands.getD (e.operands.map .input) = l)
    (hassert : edit.asserted.getD e.asserted = asserted)
    (hfit : ∀ a ∈ l, a.Fit g R) (hw : Writes g op l asserted)
    (hfill : ∀ d₁ js, List.Forall₂ (Operand.Stands d₁) l js →
      Fills d₁ (.expression e) (.expression ⟨op, js, asserted⟩))
    (hforth : ∀ d₁, Extends d d₁ → Frame g R T d₁ → ∀ v w, d₁.Matches g P v w →
      ∀ rs, List.Forall₂ (Reads g v d₁ w) l rs →
        op.relaxed.Denotes rs (v id) ∧ (asserted → v id = .boolean true))
    (hback : ∀ d₁, Extends d d₁ → Frame g R T d₁ → ∀ v w, SparesHold d₁ w → d₁.Agrees v w →
      K' v → ∀ rs, List.Forall₂ (Reads g v d₁ w) l rs → op.relaxed.Denotes rs (v id) →
        (asserted → v id = .boolean true) → Node.Holds (.expression e) (Valuation.listed g v) (v id)) :
    Simulates g R (T ∪ {id}) K' P d' ∧ ∃ k, r = some k ∧ d'.mapping.get? id = some k := by
  have hnr : d.isRemoved id = false := Bool.eq_false_iff.2 fun hrem => hR ((h.removed id).1 hrem)
  have he : d.input.expression? id = some e := by
    rw [h.input, Generation.expression?, hn]
    rfl
  rcases runs_editExpression hnr he hr with ⟨-, hcopy⟩ | ⟨p, _, d₁, hcol, hwrite⟩
  · obtain ⟨h', -, hk, -⟩ := h.copy hg (Generation.contains_of_node? hn) hR hcopy
    exact ⟨(h'.mono Set.subset_union_left).strengthen hK, hk⟩
  · rw [hl] at hcol
    obtain ⟨h₁, hext, js, rfl, hjs⟩ := h.resolveAll hg hfit hcol
    obtain ⟨k, rfl, hemit⟩ := hwrite js rfl
    rw [hop, hassert] at hemit
    obtain ⟨h₂, hk, -⟩ := h₁.emit hn hR hT (hfill d₁ js hjs) (hw.admits h₁.toFrame hjs) hK
      ⟨fun v w hm => hforth d₁ hext h₁.toFrame v w hm _
          (reads_of_stands hjs h₁.toFrame hm.agrees hm.sparesHold),
        fun v w hs ha hK' hh => hback d₁ hext h₁.toFrame v w hs ha hK' _
          (reads_of_stands hjs h₁.toFrame ha hs) hh.1 hh.2⟩ hemit
    exact ⟨h₂, k, rfl, hk⟩

theorem fills_of_not_union {e e' : Expression} (h : e.op ≠ .union) (h' : e'.op ≠ .union) :
    Fills d (.expression e) (.expression e') := by
  refine .of_leaf rfl ?_ ?_ (by simp)
  · rintro ⟨_, ⟨⟩, hop⟩
    exact h hop
  · rintro ⟨_, ⟨⟩, hop⟩
    exact h' hop

/-- Another description of an untouched parameter. -/
theorem Simulates.editParameter (hg : g.Tame) {p : Parameter Exact}
    {change : Parameter Exact → Parameter Exact} {r : Option NodeId} (h : Simulates g R T K P d)
    (hn : g.node? id = some (.parameter p)) (hR : id ∉ R) (hT : id ∉ T) (hK : ∀ v, K' v → K v)
    (hforth : ∀ x, (x ∈ p.values ∧ ∀ s ∈ p.within, x ∈ s) →
      x ∈ (change p).values ∧ ∀ s ∈ (change p).within, x ∈ s)
    (hback : ∀ v, K' v → (v id ∈ (change p).values ∧ ∀ s ∈ (change p).within, v id ∈ s) →
      v id ∈ p.values ∧ ∀ s ∈ p.within, v id ∈ s)
    (hr : Runs (Draft.editParameter id change) d r d') :
    Simulates g R (T ∪ {id}) K' P d' ∧ ∃ k, r = some k ∧ d'.mapping.get? id = some k := by
  unfold Draft.editParameter at hr
  rw [runs_get_bind] at hr
  have hnr : d.isRemoved id = false := Bool.eq_false_iff.2 fun hrem => hR ((h.removed id).1 hrem)
  simp only [hnr, Bool.false_eq_true, if_false, h.mapped?_eq] at hr
  split at hr
  · exact absurd hr runs_throw
  rename_i q hq
  have hqp : q = p := by
    cases hj : d.mapping.get? id with
    | none =>
      rw [hj] at hq
      simpa [h.input, Generation.parameter?, hn, Node.parameter?] using hq.symm
    | some j =>
      rw [hj] at hq
      simpa [Generation.parameter?, (h.copied id j _ hj hT hn).1, Node.rename, Node.parameter?]
        using hq.symm
  subst hqp
  split_ifs at hr
  · obtain ⟨h', -, hk, -⟩ := h.copy hg (Generation.contains_of_node? hn) hR hr
    exact ⟨(h'.mono Set.subset_union_left).strengthen hK, hk⟩
  · obtain ⟨prov, k, hemit, rfl⟩ : ∃ prov k,
        Runs (Draft.emit id (.parameter (change q)) prov) d k d' ∧ r = some k := by
      split at hr
      · rename_i prov _
        rw [pure_bind] at hr
        obtain ⟨k, hemit, rfl⟩ := runs_map.1 hr
        exact ⟨prov, k, hemit, rfl⟩
      · obtain ⟨prov, d₀, hprov, hr₀⟩ := runs_bind.1 hr
        rw [eq_of_runs_inputProvenance hprov] at hr₀
        obtain ⟨k, hemit, rfl⟩ := runs_map.1 hr₀
        exact ⟨prov, k, hemit, rfl⟩
    have hfill : Fills d (.parameter q) (.parameter (change q)) :=
      .of_leaf rfl (by simp [isUnion]) (by simp [isUnion]) (by simp)
    obtain ⟨h₂, hk, -⟩ := h.emit hn hR hT hfill (Generation.admits_leaf (by simp)) hK
      ⟨fun v w hm => hforth _ (hm.input id _ hn), fun v w _ _ hK' hh => hback v hK' hh⟩ hemit
    exact ⟨h₂, k, rfl, hk⟩

/-- Another leaf with the same elements. -/
theorem Simulates.replaceLeaf {r : NodeId} (h : Simulates g R T K P d) (hn : g.node? id = some n)
    (hR : id ∉ R) (hT : id ∉ T) {s : ValueSet Exact} {u : Option (MeasureUnit Exact)}
    (hs : givenSet? n = some { x | x ∈ s }) (hleaf : ∀ r x, n.Holds r x ↔ ((∃ y, y ∈ s) → x ∈ s))
    (hr : Runs (Draft.replaceLeaf id (.literal s u)) d r d') :
    Simulates g R (T ∪ {id}) K P d' := by
  unfold Draft.replaceLeaf at hr
  obtain ⟨q, d₀, hq, hr₀⟩ := runs_bind.1 hr
  rw [eq_of_runs_inputProvenance hq] at hr₀
  have hnu : ¬ isUnion n := by
    rintro ⟨e, rfl, -⟩
    cases hs
  have hnp : ∀ p, n ≠ .parameter p := by
    rintro p rfl
    cases hs
  refine (h.emit hn hR hT (.of_leaf ?_ hnu (by simp [isUnion]) fun p hp => absurd hp (hnp p))
    (Generation.admits_leaf (by simp))
    (fun v hv => hv) ⟨fun v w hm => ?_, fun v w _ _ _ hh => ?_⟩ hr₀).1
  · rw [hs]
    rfl
  · rintro t ⟨⟩ hx
    exact (hleaf _ _).1 (hm.input id n hn) hx
  · exact (hleaf _ _).2 fun hx => hh s rfl hx

/-- A condition that has come to follow from the output. -/
theorem Simulates.discharge (h : Simulates g R T K' P d)
    (hK : ∀ v w, Models d.output w → d.Agrees v w → K v → K' v) : Simulates g R T K P d :=
  ⟨h.toFrame, h.pins, h.forth, fun v w hw ha hk => h.back v w hw ha (hK v w hw ha hk)⟩

theorem reads_inputs {l : List NodeId} {rs : List Reading}
    (h : List.Forall₂ (Reads g v d w) (l.map .input) rs) : rs = l.map (listed g v) := by
  induction l generalizing rs with
  | nil => cases h; rfl
  | cons o l ih =>
    obtain _ | ⟨hr, h⟩ := h
    rw [List.map_cons, ← ih h]
    exact congrArg (· :: _) hr

theorem runs_log {level : Level} {source message : String} {r : PUnit}
    (h : Runs (log level source message) d r d') : Alike d d' := by
  obtain rfl := runs_modify.1 h
  exact ⟨rfl, rfl, rfl, rfl, rfl⟩

/-- What is read of an operand that is an output node with an input node behind it. -/
theorem Frame.reads_output (h : Frame g R T d) (ha : d.Agrees v w)
    (hj : d.mapping.get? id = some j) {r : Reading} (hr : Reads g v d w (.output j) r) :
    r = Valuation.listed g v id := by
  rw [show r = _ from hr]
  exact h.listed ha hj

end Draft

end ParameterSolver
