import ParameterSolver.Proofs.Draft.Frame

/-! Drafts carry models over. A model of the input gives a model of the output, and a model of the
output gives one of the input, with one value for an input node and its output node. Every call that
writes to a draft keeps this, as long as what it writes means what it is written for. -/

namespace ParameterSolver

open Exact ParameterSolver.Valuation

namespace Draft

/-- The pairs say which output nodes are to have the value of which input nodes, before they come to
stand for them. -/
structure Matches (g : Generation Exact) (P : Set (NodeId × NodeId)) (d : Draft Exact)
    (v w : Valuation) : Prop where
  input : Models g v
  output : Models d.output w
  agrees : d.Agrees v w
  pinned : ∀ p ∈ P, w p.2 = v p.1

/-- Models carry over in both directions. Back from the output they do for valuations of the input
that meet the condition `K`. -/
structure Follows (g : Generation Exact) (K : Valuation → Prop) (P : Set (NodeId × NodeId))
    (d : Draft Exact) : Prop where
  pins : ∀ p ∈ P, d.output.contains p.2
  forth : ∀ v, Models g v → ∃ w, d.Matches g P v w
  back : ∀ v w, Models d.output w → d.Agrees v w → K v → ∀ id j n, d.mapping.get? id = some j →
    g.node? id = some n → n.Holds (listed g v) (v id)

structure Simulates (g : Generation Exact) (R T : Set NodeId) (K : Valuation → Prop)
    (P : Set (NodeId × NodeId)) (d : Draft Exact) : Prop extends Frame g R T d, Follows g K P d

/-- What is there in the first draft is there in the second. -/
structure Extends (d d' : Draft Exact) : Prop where
  node? : ∀ j n, d.output.node? j = some n → d'.output.node? j = some n
  mapping : ∀ i j, d.mapping.get? i = some j → d'.mapping.get? i = some j
  spare : ∀ j, d.output.contains j → d.Spare j → d'.Spare j

/-- Every output node stands for an input node. -/
def Full (d : Draft Exact) : Prop := ∀ j, d.output.contains j → ∃ i, d.mapping.get? i = some j

variable {g o' : Generation Exact} {R T : Set NodeId} {K : Valuation → Prop}
  {P : Set (NodeId × NodeId)} {d d' d'' : Draft Exact} {id j : NodeId} {n n' : Node Exact}
  {v w : Valuation} {x : Value ℚ}

theorem Extends.refl (d : Draft Exact) : Extends d d := ⟨fun _ _ h => h, fun _ _ h => h, fun _ _ h => h⟩

theorem Extends.contains (h : Extends d d') (hj : d.output.contains j) : d'.output.contains j := by
  obtain ⟨n, hn⟩ := Generation.contains_iff.1 hj
  exact Generation.contains_of_node? (h.node? j n hn)

theorem Extends.trans (h : Extends d d') (h' : Extends d' d'') : Extends d d'' :=
  ⟨fun j n hn => h'.node? j n (h.node? j n hn), fun i j hj => h'.mapping i j (h.mapping i j hj),
    fun j hj hs => h'.spare j (h.contains hj) (h.spare j hj hs)⟩

theorem Alike.extends (h : Alike d d') : Extends d d' :=
  ⟨fun j n hn => by rw [h.output, hn], fun i j hj => by rw [h.mapping, hj],
    fun j _ hs i => by rw [h.mapping]; exact hs i⟩

theorem Simulates.alike (h : Simulates g R T K P d) (ha : Alike d d') :
    Simulates g R T K P d' := by
  refine ⟨h.toFrame.alike ha, ?_⟩
  obtain ⟨input, output, mapping, removed, dirty, deduplicate, created, journal⟩ := d
  obtain ⟨input', output', mapping', removed', dirty', deduplicate', created', journal'⟩ := d'
  obtain ⟨rfl, rfl, rfl, rfl, rfl⟩ := ha
  refine ⟨h.pins, fun v hv => ?_, h.back⟩
  obtain ⟨w, hw⟩ := h.forth v hv
  exact ⟨w, hw.input, hw.output, hw.agrees, hw.pinned⟩

theorem Simulates.mono {T' : Set NodeId} (h : Simulates g R T K P d) (hT : T ⊆ T') :
    Simulates g R T' K P d := ⟨h.toFrame.mono hT, h.toFollows⟩

theorem Simulates.strengthen {K' : Valuation → Prop} (h : Simulates g R T K P d)
    (hK : ∀ v, K' v → K v) : Simulates g R T K' P d :=
  ⟨h.toFrame, h.pins, h.forth, fun v w hw ha hK' => h.back v w hw ha (hK v hK')⟩

theorem Simulates.unpin {P' : Set (NodeId × NodeId)} (h : Simulates g R T K P d) (hP : P' ⊆ P) :
    Simulates g R T K P' d := by
  refine ⟨h.toFrame, fun p hp => h.pins p (hP hp), fun v hv => ?_, h.back⟩
  obtain ⟨w, hw⟩ := h.forth v hv
  exact ⟨w, hw.input, hw.output, hw.agrees, fun p hp => hw.pinned p (hP hp)⟩

/-- A new output node that has a value in every model. Its value can be tied to input nodes. -/
theorem Simulates.insert (h : Simulates g R T K P d) (hi : d.output.Inserted j n o')
    (hn : d.output.Admits n) (ties : Set NodeId)
    (hx : ∀ v w, d.Matches g P v w →
      ∃ x, n.Holds (Valuation.listed d.output w) x ∧ ∀ i ∈ ties, x = v i) :
    Simulates g R T K { p | p ∈ P ∨ p.1 ∈ ties ∧ p.2 = j } { d with output := o' } := by
  have hlinked := h.tame.linked
  refine ⟨h.toFrame.insert hi hn, ?_, fun v hv => ?_, fun v w hw ha => ?_⟩
  · rintro p (hp | ⟨-, hp⟩)
    · exact hi.contains (h.pins p hp)
    · rw [hp]
      exact Generation.contains_of_node? hi.node?_self
  · obtain ⟨w, hw⟩ := h.forth v hv
    obtain ⟨x, hx, hties⟩ := hx v w hw
    have hold : ∀ k, d.output.contains k → Function.update w j x k = w k := fun k hk =>
      Function.update_of_ne (hi.ne_of_contains hk) _ _
    refine ⟨Function.update w j x, hv, ?_, fun i k hk => ?_, ?_⟩
    · refine (models_of_inserted hi hlinked).2 ⟨hw.output.congr hlinked hold, ?_⟩
      rw [Function.update_self]
      exact hx.congr fun o ho => listed_congr hlinked (hi.operands o ho) hold
    · rw [hold k (h.contains i k hk).2]
      exact hw.agrees i k hk
    · rintro p (hp | ⟨hp, hpj⟩)
      · rw [hold p.2 (h.pins p hp)]
        exact hw.pinned p hp
      · rw [hpj, Function.update_self]
        exact hties p.1 hp
  · exact h.back v w ((models_of_inserted hi hlinked).1 hw).1 ha

theorem extends_insert (hi : d.output.Inserted j n o') : Extends d { d with output := o' } :=
  ⟨fun k m hk => by
    rw [hi.node?_of_ne (hi.ne_of_contains (Generation.contains_of_node? hk))]
    exact hk, fun _ _ h => h, fun _ _ h => h⟩

theorem Frame.spare_fresh (h : Frame g R T d) (hi : d.output.Inserted j n o') : d.Spare j :=
  fun i hij => hi.ne_of_contains (h.contains i j hij).2 rfl

theorem Frame.not_created_fresh (h : Frame g R T d) (hi : d.output.Inserted j n o')
    (e : Expression) : (e, j) ∉ d.created := fun hc => by
  obtain ⟨-, ⟨e', he'⟩, -⟩ := h.created e j hc
  exact hi.ne_of_contains (Generation.contains_of_node? he') rfl

/-- A spare output node with the value of an input node comes to stand for it. -/
theorem Simulates.bind (h : Simulates g R T K P d) (hn : g.node? id = some n) (hR : id ∉ R)
    (hun : d.mapping.get? id = none) (hs : d.Spare j)
    (hcr : ∀ e, (e, j) ∉ d.created) (hp : (id, j) ∈ P)
    (hout : ∀ f : NodeId → NodeId, f id = j → (∀ i, i ≠ id → f i = d.out i) →
      Outlines g d.output f id)
    (hmem : ∀ m ∈ Knowledge.members g id, m = id ∨ ∃ k, d.mapping.get? m = some k)
    (hun' : d.output.isUnion j → g.isUnion id)
    (hpar : ∀ p, n = .parameter p → ∃ p', d.output.node? j = some (.parameter p'))
    (hcopy : id ∉ T → d.output.node? j = some (n.rename d.out) ∧
      ∀ o ∈ n.operands, ∃ k, d.mapping.get? o = some k)
    (hb : ∀ v w, Models d.output w → d.Agrees v w → w j = v id → K v →
      n.Holds (Valuation.listed g v) (v id)) :
    Simulates g R T K P { d with mapping := d.mapping.insert id j } := by
  have hbinds : d.mapping.Binds id j (d.mapping.insert id j) :=
    NodeMap.binds_insert (Generation.ne_null_of_contains (Generation.contains_of_node? hn))
  refine ⟨h.toFrame.bind hn hR hun (h.pins _ hp) hs hcr hout hmem hun' hpar hcopy,
    h.pins, fun v hv => ?_,
    fun v w hw ha hK i k m hk hm => ?_⟩
  · obtain ⟨w, hw⟩ := h.forth v hv
    refine ⟨w, hv, hw.output, fun i k hk => ?_, hw.pinned⟩
    rcases hbinds.cases hk with ⟨rfl, rfl⟩ | ⟨-, hk⟩
    · exact hw.pinned _ hp
    · exact hw.agrees i k hk
  · have hold : d.Agrees v w := fun i k hik => ha i k (hbinds.keeps hun hik)
    have hself : w j = v id := ha id j hbinds.self
    rcases hbinds.cases hk with ⟨rfl, rfl⟩ | ⟨-, hk⟩
    · rw [hn] at hm
      cases hm
      exact hb v w hw hold hself hK
    · exact h.back v w hw hold hK i k m hk hm

theorem extends_insert_bind (hi : d.output.Inserted j n o') (hun : d.mapping.get? id = none) :
    Extends d { d with output := o', mapping := d.mapping.insert id j } := by
  refine ⟨(extends_insert hi).node?, fun i k hk => ?_, fun k hk hs i hik => ?_⟩
  · have hne : i ≠ id := by
      rintro rfl
      simp [hun] at hk
    exact (NodeMap.get?_insert_other hne).trans hk
  · rcases NodeMap.get?_insert_cases hik with ⟨-, hkj⟩ | hik
    · exact hi.ne_of_contains hk hkj
    · exact hs i hik

theorem Full.insert_bind (h : d.Full) (hi : d.output.Inserted j n o') (hid : id ≠ .null)
    (hun : d.mapping.get? id = none) :
    Full { d with output := o', mapping := d.mapping.insert id j } := by
  intro k hk
  by_cases hkj : k = j
  · exact ⟨id, hkj ▸ NodeMap.get?_insert_self hid⟩
  · obtain ⟨m, hm⟩ := Generation.contains_iff.1 hk
    rw [hi.node?_of_ne hkj] at hm
    obtain ⟨i, hik⟩ := h k (Generation.contains_of_node? hm)
    exact ⟨i, (NodeMap.binds_insert hid).keeps hun hik⟩

theorem runs_insert {p : Provenance} {r : NodeId} (h : Runs (Draft.insert n p) d r d') :
    ∃ o', d.output.Inserted r n o' ∧ d' = { d with output := o' } := by
  unfold Draft.insert at h
  rw [runs_get_bind] at h
  split at h
  · rename_i k o' hi
    rw [runs_set_bind] at h
    obtain ⟨rfl, rfl⟩ := runs_pure.1 h
    exact ⟨o', Generation.inserted_of_insert hi, rfl⟩
  · exact absurd h runs_throw

/-- The copy of an input node whose operands have been copied. -/
theorem Simulates.insertCopy {p : Provenance} {r : Option NodeId} (h : Simulates g R T K P d)
    (hg : g.Tame) (hn : g.node? id = some n) (hR : id ∉ R) (hun : d.mapping.get? id = none)
    (hop : ∀ o ∈ n.operands, ∃ k, d.mapping.get? o = some k)
    (hr : Runs (Draft.insertCopy id (n.rename d.out) p) d r d') :
    Simulates g R T K P d' ∧ Extends d d' ∧ (∃ k, r = some k ∧ d'.mapping.get? id = some k) ∧
      (d.Full → d'.Full) ∧ ∀ i, i ≠ id → d'.mapping.get? i = d.mapping.get? i := by
  unfold Draft.insertCopy at hr
  obtain ⟨k, d₁, hr₁, hr⟩ := runs_bind.1 hr
  obtain ⟨o', hi, rfl⟩ := runs_insert hr₁
  rw [runs_modify_bind] at hr
  obtain ⟨rfl, rfl⟩ := runs_pure.1 hr
  dsimp only
  have hnull : id ≠ .null := Generation.ne_null_of_contains (Generation.contains_of_node? hn)
  have hid : ∀ o ∈ n.operands, o ≠ id := by
    rintro o ho rfl
    obtain ⟨k, hk⟩ := hop o ho
    simp [hun] at hk
  have h₁ := h.insert hi (h.admits_rename hg hn hop) {id} fun v w hm =>
    ⟨v id, (h.holds_rename hm.agrees hop).2 (hm.input id n hn), by simp⟩
  have hself : o'.node? k = some (n.rename d.out) := hi.node?_self
  have hren : ∀ f : NodeId → NodeId, (∀ i, i ≠ id → f i = d.out i) → n.rename f = n.rename d.out :=
    fun f hf => Node.rename_congr fun o ho => hf o (hid o ho)
  refine ⟨(h₁.bind hn hR hun (h.spare_fresh hi) (h.not_created_fresh hi) (Or.inr ⟨rfl, rfl⟩)
    (fun f hf hfo => ?_) (fun m hm => ?_) (fun hu => ?_) (fun p hp => ⟨p, by rw [hself, hp]; rfl⟩)
    (fun _ => ⟨hself, hop⟩)
    fun v w hw ha hwk _ => ?_).unpin (fun p hp => Or.inl hp), extends_insert_bind hi hun,
    ⟨k, rfl, NodeMap.get?_insert_self hnull⟩, fun hfull => hfull.insert_bind hi hnull hun,
    fun i hi => (NodeMap.binds_insert hnull).of_ne hi⟩
  · exact outlines_of_rename hn (by rw [hf, hself, hren f hfo])
  · by_cases hu : g.isUnion id
    · obtain ⟨e, rfl, hop'⟩ := (isUnion_iff_of_node? hn).1 hu
      rw [members_of_isUnion (e := e) (Generation.expression?_eq.2 hn) hop'] at hm
      exact Or.inr (hop m hm)
    · exact Or.inl ((mem_members_of_not_isUnion hu).1 hm)
  · obtain ⟨e, he, hop'⟩ := (isUnion_iff_of_node? hself).1 hu
    rw [isUnion_iff_of_node? hn]
    cases n <;> cases he
    exact ⟨_, rfl, hop'⟩
  · have hk := ((models_of_inserted hi h.tame.linked).1 hw).2
    rw [hwk] at hk
    exact (h.holds_rename ha hop).1 hk

/-- What every step of `collect` keeps, and what is known of its results ever after. -/
theorem collect_spec {β γ : Type} {f : β → Edit Exact (Option γ)} {I : Draft Exact → Prop}
    {Q : Draft Exact → β → γ → Prop} (hQ : ∀ {d d' x y}, Q d x y → Extends d d' → Q d' x y)
    {l : List β} (hf : ∀ x ∈ l, ∀ d r d', I d → Runs (f x) d r d' →
      I d' ∧ Extends d d' ∧ ∃ y, r = some y ∧ Q d' x y)
    {r : Option (List γ)} (h : I d) (hr : Runs (collect f l) d r d') :
    I d' ∧ Extends d d' ∧ ∃ ys, r = some ys ∧ List.Forall₂ (Q d') l ys := by
  induction l generalizing d r with
  | nil =>
    obtain ⟨rfl, rfl⟩ := runs_pure.1 hr
    exact ⟨h, .refl _, [], rfl, .nil⟩
  | cons x l ih =>
    rw [collect, runs_bind] at hr
    obtain ⟨y, d₁, hx, hr⟩ := hr
    obtain ⟨h₁, hext, y, rfl, hy⟩ := hf x (by simp) d y d₁ h hx
    obtain ⟨ys, d₂, hl, hr⟩ := runs_bind.1 hr
    obtain ⟨rfl, rfl⟩ := runs_pure.1 hr
    obtain ⟨h₂, hext', ys, rfl, hys⟩ := ih (fun z hz => hf z (by simp [hz])) h₁ hl
    exact ⟨h₂, hext.trans hext', y :: ys, rfl, .cons (hQ hy hext') hys⟩

theorem Frame.mapped?_eq (h : Frame g R T d) (id : NodeId) : d.mapped? id = d.mapping.get? id := by
  rw [mapped?]
  cases hj : d.mapping.get? id with
  | none => rfl
  | some j => rw [Option.filter_some, if_pos (h.contains id j hj).2]

theorem eq_map_out {l ks : List NodeId}
    (h : List.Forall₂ (fun o k => d.mapping.get? o = some k) l ks) : ks = l.map d.out := by
  induction h with
  | nil => rfl
  | cons hk _ ih => rw [List.map_cons, out_of_get? hk, ih]

theorem mapped_of_forall₂ {l ks : List NodeId}
    (h : List.Forall₂ (fun o k => d.mapping.get? o = some k) l ks) :
    ∀ o ∈ l, ∃ k, d.mapping.get? o = some k := by
  induction h with
  | nil => simp
  | cons hk _ ih => exact List.forall_mem_cons.2 ⟨⟨_, hk⟩, ih⟩

/-- What is newly mapped between two drafts has operands that are mapped, and `id` is none of
them. -/
def MapsAbove (g : Generation Exact) (id : NodeId) (d d' : Draft Exact) : Prop :=
  ∀ i k, d.mapping.get? i = none → d'.mapping.get? i = some k → id ∉ g.operands i ∧
    ∀ o ∈ g.operands i, ∃ k, d'.mapping.get? o = some k

/-- A node that is not gone is copied, with the operands first. -/
theorem Simulates.copyWith (hg : g.Tame) {fuel : ℕ} {r : Option NodeId}
    (h : Simulates g R T K P d) (hid : g.contains id) (hR : id ∉ R)
    (hr : Runs (Draft.copyWith fuel id) d r d') :
    Simulates g R T K P d' ∧ Extends d d' ∧ (∃ k, r = some k ∧ d'.mapping.get? id = some k) ∧
      (d.Full → d'.Full) ∧ MapsAbove g id d d' := by
  induction fuel generalizing id d r d' with
  | zero => exact absurd hr runs_throw
  | succ fuel ih =>
    rw [Draft.copyWith, runs_get_bind] at hr
    have hnr : d.isRemoved id = false := Bool.eq_false_iff.2 fun hrem => hR ((h.removed id).1 hrem)
    simp only [hnr, Bool.false_eq_true, if_false, h.mapped?_eq] at hr
    cases hj : d.mapping.get? id with
    | some j =>
      simp only [hj] at hr
      obtain ⟨rfl, rfl⟩ := runs_pure.1 hr
      exact ⟨h, .refl _, ⟨j, rfl, hj⟩, fun hfull => hfull, fun i k hn hk => by simp [hn] at hk⟩
    | none =>
      simp only [hj, h.input] at hr
      obtain ⟨entry, he⟩ := NodeMap.contains_iff.1 hid
      have hget : g.get? id = some entry := he
      have hn : g.node? id = some entry.node := by rw [Generation.node?, hget]; rfl
      have hready := h.ready id _ hn hR hj
      rw [hget] at hr
      dsimp only at hr
      split at hr
      · rename_i e hnode
        rw [hnode] at hn hready
        have hops : g.operands id = e.operands := Generation.operands_of_node? hn
        obtain ⟨ks, d₁, hks, hr⟩ := runs_bind.1 hr
        -- `id` stays unmapped: what an operand brings along does not use the operand
        obtain ⟨⟨h₁, hun, hfull, hnew⟩, hext, ks, rfl, hall⟩ := collect_spec
          (I := fun d' => Simulates g R T K P d' ∧ d'.mapping.get? id = none ∧
            (d.Full → d'.Full) ∧ ∀ i k, d.mapping.get? i = none → d'.mapping.get? i = some k →
              ∀ o ∈ g.operands i, ∃ k, d'.mapping.get? o = some k)
          (Q := fun d o k => d.mapping.get? o = some k) (fun hq he => he.mapping _ _ hq)
          (fun o ho d₁ r d₂ hd₁ hr => by
            obtain ⟨h₁, hun, hfull, hnew⟩ := hd₁
            obtain ⟨h₂, hext, hk, hfull', habove⟩ := ih h₁ (hg.linked.contains hn ho) (hready o ho) hr
            refine ⟨⟨h₂, ?_, fun hd => hfull' (hfull hd), fun i k hi hk o ho => ?_⟩, hext, hk⟩
            · cases hk : d₂.mapping.get? id with
              | none => rfl
              | some k => exact absurd (hops ▸ ho) (habove id k hun hk).1
            · cases hi₁ : d₁.mapping.get? i with
              | none => exact (habove i k hi₁ hk).2 o ho
              | some k₁ =>
                obtain ⟨k₂, hk₂⟩ := hnew i k₁ hi hi₁ o ho
                exact ⟨k₂, hext.mapping o k₂ hk₂⟩)
          ⟨h, hj, fun hfull => hfull, fun i k hi hk => by simp [hi] at hk⟩ hks
        rw [eq_map_out hall] at hr
        have hmapped := mapped_of_forall₂ hall
        obtain ⟨h₂, hext', hk, hfull', hother⟩ := h₁.insertCopy hg hn hR hun hmapped hr
        refine ⟨h₂, hext.trans hext', hk, fun hd => hfull' (hfull hd), fun i k' hi hk' => ?_⟩
        have hmem : ∀ o ∈ g.operands i, ∃ k, d₁.mapping.get? o = some k := by
          by_cases hiid : i = id
          · rw [hiid, hops]
            exact hmapped
          · exact hnew i k' hi (by rw [← hother i hiid, hk'])
        refine ⟨fun hmem' => ?_, fun o ho => ?_⟩
        · obtain ⟨k, hk⟩ := hmem id hmem'
          simp [hun] at hk
        · obtain ⟨k, hk⟩ := hmem o ho
          exact ⟨k, hext'.mapping o k hk⟩
      · rename_i hleaf
        have hren : entry.node.rename d.out = entry.node := by
          cases hnode : entry.node with
          | expression e => exact absurd hnode (hleaf e)
          | _ => rfl
        have hops : entry.node.operands = [] := by
          cases hnode : entry.node with
          | expression e => exact absurd hnode (hleaf e)
          | _ => rfl
        rw [← hren] at hr
        obtain ⟨h₂, hext', hk, hfull, hother⟩ := h.insertCopy hg hn hR hj (by simp [hops]) hr
        refine ⟨h₂, hext', hk, hfull, fun i k hi hk => ?_⟩
        by_cases hiid : i = id
        · rw [hiid, Generation.operands_of_node? hn, hops]
          simp
        · rw [hother i hiid, hi] at hk
          cases hk

theorem Simulates.copy (hg : g.Tame) {r : Option NodeId} (h : Simulates g R T K P d)
    (hid : g.contains id) (hR : id ∉ R) (hr : Runs (Draft.copy id) d r d') :
    Simulates g R T K P d' ∧ Extends d d' ∧ (∃ k, r = some k ∧ d'.mapping.get? id = some k) ∧
      (d.Full → d'.Full) := by
  unfold Draft.copy at hr
  rw [runs_get_bind] at hr
  obtain ⟨h', hext, hk, hfull, -⟩ := h.copyWith hg hid hR hr
  exact ⟨h', hext, hk, hfull⟩

end Draft

/-! Operands of nodes that an edit writes. -/

namespace Operand

open Draft

/-- The operand can be resolved. -/
def Fit (g : Generation Exact) (R : Set NodeId) : Operand Exact → Prop
  | .input o => g.contains o ∧ o ∉ R
  | _ => True

/-- The output node is the one that the operand stands for. -/
def Stands (d : Draft Exact) : Operand Exact → NodeId → Prop
  | .input o, j => d.mapping.get? o = some j
  | .output c, j => j = c ∧ d.output.contains c
  | .literal s, j => d.output.node? j = some (.literal s none) ∧ d.Spare j

/-- What is read of the operand. -/
def Reads (g : Generation Exact) (v : Valuation) (d : Draft Exact) (w : Valuation) :
    Operand Exact → Reading → Prop
  | .input o, r => r = listed g v o
  | .output c, r => r = listed d.output w c
  | .literal s, r => r.extent = { x | x ∈ s } ∧ r.spread = {r.value} ∧
    ((∃ x, x ∈ s) → r.value ∈ s)

variable {g : Generation Exact} {R T : Set NodeId} {K : Valuation → Prop}
  {P : Set (NodeId × NodeId)} {d d' : Draft Exact} {j : NodeId} {v w : Valuation}
  {a : Operand Exact} {l : List (Operand Exact)} {js : List NodeId}

theorem Stands.mono (h : a.Stands d j) (he : Extends d d') : a.Stands d' j := by
  cases a with
  | input o => exact he.mapping _ _ h
  | output c => exact ⟨h.1, he.contains h.2⟩
  | literal s =>
    exact ⟨he.node? _ _ h.1, he.spare _ (Generation.contains_of_node? h.1) h.2⟩

theorem Stands.contains (h : a.Stands d j) (hf : Frame g R T d) : d.output.contains j := by
  cases a with
  | input o => exact (hf.contains o j h).2
  | output c => rw [h.1]; exact h.2
  | literal s => exact Generation.contains_of_node? h.1

/-- The output nodes that stand for nothing have values that they can have. -/
def SparesHold (d : Draft Exact) (w : Valuation) : Prop :=
  ∀ j n, d.output.node? j = some n → d.Spare j → n.Holds (listed d.output w) (w j)

theorem listed_literal {o : Generation Exact} {s : ValueSet Exact} {u : Option (MeasureUnit Exact)}
    (h : o.node? j = some (.literal s u)) :
    listed o w j = ⟨w j, { x | x ∈ s }, {w j}⟩ := by
  have hg : o.givenSet? j = some { x | x ∈ s } := by
    rw [Generation.givenSet?, Generation.given?, h]
    rfl
  have hu : ¬ o.isUnion j := by
    rw [isUnion_iff_of_node? h]
    rintro ⟨e, he, -⟩
    cases he
  have hs : spread o w j = {w j} := by
    ext x
    simp [spread, members_of_not_isUnion hu]
  rw [listed, hg, hs]
  rfl

theorem Stands.reads (h : a.Stands d j) (hf : Frame g R T d) (ha : d.Agrees v w)
    (hs : SparesHold d w) : a.Reads g v d w (listed d.output w j) := by
  cases a with
  | input o => exact hf.listed ha h
  | output c => rw [h.1]; rfl
  | literal s =>
    have hh := hs j _ h.1 h.2
    rw [listed_literal h.1]
    exact ⟨rfl, rfl, fun hx => hh s rfl hx⟩

theorem reads_of_stands (h : List.Forall₂ (Stands d) l js) (hf : Frame g R T d)
    (ha : d.Agrees v w) (hs : SparesHold d w) :
    List.Forall₂ (Reads g v d w) l (js.map (listed d.output w)) := by
  induction h with
  | nil => exact .nil
  | cons hj _ ih => exact .cons (hj.reads hf ha hs) ih

end Operand

end ParameterSolver
