import ParameterSolver.Proofs.Draft.Runs
import ParameterSolver.Proofs.Graph.Tame

/-! What every draft keeps. The output nodes of input nodes that no edit has touched are plain copies,
all output nodes read like the input nodes they stand for, and the expressions that can be used again
are still there. -/

namespace ParameterSolver

open Exact ParameterSolver.Valuation

namespace Draft

/-- The output node of an input node that has one. -/
def out (d : Draft Exact) (id : NodeId) : NodeId := (d.mapping.get? id).getD .null

/-- The output node stands for no input node. -/
def Spare (d : Draft Exact) (j : NodeId) : Prop := ∀ i, d.mapping.get? i ≠ some j

/-- A value for each input node that is also the value of its output node. -/
def Agrees (d : Draft Exact) (v w : Valuation) : Prop := ∀ i j, d.mapping.get? i = some j → w j = v i

/-- The draft of a pass on `g` that has removed the nodes in `R` and touched at most those in `T`. -/
structure Frame (g : Generation Exact) (R T : Set NodeId) (d : Draft Exact) : Prop where
  input : d.input = g
  tame : d.output.Tame
  removed : ∀ id, d.isRemoved id ↔ id ∈ R
  contains : ∀ id j, d.mapping.get? id = some j → g.contains id ∧ d.output.contains j
  kept : ∀ id j, d.mapping.get? id = some j → id ∉ R
  injective : ∀ id id' j, d.mapping.get? id = some j → d.mapping.get? id' = some j → id = id'
  copied : ∀ id j n, d.mapping.get? id = some j → id ∉ T → g.node? id = some n →
    d.output.node? j = some (n.rename d.out) ∧ ∀ o ∈ n.operands, ∃ k, d.mapping.get? o = some k
  outlines : ∀ id j, d.mapping.get? id = some j → Outlines g d.output d.out id
  members : ∀ id j, d.mapping.get? id = some j → ∀ m ∈ Knowledge.members g id,
    ∃ k, d.mapping.get? m = some k
  unions : ∀ id j, d.mapping.get? id = some j → d.output.isUnion j → g.isUnion id
  parameters : ∀ id j p, d.mapping.get? id = some j → g.node? id = some (.parameter p) →
    ∃ p', d.output.node? j = some (.parameter p')
  /-- What is still to be copied has no operand that is gone. -/
  ready : ∀ id n, g.node? id = some n → id ∉ R → d.mapping.get? id = none →
    ∀ o ∈ n.operands, o ∉ R
  created : ∀ e c, (e, c) ∈ d.created → d.Spare c ∧ (∃ e', d.output.node? c = some (.expression e')) ∧
    (∀ o ∈ e.operands, d.output.Issued o) ∧
    ((∀ o ∈ e.operands, d.output.contains o) → d.output.node? c = some (.expression e))

variable {g : Generation Exact} {R T : Set NodeId} {d d' : Draft Exact} {id j : NodeId}
  {n n' : Node Exact} {v w : Valuation} {o' : Generation Exact} {x : Value ℚ}

theorem out_of_get? (h : d.mapping.get? id = some j) : d.out id = j := by
  rw [out, h]
  rfl

theorem Frame.alike (h : Frame g R T d) (ha : Alike d d') : Frame g R T d' := by
  obtain ⟨input, output, mapping, removed, dirty, deduplicate, created, journal⟩ := d
  obtain ⟨input', output', mapping', removed', dirty', deduplicate', created', journal'⟩ := d'
  obtain ⟨rfl, rfl, rfl, rfl, rfl⟩ := ha
  exact ⟨h.input, h.tame, h.removed, h.contains, h.kept, h.injective, h.copied, h.outlines,
    h.members, h.unions, h.parameters, h.ready, h.created⟩

theorem Frame.mono {T' : Set NodeId} (h : Frame g R T d) (hT : T ⊆ T') : Frame g R T' d :=
  { h with copied := fun id j n hj hid => h.copied id j n hj fun hT' => hid (hT hT') }

/-- The output node of an input node is read like the input node. -/
theorem Frame.listed (h : Frame g R T d) (ha : d.Agrees v w) (hj : d.mapping.get? id = some j) :
    listed d.output w j = listed g v id := by
  have hid := out_of_get? hj
  rw [← hid]
  refine (h.outlines id j hj).listed (by rw [hid]; exact ha id j hj) fun m hm => ?_
  obtain ⟨k, hk⟩ := h.members id j hj m hm
  rw [out_of_get? hk]
  exact ha m k hk

/-- What holds at a node holds at its copy. -/
theorem Frame.holds_rename (h : Frame g R T d) (ha : d.Agrees v w)
    (hop : ∀ o ∈ n.operands, ∃ k, d.mapping.get? o = some k) :
    (n.rename d.out).Holds (Valuation.listed d.output w) x ↔ n.Holds (Valuation.listed g v) x := by
  have hread : ∀ o ∈ n.operands, Valuation.listed d.output w (d.out o) = Valuation.listed g v o := by
    intro o ho
    obtain ⟨k, hk⟩ := hop o ho
    rw [out_of_get? hk]
    exact h.listed ha hk
  rw [Node.holds_rename]
  exact ⟨fun hh => hh.congr fun o ho => (hread o ho).symm, fun hh => hh.congr hread⟩

/-- The copy of a node is content that the output can hold. -/
theorem Frame.admits_rename (h : Frame g R T d) (hg : g.Tame) (hn : g.node? id = some n)
    (hop : ∀ o ∈ n.operands, ∃ k, d.mapping.get? o = some k) :
    d.output.Admits (n.rename d.out) := by
  intro e he
  cases n <;> cases he
  rename_i e
  obtain ⟨hm, ho⟩ := hg.admits id _ hn e rfl
  refine ⟨hm, fun hgath => ⟨(ho hgath).1, fun o hmem hu => ?_⟩⟩
  obtain ⟨i, hi, rfl⟩ := List.mem_map.1 hmem
  obtain ⟨k, hk⟩ := hop i hi
  rw [out_of_get? hk] at hu
  exact (ho hgath).2 i hi (h.unions i k hk hu)

/-- A new output node that stands for nothing yet. -/
theorem Frame.insert (h : Frame g R T d) (hi : d.output.Inserted j n o')
    (hn : d.output.Admits n) : Frame g R T { d with output := o' } where
  input := h.input
  tame := h.tame.insert hi hn
  removed := h.removed
  contains id k hk := ⟨(h.contains id k hk).1, hi.contains (h.contains id k hk).2⟩
  kept := h.kept
  injective := h.injective
  copied id k m hk hT hm := by
    obtain ⟨hcopy, hop⟩ := h.copied id k m hk hT hm
    refine ⟨?_, hop⟩
    rw [hi.node?_of_ne (hi.ne_of_contains (h.contains id k hk).2)]
    exact hcopy
  outlines id k hk := by
    have hne := hi.ne_of_contains (h.contains id k hk).2
    refine (h.outlines id k hk).congr ?_ rfl fun _ _ => rfl
    rw [out_of_get? (d := d) hk]
    exact hi.node?_of_ne hne
  members := h.members
  unions id k hk hu := h.unions id k hk
    ((Generation.isUnion_congr (hi.node?_of_ne (hi.ne_of_contains (h.contains id k hk).2))).1 hu)
  parameters id k p hk hp := by
    obtain ⟨p', hp'⟩ := h.parameters id k p hk hp
    exact ⟨p', by rw [hi.node?_of_ne (hi.ne_of_contains (h.contains id k hk).2), hp']⟩
  ready := h.ready
  created e c hc := by
    obtain ⟨hspare, ⟨e', he'⟩, hissued, hsame⟩ := h.created e c hc
    have hne := hi.ne_of_contains (Generation.contains_of_node? he')
    refine ⟨hspare, ⟨e', by rw [hi.node?_of_ne hne, he']⟩, fun o ho => hi.issued o (hissued o ho),
      fun hall => ?_⟩
    rw [hi.node?_of_ne hne]
    refine hsame fun o ho => ?_
    have hoj : o ≠ j := fun hoj => hi.not_issued (hoj ▸ hissued o ho)
    obtain ⟨m, hm⟩ := Generation.contains_iff.1 (hall o ho)
    rw [hi.node?_of_ne hoj] at hm
    exact Generation.contains_of_node? hm

/-- An output node that stands for nothing comes to stand for an input node. -/
theorem Frame.bind (h : Frame g R T d) (hn : g.node? id = some n) (hR : id ∉ R)
    (hun : d.mapping.get? id = none) (hj : d.output.contains j) (hs : d.Spare j)
    (hcr : ∀ e, (e, j) ∉ d.created)
    (hout : ∀ f : NodeId → NodeId, f id = j → (∀ i, i ≠ id → f i = d.out i) →
      Outlines g d.output f id)
    (hmem : ∀ m ∈ Knowledge.members g id, m = id ∨ ∃ k, d.mapping.get? m = some k)
    (hun' : d.output.isUnion j → g.isUnion id)
    (hpar : ∀ p, n = .parameter p → ∃ p', d.output.node? j = some (.parameter p'))
    (hcopy : id ∉ T → d.output.node? j = some (n.rename d.out) ∧
      ∀ o ∈ n.operands, ∃ k, d.mapping.get? o = some k) :
    Frame g R T { d with mapping := d.mapping.insert id j } := by
  have hbinds : d.mapping.Binds id j (d.mapping.insert id j) :=
    NodeMap.binds_insert (Generation.ne_null_of_contains (Generation.contains_of_node? hn))
  have hold : ∀ i k, d.mapping.get? i = some k → i ≠ id := by
    rintro i k hk rfl
    simp [hun] at hk
  have hout' : ∀ i, i ≠ id → ({ d with mapping := d.mapping.insert id j } : Draft Exact).out i = d.out i :=
    fun i hi => congrArg (fun x : Option NodeId => x.getD .null) (hbinds.of_ne hi)
  have hself : ({ d with mapping := d.mapping.insert id j } : Draft Exact).out id = j :=
    out_of_get? hbinds.self
  have hren : ∀ m : Node Exact, (∀ o ∈ m.operands, o ≠ id) →
      m.rename ({ d with mapping := d.mapping.insert id j } : Draft Exact).out = m.rename d.out := by
    exact fun m hm => Node.rename_congr fun o ho => hout' o (hm o ho)
  constructor
  case input => exact h.input
  case tame => exact h.tame
  case removed => exact h.removed
  case contains =>
    intro i k hk
    rcases hbinds.cases hk with ⟨rfl, rfl⟩ | ⟨-, hk⟩
    · exact ⟨Generation.contains_of_node? hn, hj⟩
    · exact h.contains i k hk
  case kept =>
    intro i k hk
    rcases hbinds.cases hk with ⟨rfl, rfl⟩ | ⟨-, hk⟩
    · exact hR
    · exact h.kept i k hk
  case injective =>
    exact fun i i' k hk hk' => hbinds.injective hs h.injective hk hk'
  case copied =>
    intro i k m hk hT hm
    rcases hbinds.cases hk with ⟨rfl, rfl⟩ | ⟨-, hk⟩
    · rw [hn] at hm
      cases hm
      obtain ⟨hnode, hop⟩ := hcopy hT
      refine ⟨?_, fun o ho => ?_⟩
      · rw [hren n fun o ho => (hop o ho).elim fun k hk => hold o k hk]
        exact hnode
      · obtain ⟨k, hk⟩ := hop o ho
        exact ⟨k, hbinds.keeps hun hk⟩
    · obtain ⟨hnode, hop⟩ := h.copied i k m hk hT hm
      refine ⟨?_, fun o ho => ?_⟩
      · rw [hren m fun o ho => (hop o ho).elim fun k hk => hold o k hk]
        exact hnode
      · obtain ⟨k, hk⟩ := hop o ho
        exact ⟨k, hbinds.keeps hun hk⟩
  case outlines =>
    intro i k hk
    rcases hbinds.cases hk with ⟨rfl, rfl⟩ | ⟨hi, hk⟩
    · exact hout _ hself hout'
    · refine (h.outlines i k hk).congr rfl (hout' i hi) fun m hm => hout' m ?_
      obtain ⟨l, hl⟩ := h.members i k hk m hm
      exact hold m l hl
  case members =>
    intro i k hk m hm
    rcases hbinds.cases hk with ⟨rfl, rfl⟩ | ⟨-, hk⟩
    · rcases hmem m hm with rfl | ⟨l, hl⟩
      · exact ⟨_, hk⟩
      · exact ⟨l, hbinds.keeps hun hl⟩
    · obtain ⟨l, hl⟩ := h.members i k hk m hm
      exact ⟨l, hbinds.keeps hun hl⟩
  case unions =>
    intro i k hk
    rcases hbinds.cases hk with ⟨rfl, rfl⟩ | ⟨-, hk⟩
    · exact hun'
    · exact h.unions i k hk
  case parameters =>
    intro i k p hk hp
    rcases hbinds.cases hk with ⟨rfl, rfl⟩ | ⟨-, hk⟩
    · rw [hn] at hp
      exact hpar p (Option.some.inj hp)
    · exact h.parameters i k p hk hp
  case ready =>
    intro i m hm hiR hnone
    refine h.ready i m hm hiR ?_
    cases hk : d.mapping.get? i with
    | none => rfl
    | some k =>
      cases hnone.symm.trans (hbinds.keeps hun hk)
  case created =>
    intro e c hc
    obtain ⟨hspare, hrest⟩ := h.created e c hc
    refine ⟨fun i hi => ?_, hrest⟩
    rcases hbinds.cases hi with ⟨-, rfl⟩ | ⟨-, hi⟩
    · exact hcr e hc
    · exact hspare i hi

/-- Other content in the output node of a touched input node. -/
theorem Frame.replace {T' : Set NodeId} (h : Frame g R T d) (hj : d.mapping.get? id = some j)
    (hr : d.output.Replaced j n o') (hT : T ⊆ T') (hid : id ∈ T') (hn : d.output.Admits n)
    (hu : o'.isUnion j → d.output.isUnion j)
    (hpar : ∀ p, g.node? id = some (.parameter p) → ∃ p', n = .parameter p') (hout : Outlines d.output o' (fun i => i) j) :
    Frame g R T' { d with output := o' } where
  input := h.input
  tame := h.tame.replace hr hn hu
  removed := h.removed
  contains i k hk := ⟨(h.contains i k hk).1, hr.contains_iff.2 (h.contains i k hk).2⟩
  kept := h.kept
  injective := h.injective
  copied i k m hk hiT hm := by
    obtain ⟨hnode, hop⟩ := h.copied i k m hk (fun hi => hiT (hT hi)) hm
    have hne : k ≠ j := fun hkj => hiT (h.injective i id j (hkj ▸ hk) hj ▸ hid)
    exact ⟨by rw [hr.node?_of_ne hne]; exact hnode, hop⟩
  outlines i k hk := by
    refine (h.outlines i k hk).trans ?_
    rw [out_of_get? (d := d) hk]
    by_cases hkj : k = j
    · rw [hkj]
      exact hout
    · exact outlines_of_node? (hr.node?_of_ne hkj)
  members := h.members
  unions i k hk hku := by
    refine h.unions i k hk ?_
    by_cases hkj : k = j
    · subst hkj
      exact hu hku
    · exact (Generation.isUnion_congr (hr.node?_of_ne hkj)).1 hku
  parameters i k p hk hp := by
    by_cases hkj : k = j
    · subst hkj
      obtain rfl := h.injective i id k hk hj
      obtain ⟨p', rfl⟩ := hpar p hp
      exact ⟨p', hr.node?_self⟩
    · rw [hr.node?_of_ne hkj]
      exact h.parameters i k p hk hp
  ready := h.ready
  created e c hc := by
    obtain ⟨hspare, ⟨e', he'⟩, hissued, hsame⟩ := h.created e c hc
    have hne : c ≠ j := fun hcj => hspare id (hcj ▸ hj)
    refine ⟨hspare, ⟨e', by rw [hr.node?_of_ne hne, he']⟩, fun o ho => hr.issued o (hissued o ho),
      fun hall => ?_⟩
    rw [hr.node?_of_ne hne]
    exact hsame fun o ho => hr.contains_iff.1 (hall o ho)

end Draft

end ParameterSolver
