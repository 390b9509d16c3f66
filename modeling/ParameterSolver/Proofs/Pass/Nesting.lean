import ParameterSolver.Proofs.Draft.Remove
import ParameterSolver.Proofs.Pass.Expansions
import ParameterSolver.Proofs.Pass.Flattening

/-! The pass that flattens nested expressions keeps the models. The merged nodes are gone afterwards;
a model of what is left gives each of them back the value of its operands, innermost first. -/

namespace ParameterSolver

open Exact ParameterSolver.Valuation Operand Draft

namespace Pass

variable {g : Generation Exact} {T : Set NodeId} {d d' : Draft Exact} {id : NodeId}
  {e : Expression} {v w : Valuation} {x : Value ℚ} {gone all : List NodeId}

/-- Nothing is merged into a union. -/
theorem absorbable?_of_union (hg : g.Tame) (hn : g.node? id = some (.expression e))
    (hu : e.op = .union) {o : NodeId} (ho : o ∈ e.operands) : absorbable? g o e = none := by
  rw [Option.eq_none_iff_forall_not_mem]
  intro c hc
  obtain ⟨hnode, hop, -⟩ := absorbable?_eq_some.1 hc
  obtain ⟨-, hgath⟩ := hg.admits id _ hn e rfl
  refine (hgath (by rw [hu]; decide)).2 o ho ?_
  rw [isUnion_iff_of_node? hnode]
  exact ⟨c, rfl, hop.trans hu⟩

/-- What is left means what was there before. -/
theorem denotes_keptOperands (hg : g.Tame) (hn : g.node? id = some (.expression e))
    (hroot : isAbsorbed g id = false) (hop : flattens e.op ∨ e.op.has .idempotent)
    (hv : ∀ o ∈ (flattened g e).2, Combines e.op ((g.operands o).map v) (v o)) :
    e.op.relaxed.Denotes (e.operands.map (listed g v)) x ↔
      e.op.relaxed.Denotes ((keptOperands g e).map (listed g v)) x := by
  by_cases hu : e.op = .union
  · have hnone : ∀ o ∈ e.operands, absorbable? g o e = none := fun o ho =>
      absorbable?_of_union hg hn hu ho
    have hmem : ∀ o, o ∈ keptOperands g e ↔ o ∈ e.operands := fun o => by
      rw [mem_keptOperands, flattened_of_none hn hnone]
    rw [hu]
    change _ ≠ [] ↔ _ ≠ []
    rw [ne_eq, List.map_eq_nil_iff, ne_eq, List.map_eq_nil_iff, List.eq_nil_iff_forall_not_mem,
      List.eq_nil_iff_forall_not_mem]
    simp only [hmem]
  · have hkind : e.op.has .arithmetic ∨ e.op.has .logic := by
      have hmeant := (hg.admits id _ hn e rfl).1
      generalize e.op = op at *
      cases op <;> simp_all [flattens, Operator.isCanonical, Operator.has, Operator.having,
        Operator.logical, Operator.meant]
    rw [relaxed_of_combines hkind, Operator.denotes_iff_combines hkind,
      Operator.denotes_iff_combines hkind, map_value_listed, map_value_listed]
    have hflat : Combines e.op (e.operands.map v) x ↔ Combines e.op ((flattened g e).1.map v) x := by
      by_cases hf : flattens e.op
      · obtain ⟨β, tag, f, hfold⟩ := Folds.of_flattens hf hu
        unfold flattened at hv ⊢
        rw [if_pos hf] at hv ⊢
        simpa using combines_flatten hfold (shallow_size hg.linked hn hroot) rfl hv [] (x := x)
      · rw [flattened, if_neg hf]
    rw [hflat]
    unfold keptOperands
    split_ifs with hi
    · have hmem : ∀ y, y ∈ ((flattened g e).1.map v) ↔ y ∈ ((flattened g e).1.eraseDups.map v) := by
        simp [List.mem_eraseDups]
      exact ⟨Combines.congr_mem hi hmem, Combines.congr_mem hi fun y => (hmem y).symm⟩
    · rfl

/-! The loop. -/

/-- The nodes have values that they can have. -/
def HoldsAt (g : Generation Exact) (l : List NodeId) (v : Valuation) : Prop :=
  ∀ o ∈ l, ∀ n, g.node? o = some n → n.Holds (listed g v) (v o)

/-- Every node in the list is merged into its only user, which is in `T` or comes earlier. -/
def Layered (g : Generation Exact) (T : Set NodeId) (all : List NodeId) : Prop :=
  ∀ pre o, pre ++ [o] <+: all → isAbsorbed g o ∧ o ∉ pre ∧ ∀ u ∈ g.users o, u ∈ T ∨ u ∈ pre

/-- The draft after some expressions have been flattened. The nodes in `all` are merged, those in
`gone` have already been removed. -/
structure Nested (g : Generation Exact) (gone all : List NodeId) (T : Set NodeId)
    (d : Draft Exact) : Prop extends Simulates g { o | o ∈ gone } T (HoldsAt g all) ∅ d where
  full : d.Full
  merged : gone <+: all
  touched : ∀ i ∈ T, isAbsorbed g i = false ∧ ∃ j, d.mapping.get? i = some j
  /-- What has been written anew uses no node that is merged into another. -/
  pruned : ∀ i ∈ T, ∀ j, d.mapping.get? i = some j → ∀ k ∈ d.output.operands j,
    ∃ o, isAbsorbed g o = false ∧ d.mapping.get? o = some k
  ordered : Layered g T all
  /-- The operands of merged nodes are merged or operands of an expression with the operator. -/
  fed : ∀ o ∈ all, ∀ c, g.node? o = some (.expression c) → ∀ m ∈ c.operands, m ∈ all ∨
    isAbsorbed g m = false ∧ ∃ i ∈ T, ∃ j e k, d.mapping.get? i = some j ∧
      d.output.node? j = some (.expression e) ∧ e.op = c.op ∧ d.mapping.get? m = some k ∧ k ∈ e.operands

theorem exists_prefix_of_mem {l : List NodeId} {o : NodeId} (h : o ∈ l) :
    ∃ pre, pre ++ [o] <+: l := by
  obtain ⟨pre, post, rfl⟩ := List.append_of_mem h
  exact ⟨pre, post, by simp⟩

theorem Nested.absorbed (h : Nested g gone all T d) {o : NodeId} (ho : o ∈ all) :
    isAbsorbed g o := by
  obtain ⟨pre, hpre⟩ := exists_prefix_of_mem ho
  exact (h.ordered pre o hpre).1

theorem Nested.not_mem (h : Nested g gone all T d) {o : NodeId} (ho : isAbsorbed g o = false) :
    o ∉ gone := fun hmem => by
  have := h.absorbed (h.merged.subset hmem)
  rw [ho] at this
  cases this

/-- A merged node has the operator of its only user, which is no union. -/
theorem not_isUnion_of_isAbsorbed (hg : g.Tame) {o u : NodeId} (h : isAbsorbed g o)
    (hu : o ∈ g.operands u) : ¬ g.isUnion u := by
  obtain ⟨p, e, c, husers, hp, hc⟩ := exists_of_isAbsorbed h
  have hmem : u ∈ g.users o := (hg.linked.users o u).2 hu
  rw [husers] at hmem
  obtain rfl := List.mem_singleton.1 hmem
  rw [isUnion_iff_of_node? hp]
  rintro ⟨_, ⟨⟩, hop⟩
  rw [Generation.operands_of_node? hp] at hu
  rw [absorbable?_of_union hg hp hop hu] at hc
  cases hc

/-- The copy of the next merged node has no users. -/
theorem Nested.users_eq (h : Nested g gone all T d) (hg : g.Tame) {o j : NodeId}
    (ho : gone ++ [o] <+: all) (hj : d.mapping.get? o = some j) : d.output.users j = [] := by
  obtain ⟨habs, -, husers⟩ := h.ordered gone o ho
  refine List.eq_nil_iff_forall_not_mem.2 fun k hk => ?_
  rw [h.tame.linked.users] at hk
  obtain ⟨n, hn⟩ := Generation.node?_of_mem_operands hk
  obtain ⟨i, hi⟩ := h.full k (Generation.contains_of_node? hn)
  by_cases hT : i ∈ T
  · obtain ⟨o', ho', hj'⟩ := h.pruned i hT k hi j hk
    rw [h.injective o' o j hj' hj, habs] at ho'
    cases ho'
  · obtain ⟨m, hm⟩ := Generation.contains_iff.1 (h.contains i k hi).1
    obtain ⟨hcopy, hop⟩ := h.copied i k m hi hT hm
    rw [Generation.operands_of_node? hcopy, Node.operands_rename] at hk
    obtain ⟨o', ho', hout⟩ := List.mem_map.1 hk
    obtain ⟨k', hk'⟩ := hop o' ho'
    rw [out_of_get? hk'] at hout
    obtain rfl := h.injective o' o j (hout ▸ hk') hj
    have hu : i ∈ g.users o' := (hg.linked.users o' i).2 (by rwa [Generation.operands_of_node? hm])
    rcases husers i hu with hiT | hig
    · exact hT hiT
    · exact h.kept i k hi hig

/-- The next merged node goes. -/
theorem Nested.remove (h : Nested g gone all T d) (hg : g.Tame) {o : NodeId} {r : Unit}
    (ho : gone ++ [o] <+: all) (hr : Runs (Draft.remove o) d r d') :
    Nested g (gone ++ [o]) all T d' := by
  obtain ⟨habs, hfresh, husers⟩ := h.ordered gone o ho
  obtain ⟨p, e, c, hup, hp, hc⟩ := exists_of_isAbsorbed habs
  have hn := (absorbable?_eq_some.1 hc).1
  have hmem : o ∈ all := ho.subset (by simp)
  have hT : o ∉ T := fun hoT => by
    have := (h.touched o hoT).1
    rw [habs] at this
    cases this
  have hne : ∀ i ∈ T, i ≠ o := fun i hi heq => hT (heq ▸ hi)
  obtain ⟨h', hd⟩ := h.toSimulates.remove hn hT
    (fun u hu => ⟨not_isUnion_of_isAbsorbed hg habs hu, by
      rcases husers u ((hg.linked.users o u).2 hu) with huT | hug
      · exact Or.inr ⟨huT, (h.touched u huT).2⟩
      · exact Or.inl hug⟩)
    (fun j hj => h.users_eq hg ho hj) (fun v hv => hv o hmem _ hn) hr
  have hnode : ∀ i ∈ T, ∀ j, d.mapping.get? i = some j → d'.output.node? j = d.output.node? j :=
    fun i hi j hj => hd.node?_of_ne fun hoj => hne i hi (h.injective i o j hj hoj)
  have hset : ({ i | i ∈ gone } : Set NodeId) ∪ {o} = { i | i ∈ gone ++ [o] } := by
    ext i
    simp [or_comm]
  refine ⟨hset ▸ h', hd.full h.full, ho, fun i hi => ?_, fun i hi j hj k hk => ?_, h.ordered,
    fun q hq c' hc' m hm => ?_⟩
  · rw [hd.get?_of_ne (hne i hi)]
    exact h.touched i hi
  · obtain ⟨-, hj⟩ := hd.ne_of_get? hj
    rw [Generation.operands_congr (hnode i hi j hj)] at hk
    obtain ⟨x, hx, hxk⟩ := h.pruned i hi j hj k hk
    refine ⟨x, hx, ?_⟩
    rwa [hd.get?_of_ne fun heq => by simp [heq, habs] at hx]
  · rcases h.fed q hq c' hc' m hm with hall | ⟨hma, i, hi, j, e', k, hij, hje, hop, hmk, hke⟩
    · exact Or.inl hall
    · refine Or.inr ⟨hma, i, hi, j, e', k, ?_, ?_, hop, ?_, hke⟩
      · rwa [hd.get?_of_ne (hne i hi)]
      · rwa [hnode i hi j hij]
      · rwa [hd.get?_of_ne fun heq => by simp [heq, habs] at hma]

theorem Nested.removeAll (h : Nested g gone all T d) (hg : g.Tame) {l : List NodeId} {r : PUnit}
    (hl : gone ++ l = all) (hr : Runs (l.forM Draft.remove) d r d') : Nested g all all T d' := by
  rw [← hl]
  refine runs_forM (P := fun done d => Nested g (gone ++ done) (gone ++ l) T d)
    (fun done o rest hdone d₁ d₂ r h hr => ?_) (List.nil_append _) (by simpa [hl] using h) hr
  rw [← List.append_assoc]
  exact h.remove hg ⟨rest, by rw [← hdone]; simp⟩ hr

/-- No node is merged into two expressions. -/
theorem Nested.disjoint (h : Nested g gone gone T d) {op : Operator}
    {acc : List NodeId × List NodeId} (hid : isAbsorbed g id = false) (hT : id ∉ T)
    (hc : Collected g id op acc) {pre : List NodeId} (hpre : pre <+: acc.2) : ∀ o ∈ pre, o ∉ gone := by
  induction pre using List.reverseRecOn with
  | nil => simp
  | append_singleton pre x ih =>
    intro o ho
    have ih := ih ((List.prefix_append _ _).trans hpre)
    rcases List.mem_append.1 ho with ho | ho
    · exact ih o ho
    · rw [List.mem_singleton.1 ho]
      intro hx
      obtain ⟨habs, -, husers⟩ := hc.absorbed pre x hpre
      obtain ⟨u, -, -, hu, -⟩ := exists_of_isAbsorbed habs
      obtain ⟨pre', hpre'⟩ := exists_prefix_of_mem hx
      rcases (h.ordered pre' x hpre').2.2 u (by simp [hu]) with huT | hug
      · rcases husers u (by simp [hu]) with rfl | hup
        · exact hT huT
        · obtain ⟨pre'', hpre''⟩ := exists_prefix_of_mem hup
          have hua := (hc.absorbed pre'' u (hpre''.trans ((List.prefix_append _ _).trans hpre))).1
          rw [(h.touched u huT).1] at hua
          cases hua
      · have hug' : u ∈ gone := ((List.prefix_append _ _).trans hpre').subset hug
        rcases husers u (by simp [hu]) with rfl | hup
        · exact h.not_mem hid hug'
        · exact ih u hup hug'

/-- The operands of an expression are copied, and every output node still stands for something. -/
theorem resolveInputs (hg : g.Tame) {R : Set NodeId} {K : Valuation → Prop} {p : Provenance}
    {l : List NodeId} {r : Option (List NodeId)} (h : Simulates g R T K ∅ d) (hfull : d.Full)
    (hl : ∀ o ∈ l, g.contains o ∧ o ∉ R)
    (hr : Runs (collect (Draft.resolve p) (l.map .input)) d r d') :
    (Simulates g R T K ∅ d' ∧ d'.Full) ∧ Extends d d' ∧
      ∃ js, r = some js ∧ List.Forall₂ (Operand.Stands d') (l.map .input) js := by
  refine collect_spec (I := fun d => Simulates g R T K ∅ d ∧ d.Full) (fun hq he => hq.mono he)
    (fun a ha d₁ r d₂ ⟨h, hf⟩ hr => ?_) ⟨h, hfull⟩ hr
  obtain ⟨o, ho, rfl⟩ := List.mem_map.1 ha
  obtain ⟨h', hext, hk, hfull'⟩ := h.copy hg (hl o ho).1 (hl o ho).2 hr
  exact ⟨⟨h', hfull' hf⟩, hext, hk⟩

theorem mem_of_stands_inputs {l js : List NodeId}
    (h : List.Forall₂ (Operand.Stands d) (l.map .input) js) :
    (∀ k ∈ js, ∃ o ∈ l, d.mapping.get? o = some k) ∧
      ∀ o ∈ l, ∃ k ∈ js, d.mapping.get? o = some k := by
  induction l generalizing js with
  | nil =>
    cases h
    simp
  | cons o l ih =>
    obtain _ | ⟨hk, h⟩ := h
    obtain ⟨h1, h2⟩ := ih h
    refine ⟨List.forall_mem_cons.2 ⟨⟨o, by simp, hk⟩, fun k hk => ?_⟩,
      List.forall_mem_cons.2 ⟨⟨_, by simp, hk⟩, fun o ho => ?_⟩⟩
    · obtain ⟨o', ho', hk'⟩ := h1 k hk
      exact ⟨o', by simp [ho'], hk'⟩
    · obtain ⟨k', hk', hok⟩ := h2 o ho
      exact ⟨k', by simp [hk'], hok⟩

theorem flattens_of_isAbsorbed (hg : g.Tame) {o : NodeId} {c : Expression} (habs : isAbsorbed g o)
    (hn : g.node? o = some (.expression c)) : flattens c.op ∧ c.op ≠ .union ∧ c.asserted = false := by
  obtain ⟨p, e', c', hu, hp, hc⟩ := exists_of_isAbsorbed habs
  obtain ⟨hn', hop, hassert, hf, -⟩ := absorbable?_eq_some.1 hc
  rw [hn] at hn'
  cases hn'
  refine ⟨hf, fun hunion => ?_, hassert⟩
  refine not_isUnion_of_isAbsorbed hg habs ((hg.linked.users o p).1 (by simp [hu])) ?_
  rw [isUnion_iff_of_node? hp]
  exact ⟨e', rfl, hop ▸ hunion⟩

/-- A merged node has a value that it can have if it is the value of its operands. -/
theorem holds_iff_combines (hg : g.Tame) {o : NodeId} {c : Expression} (habs : isAbsorbed g o)
    (hn : g.node? o = some (.expression c)) :
    Node.Holds (.expression c) (listed g v) x ↔ Combines c.op (c.operands.map v) x := by
  obtain ⟨hf, hnu, hassert⟩ := flattens_of_isAbsorbed hg habs hn
  have hkind := Folds.kind_of_flattens hf hnu
  rw [Node.Holds, relaxed_of_combines hkind, Operator.denotes_iff_combines hkind, map_value_listed,
    hassert]
  simp

theorem mem_keptOperands_of_union (hg : g.Tame) (hn : g.node? id = some (.expression e))
    (hu : e.op = .union) {o : NodeId} : o ∈ keptOperands g e ↔ o ∈ e.operands := by
  rw [mem_keptOperands, flattened_of_none hn fun o ho => absorbable?_of_union hg hn hu ho]

/-- The collection of what is left is that of the operands. -/
theorem fills_keptOperands (hg : g.Tame) (hn : g.node? id = some (.expression e))
    {js : List NodeId} (h : List.Forall₂ (Operand.Stands d) ((keptOperands g e).map .input) js) :
    Fills d (.expression e) (.expression ⟨e.op, js, e.asserted⟩) := by
  obtain ⟨h₁, h₂⟩ := mem_of_stands_inputs h
  refine ⟨rfl, by simp [isUnion], ?_, ?_, by simp⟩
  · rintro ⟨_, ⟨⟩, hu⟩ o ho
    obtain ⟨k, -, hk⟩ := h₂ o ((mem_keptOperands_of_union hg hn hu).2 ho)
    exact ⟨k, hk⟩
  · rintro ⟨_, ⟨⟩, hu⟩ y
    constructor
    · intro hy
      obtain ⟨o, ho, hk⟩ := h₁ y hy
      exact ⟨o, (mem_keptOperands_of_union hg hn hu).1 ho, out_of_get? hk⟩
    · rintro ⟨o, ho, rfl⟩
      obtain ⟨k, hk, hok⟩ := h₂ o ((mem_keptOperands_of_union hg hn hu).2 ho)
      rwa [out_of_get? hok]

theorem writes_keptOperands (hg : g.Tame) (hn : g.node? id = some (.expression e)) :
    Writes g e.op ((keptOperands g e).map .input) e.asserted := by
  obtain ⟨hmeant, hgath⟩ := hg.admits id _ hn e rfl
  refine ⟨hmeant, fun hop => ⟨(hgath hop).1, fun a ha => ?_⟩⟩
  obtain ⟨o, ho, rfl⟩ := List.mem_map.1 ha
  refine ⟨o, rfl, ?_⟩
  -- what gathers and flattens is a union, into which nothing is merged
  have hnone : ∀ o ∈ e.operands, absorbable? g o e = none := by
    by_cases hu : e.op = .union
    · exact fun o ho => absorbable?_of_union hg hn hu ho
    · refine fun o _ => absorbable?_of_not_flattens ?_ o
      generalize e.op = op at hop hu
      cases op <;> simp_all [Operator.gathers, flattens, Operator.isCanonical, Operator.has,
        Operator.having]
  rw [mem_keptOperands, flattened_of_none hn hnone] at ho
  exact (hgath hop).2 o ho

theorem combines_of_holdsAt (hg : g.Tame) (hn : g.node? id = some (.expression e))
    (hv : HoldsAt g (flattened g e).2 v) :
    ∀ o ∈ (flattened g e).2, Combines e.op ((g.operands o).map v) (v o) := by
  intro o ho
  have hcol := collected_flattened hg.linked hn
  obtain ⟨c, hc, hop⟩ := hcol.same o ho
  obtain ⟨pre, hpre⟩ := exists_prefix_of_mem ho
  rw [Generation.operands_of_node? hc, ← hop]
  exact (holds_iff_combines hg (hcol.absorbed pre o hpre).1 hc).1 (hv o ho _ hc)

theorem prefix_append_cases {l l' pre : List NodeId} {o : NodeId} (h : pre ++ [o] <+: l ++ l') :
    pre ++ [o] <+: l ∨ ∃ pre', pre = l ++ pre' ∧ pre' ++ [o] <+: l' := by
  obtain ⟨t, ht⟩ := h
  rcases List.append_eq_append_iff.1 ht with ⟨a, ha, -⟩ | ⟨c, hc, hl'⟩
  · exact Or.inl ⟨a, ha.symm⟩
  · rcases List.eq_nil_or_concat c with rfl | ⟨c, o', rfl⟩
    · exact Or.inl (by rw [hc, List.append_nil])
    · rw [List.concat_eq_append, ← List.append_assoc] at hc
      obtain ⟨rfl, ho⟩ := List.append_inj' hc rfl
      cases ho
      exact Or.inr ⟨c, rfl, t, by rw [hl', List.concat_eq_append]⟩

/-- An expression is written anew without what is merged into it. -/
theorem Nested.edit (h : Nested g gone gone T d) (hg : g.Tame)
    (hn : g.node? id = some (.expression e)) (hT : id ∉ T) (hid : isAbsorbed g id = false)
    (hop : flattens e.op ∨ e.op.has .idempotent) (hne : keptOperands g e ≠ e.operands)
    {r : Option NodeId}
    (hr : Runs (Draft.editExpression id { operands := some ((keptOperands g e).map .input) }) d r d') :
    Nested g gone (gone ++ (flattened g e).2) (T ∪ {id}) d' ∧ ∃ k, r = some k := by
  have hcol := collected_flattened hg.linked hn
  have hR : id ∉ gone := h.not_mem hid
  have hnr : d.isRemoved id = false := Bool.eq_false_iff.2 fun hrem => hR ((h.removed id).1 hrem)
  have he : d.input.expression? id = some e := by
    rw [h.input, Generation.expression?, hn]
    rfl
  have hkept : ∀ o ∈ keptOperands g e, isAbsorbed g o = false ∧ g.contains o := fun o ho =>
    hcol.operands o (mem_keptOperands.1 ho)
  have hmeans : ∀ {v}, HoldsAt g (flattened g e).2 v → ∀ {x},
      e.op.relaxed.Denotes (e.operands.map (listed g v)) x ↔
        e.op.relaxed.Denotes ((keptOperands g e).map (listed g v)) x := fun hv =>
    denotes_keptOperands hg hn hid hop (combines_of_holdsAt hg hn hv)
  rcases runs_editExpression hnr he hr with ⟨hsame, -⟩ | ⟨p, os, d₁, hcollect, hwrite⟩
  · exact absurd (isInputs_inputs hsame) hne
  obtain ⟨⟨h₁, hfull₁⟩, hext, js, rfl, hjs⟩ := resolveInputs hg h.toSimulates h.full
    (fun o ho => ⟨(hkept o ho).2, h.not_mem (hkept o ho).1⟩) hcollect
  obtain ⟨k, rfl, hemit⟩ := hwrite js rfl
  obtain ⟨hjs₁, hjs₂⟩ := mem_of_stands_inputs hjs
  have hread : ∀ {v w}, d₁.Agrees v w → SparesHold d₁ w →
      js.map (listed d₁.output w) = (keptOperands g e).map (listed g v) := fun ha hs =>
    reads_inputs (reads_of_stands hjs h₁.toFrame ha hs)
  obtain ⟨h₂, hk, hnode, hkeeps⟩ : Simulates g { o | o ∈ gone } (T ∪ {id})
      (HoldsAt g (gone ++ (flattened g e).2)) ∅ d' ∧ _ :=
    h₁.emit hn hR hT (fills_keptOperands hg hn hjs)
      ((writes_keptOperands hg hn).admits h₁.toFrame hjs)
      (fun v hv o ho => hv o (List.mem_append_left _ ho))
      ⟨fun v w hm => by
        obtain ⟨hd, ht⟩ := hm.input id _ hn
        refine ⟨?_, ht⟩
        dsimp only
        rw [hread hm.agrees hm.sparesHold, ← hmeans fun o _ n hn => hm.input o n hn]
        exact hd, fun v w hs ha hv hh => by
        obtain ⟨hd, ht⟩ := hh
        refine ⟨?_, ht⟩
        dsimp only at hd
        rw [hread ha hs, ← hmeans fun o ho => hv o (List.mem_append_right _ ho)] at hd
        exact hd⟩ hemit
  have hmap : ∀ i j, d.mapping.get? i = some j → d'.mapping.get? i = some j := fun i j hj =>
    hkeeps.mapping i j (hext.mapping i j hj)
  have hold : ∀ i ∈ T, ∀ j, d.mapping.get? i = some j → d'.output.node? j = d.output.node? j := by
    intro i hi j hj
    obtain ⟨n, hn'⟩ := Generation.contains_iff.1 (h.contains i j hj).2
    rw [hkeeps.node? i j (fun heq => hT (heq ▸ hi)) (hext.mapping i j hj), hext.node? j n hn', hn']
  refine ⟨⟨h₂, hkeeps.full hfull₁, List.prefix_append _ _, ?_, ?_, ?_, ?_⟩, k, rfl⟩
  · rintro i (hi | rfl)
    · obtain ⟨hia, j, hj⟩ := h.touched i hi
      exact ⟨hia, j, hmap i j hj⟩
    · exact ⟨hid, k, hk⟩
  · rintro i (hi | rfl) j hj q hq
    · obtain ⟨-, j', hj'⟩ := h.touched i hi
      obtain rfl : j = j' := by simpa [hj] using hmap i j' hj'
      rw [Generation.operands_congr (hold i hi j hj')] at hq
      obtain ⟨o, ho, hoq⟩ := h.pruned i hi j hj' q hq
      exact ⟨o, ho, hmap o q hoq⟩
    · obtain rfl : k = j := by simpa [hj] using hk.symm
      rw [Generation.operands_of_node? hnode] at hq
      obtain ⟨o, ho, hoq⟩ := hjs₁ q hq
      exact ⟨o, (hkept o ho).1, hkeeps.mapping o q hoq⟩
  · intro pre o hpre
    rcases prefix_append_cases hpre with hpre' | ⟨pre', rfl, hpre'⟩
    · obtain ⟨habs, hfresh, husers⟩ := h.ordered pre o hpre'
      exact ⟨habs, hfresh, fun u hu => (husers u hu).imp_left Or.inl⟩
    · obtain ⟨habs, hfresh, husers⟩ := hcol.absorbed pre' o hpre'
      refine ⟨habs, fun hmem => ?_, fun u hu => ?_⟩
      · rcases List.mem_append.1 hmem with hmem | hmem
        · exact h.disjoint hid hT hcol hpre' o (by simp) hmem
        · exact hfresh hmem
      · rcases husers u hu with rfl | hup
        · exact Or.inl (Or.inr rfl)
        · exact Or.inr (List.mem_append_right _ hup)
  · intro o ho c hc m hm
    rcases List.mem_append.1 ho with ho | ho
    · rcases h.fed o ho c hc m hm with hall | ⟨hma, i, hi, j, e', q, hij, hje, hop, hmq, hqe⟩
      · exact Or.inl (List.mem_append_left _ hall)
      · exact Or.inr ⟨hma, i, Or.inl hi, j, e', q, hmap i j hij, by rw [hold i hi j hij, hje], hop,
          hmap m q hmq, hqe⟩
    · obtain ⟨c', hc', hcop⟩ := hcol.same o ho
      rw [hc] at hc'
      cases hc'
      have hcov := covers_flattened hg.linked hn hid ho m (by rwa [Generation.operands_of_node? hc])
      rcases hcov with hleft | hmerged
      · obtain ⟨q, hq, hmq⟩ := hjs₂ m (mem_keptOperands.2 hleft)
        exact Or.inr ⟨(hcol.operands m hleft).1, id, Or.inr rfl, k, _, q, hk, hnode, hcop.symm,
          hkeeps.mapping m q hmq, hq⟩
      · exact Or.inl (List.mem_append_right _ hmerged)

theorem Nested.addProvenance (h : Nested g gone all T d) (j : NodeId) (p : Provenance) :
    Nested g gone all T { d with output := d.output.addProvenance j p } := by
  have hnode : ∀ k, (d.output.addProvenance j p).node? k = d.output.node? k :=
    Generation.node?_addProvenance
  refine ⟨h.toSimulates.addProvenance j, fun k hk => ?_, h.merged, h.touched,
    fun i hi k hk q hq => ?_, h.ordered, fun o ho c hc m hm => ?_⟩
  · obtain ⟨n, hn⟩ := Generation.contains_iff.1 hk
    exact h.full k (Generation.contains_of_node? ((hnode k).symm.trans hn))
  · rw [Generation.operands_congr (hnode k)] at hq
    exact h.pruned i hi k hk q hq
  · rcases h.fed o ho c hc m hm with hall | ⟨hma, i, hi, k, e, q, hij, hje, hrest⟩
    · exact Or.inl hall
    · exact Or.inr ⟨hma, i, hi, k, e, q, hij, (hnode k).trans hje, hrest⟩

theorem Nested.dropMerged (h : Nested g gone all T d) (hg : g.Tame) {l : List NodeId}
    (hl : gone ++ l = all) {out : NodeId} {r : Unit} (hr : Runs (dropMerged out l) d r d') :
    Nested g all all T d' := by
  unfold Pass.dropMerged at hr
  dsimp only at hr
  split_ifs at hr
  · obtain ⟨_, d₁, habsorb, hr₁⟩ := runs_bind.1 hr
    unfold Draft.absorb at habsorb
    obtain ⟨p, d₀, hp, habsorb⟩ := runs_bind.1 habsorb
    rw [eq_of_runs_provenanceOf hp] at habsorb
    obtain rfl := runs_modify.1 habsorb
    exact (h.addProvenance out p).removeAll hg hl hr₁
  · exact h.removeAll hg hl hr

/-- One expression is flattened, or left alone. -/
theorem Nested.compress (h : Nested g gone gone T d) (hg : g.Tame)
    (hn : g.node? id = some (.expression e)) (hT : id ∉ T) {r : PUnit}
    (hr : Runs (compress id e) d r d') :
    ∃ gone' T', Nested g gone' gone' T' d' ∧ T' ⊆ T ∪ {id} := by
  rw [compress_eq, runs_get_bind, h.input] at hr
  dsimp only at hr
  split_ifs at hr with hskip hsame
  · obtain ⟨-, rfl⟩ := runs_pure.1 hr
    exact ⟨gone, T, h, Set.subset_union_left⟩
  · obtain ⟨-, rfl⟩ := runs_pure.1 hr
    exact ⟨gone, T, h, Set.subset_union_left⟩
  simp only [Bool.or_eq_true, Bool.not_eq_true', not_or, Bool.not_eq_false] at hskip
  obtain ⟨hop, hid⟩ := hskip
  obtain ⟨_, d₁, hedit, hr₁⟩ := runs_bind.1 hr
  obtain ⟨h₁, k, rfl⟩ := h.edit hg hn hT (Bool.eq_false_iff.2 hid) hop hsame hedit
  exact ⟨_, _, h₁.dropMerged hg rfl hr₁, le_refl _⟩

/-! Giving the merged nodes their values back. -/

section Values

variable {pre suf : List NodeId} {o : NodeId} {c : Expression}

/-- What comes after a merged node is another one. -/
theorem Layered.later (h : Layered g T all) (hall : pre ++ o :: suf = all) {q : NodeId}
    (hq : q ∈ suf) : isAbsorbed g q ∧ q ∉ pre ∧ q ≠ o := by
  obtain ⟨pre', t, ht⟩ := exists_prefix_of_mem hq
  obtain ⟨hqa, hqf, -⟩ := h (pre ++ o :: pre') q ⟨t, by rw [← hall, ← ht]; simp⟩
  simp only [List.mem_append, List.mem_cons, not_or] at hqf
  exact ⟨hqa, hqf.1, hqf.2.1⟩

/-- A merged operand of a merged node comes after it. -/
theorem Layered.operand_later (h : Layered g T all) (hg : g.Tame) (hall : pre ++ o :: suf = all)
    (hT : o ∉ T) {m : NodeId} (hm : m ∈ g.operands o) (hma : m ∈ all) : m ∈ suf := by
  have hfresh := (h pre o ⟨suf, by rw [← hall]; simp⟩).2.1
  obtain ⟨pre', hpre'⟩ := exists_prefix_of_mem hma
  have hom : o ∈ pre' :=
    ((h pre' m hpre').2.2 o ((hg.linked.users m o).2 hm)).resolve_left hT
  rw [← hall, List.append_cons pre o suf] at hpre'
  rcases prefix_append_cases hpre' with hpre'' | ⟨pre'', -, hpre''⟩
  · rcases List.prefix_concat_iff.1 hpre'' with heq | hpre''
    · obtain ⟨rfl, -⟩ := List.append_inj' heq rfl
      exact absurd hom hfresh
    · exact absurd (((List.prefix_append _ _).trans hpre'').subset hom) hfresh
  · exact hpre''.subset (by simp)

/-- Values for the merged nodes from the last one on, when the operands of each have values that its
operator takes. -/
theorem exists_values (hg : g.Tame) (hord : Layered g T all)
    (hT : ∀ i ∈ T, isAbsorbed g i = false)
    (hfed : ∀ o ∈ all, ∀ c, g.node? o = some (.expression c) → ∀ m ∈ c.operands, m ∈ all ∨
      ∃ xs x, Combines c.op xs x ∧ w m ∈ xs) (hall : pre ++ suf = all) :
    ∃ v : Valuation, (∀ i ∉ suf, v i = w i) ∧ HoldsAt g suf v := by
  induction suf generalizing pre with
  | nil => exact ⟨w, fun _ _ => rfl, by simp [HoldsAt]⟩
  | cons o suf ih =>
    obtain ⟨v, hoff, hv⟩ := ih (show (pre ++ [o]) ++ suf = all by simpa using hall)
    obtain ⟨habs, hfresh, husers⟩ := hord pre o ⟨suf, by rw [← hall]; simp⟩
    obtain ⟨p, e, c, -, -, hc⟩ := exists_of_isAbsorbed habs
    have hn := (absorbable?_eq_some.1 hc).1
    have hops := Generation.operands_of_node? hn
    have hoT : o ∉ T := fun ho => by
      rw [hT o ho] at habs
      cases habs
    obtain ⟨hf, hnu, -⟩ := flattens_of_isAbsorbed hg habs hn
    obtain ⟨β, tag, f, hfold⟩ := Folds.of_flattens hf hnu
    obtain ⟨z, hz⟩ : ∃ z, Combines c.op (c.operands.map v) z := hfold.exists_combines fun y hy => by
      obtain ⟨m, hm, rfl⟩ := List.mem_map.1 hy
      by_cases hms : m ∈ suf
      · -- a merged operand has the same operator
        obtain ⟨hma, -, -⟩ := hord.later hall hms
        obtain ⟨cm, hcm⟩ := absorbable_of_isAbsorbed hg.linked hn hm hma
        obtain ⟨hnm, hop, -⟩ := absorbable?_eq_some.1 hcm
        exact Or.inr ⟨_, hop ▸ (holds_iff_combines hg hma hnm).1 (hv m hms _ hnm)⟩
      · rw [hoff m hms]
        refine Or.inl ((hfed o (by rw [← hall]; simp) c hn m hm).resolve_left fun hma => ?_)
        exact hms (hord.operand_later hg hall hoT (hops ▸ hm) hma)
    -- nothing that has a value yet uses the node
    have hupd : ∀ i, i ≠ o → Function.update v o z i = v i := fun i hi =>
      Function.update_of_ne hi _ _
    have hread : ∀ q cq, g.node? q = some (.expression cq) → (q ∉ T ∧ q ∉ pre) →
        cq.operands.map (Function.update v o z) = cq.operands.map v := by
      refine fun q cq hnq ⟨hqT, hqpre⟩ => List.map_congr_left fun m hm => hupd m ?_
      rintro rfl
      rcases husers q ((hg.linked.users m q).2 (by rwa [Generation.operands_of_node? hnq])) with h | h
      · exact hqT h
      · exact hqpre h
    refine ⟨Function.update v o z, fun i hi => ?_, List.forall_mem_cons.2 ⟨fun n hn' => ?_,
      fun q hq n hn' => ?_⟩⟩
    · simp only [List.mem_cons, not_or] at hi
      rw [hupd i hi.1, hoff i hi.2]
    · rw [hn] at hn'
      cases hn'
      rw [holds_iff_combines hg habs hn, Function.update_self, hread o c hn ⟨hoT, hfresh⟩]
      exact hz
    · obtain ⟨hqa, hqpre, hqo⟩ := hord.later hall hq
      obtain ⟨_, _, cq, -, -, hcq⟩ := exists_of_isAbsorbed hqa
      have hnq := (absorbable?_eq_some.1 hcq).1
      rw [hnq] at hn'
      cases hn'
      have hqT : q ∉ T := fun hqT => by
        rw [hT q hqT] at hqa
        cases hqa
      rw [holds_iff_combines hg hqa hnq, hupd q hqo, hread q cq hnq ⟨hqT, hqpre⟩]
      exact (holds_iff_combines hg hqa hnq).1 (hv q hq _ hnq)

end Values

theorem nested_start (g : Generation Exact) (deduplicate : Bool) (journal : Journal) :
    Nested g [] [] ∅ (start g deduplicate journal) := by
  have hs : Simulates g ∅ ∅ (HoldsAt g []) ∅ (start g deduplicate journal) :=
    (simulates_start g deduplicate journal).strengthen fun _ _ => trivial
  have hempty : ({ o | o ∈ ([] : List NodeId) } : Set NodeId) = ∅ := by simp
  refine ⟨hempty ▸ hs, fun j hj => ?_, List.prefix_rfl, by simp, by simp, by simp [Layered], by simp⟩
  simp [start, Generation.contains, NodeMap.contains, Generation.empty] at hj

theorem refines_nesting (hg : g.Tame) {deduplicate : Bool} {journal journal' : Journal}
    {rev : Revision Exact} (h : nesting.apply deduplicate journal g = .ok (rev, journal')) :
    Refines g rev.generation rev.mapping := by
  obtain ⟨d, d', hr, hc⟩ := runs_of_apply h
  unfold nesting at hr
  dsimp only at hr
  have hstart := nested_start g deduplicate journal
  rw [runs_get_bind, hstart.input] at hr
  obtain ⟨gone, T, hd, -⟩ := runs_forM (P := fun done d => ∃ gone T, Nested g gone gone T d ∧
      ∀ i ∈ T, i ∈ done.map (·.1)) (fun done x rest hl d d' r ⟨gone, T, h, hT⟩ hr => by
    have hx : x.1 ∉ done.map (·.1) := by
      have hnd := Generation.nodup_expressions (g := g)
      rw [← hl, List.map_append, List.map_cons] at hnd
      exact fun hmem => (List.nodup_append.1 hnd).2.2 _ hmem _ (by simp) rfl
    obtain ⟨gone', T', h', hT'⟩ := h.compress hg (Generation.mem_expressions.1 (hl ▸ by simp))
      (fun hxT => hx (hT _ hxT)) hr
    refine ⟨gone', T', h', fun i hi => ?_⟩
    rcases hT' hi with hi | hi
    · simp only [List.map_append, List.mem_append]
      exact Or.inl (hT i hi)
    · simp [Set.mem_singleton_iff.1 hi]) (List.nil_append _) ⟨[], ∅, hstart, by simp⟩ hr
  obtain ⟨h', hext, hall, rfl⟩ := hd.toSimulates.close hg hc
  have hgone : ∀ o ∈ gone, ∃ c, g.node? o = some (.expression c) := fun o ho => by
    obtain ⟨_, _, c, -, -, hc⟩ := exists_of_isAbsorbed (hd.absorbed ho)
    exact ⟨c, (absorbable?_eq_some.1 hc).1⟩
  refine ⟨h'.tame, fun v hv => ?_, fun w hw => ?_, fun id p hn => ?_⟩
  · obtain ⟨w, hw⟩ := h'.forth v hv
    exact ⟨w, hw.output, hw.agrees⟩
  · obtain ⟨v, hoff, hv⟩ := exists_values hg (w := fun i => w (d'.out i)) hd.ordered
      (fun i hi => (hd.touched i hi).1) (fun o ho c hc m hm => by
        rcases hd.fed o ho c hc m hm with hall | ⟨-, i, -, j, e, k, -, hje, hop, hmk, hke⟩
        · exact Or.inl hall
        · obtain ⟨hf, hnu, -⟩ := flattens_of_isAbsorbed hg (hd.absorbed ho) hc
          have hkind := Folds.kind_of_flattens hf hnu
          have hdj := (hw j _ (hext.node? j _ hje)).1
          rw [hop, relaxed_of_combines hkind, Operator.denotes_iff_combines hkind,
            map_value_listed] at hdj
          refine Or.inr ⟨_, _, hdj, ?_⟩
          rw [out_of_get? (hext.mapping m k hmk)]
          exact List.mem_map_of_mem hke) (List.nil_append gone)
    have hag : d'.Agrees v w := fun i j hj => by
      rw [hoff i (h'.kept i j hj), out_of_get? hj]
    refine ⟨v, fun id n hn => ?_, hag⟩
    by_cases hid : id ∈ gone
    · exact hv id hid n hn
    · obtain ⟨k, hk⟩ := hall id (Generation.contains_of_node? hn) hid
      exact h'.back v w hw hag hv id k n hk hn
  · obtain ⟨j, hj⟩ := hall id (Generation.contains_of_node? hn) fun hid => by
      obtain ⟨c, hc⟩ := hgone id hid
      rw [hn] at hc
      cases hc
    obtain ⟨p', hp'⟩ := h'.parameters id j p hj hn
    exact ⟨j, p', hj, hp'⟩

end Pass

end ParameterSolver
