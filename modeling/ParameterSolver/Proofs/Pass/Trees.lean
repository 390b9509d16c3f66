import ParameterSolver.Proofs.Pass.Encodings

/-! What the pass over the operators makes of an expression over literals: a node that is the root of the
tree of its law. -/

namespace ParameterSolver

open Draft

/-- The operators whose laws build trees over the operands alone. -/
def Operator.encodes (op : Operator) : Bool :=
  op ∈ ([.and, .implies, .xor, .difference, .intersection] : List Operator)

namespace Interpretation

section Related

variable {α β γ : Type} {I : Interpretation α β} {J : Interpretation α γ} {R : β → γ → Prop}
  {op : Operator} {bs : List β} {cs : List γ} {b : β} {c : γ}

/-- Two interpretations are related on the operators of the basis that are of the kind of `op`. -/
def RelatedFor (I : Interpretation α β) (J : Interpretation α γ) (R : β → γ → Prop) (op : Operator) :
    Prop :=
  ∀ op' bs cs, op'.isCanonical → op'.has .logic = op.has .logic → op'.has .set = op.has .set →
    op'.arity.accepts bs.length → List.Forall₂ R bs cs → R (I.node op' bs) (J.node op' cs)

theorem RelatedFor.anyFalse (h : RelatedFor I J R .not) (hne : bs ≠ []) (hbs : List.Forall₂ R bs cs) :
    R (I.node .or (bs.map fun b => I.node .not [b])) (J.node .or (cs.map fun c => J.node .not [c])) := by
  have hpos : 1 ≤ bs.length := List.length_pos_of_ne_nil hne
  refine h .or _ _ rfl rfl rfl (by simpa [Operator.arity, Arity.accepts] using hpos) ?_
  rw [List.forall₂_map_left_iff, List.forall₂_map_right_iff]
  exact hbs.imp fun b c hbc => h .not _ _ rfl rfl rfl rfl (.cons hbc .nil)

theorem RelatedFor.meet (h : RelatedFor I J R .union) {b' : β} {c' : γ} (hb : R b c) (hb' : R b' c') :
    R (I.meet b b') (J.meet c c') := by
  have hpair : List.Forall₂ R [b, b'] [c, c'] := .cons hb (.cons hb' .nil)
  exact h .symmetricDifference _ _ rfl rfl rfl rfl
    (.cons (h .union _ _ rfl rfl rfl rfl hpair)
      (.cons (h .symmetricDifference _ _ rfl rfl rfl rfl hpair) .nil))

theorem RelatedFor.foldl_meet (h : RelatedFor I J R .union) (hb : R b c) (hbs : List.Forall₂ R bs cs) :
    R (bs.foldl I.meet b) (cs.foldl J.meet c) := by
  induction hbs generalizing b c with
  | nil => exact hb
  | cons hb' _ ih => exact ih (h.meet hb hb')

/-- So are the formulas that laws are about. -/
theorem encoded_related (h : RelatedFor I J R op) (hop : op.encodes) (harity : op.arity.accepts bs.length)
    (hbs : List.Forall₂ R bs cs) : R (I.encoded op bs) (J.encoded op cs) := by
  cases op
  case and =>
    have hne : bs ≠ [] := List.ne_nil_of_length_pos (of_decide_eq_true harity)
    exact h .not _ _ rfl rfl rfl rfl (.cons (RelatedFor.anyFalse h hne hbs) .nil)
  case implies =>
    cases hbs with
    | nil => cases harity
    | cons hb hrest =>
      refine h .or _ _ rfl rfl rfl ?_ (.cons (h .not _ _ rfl rfl rfl rfl (.cons hb .nil)) hrest)
      simp [Operator.arity, Arity.accepts]
  case xor =>
    have hlen : 2 ≤ bs.length := of_decide_eq_true harity
    have hne : bs ≠ [] := List.ne_nil_of_length_pos (by omega)
    have hany : R (I.node .or bs) (J.node .or cs) := by
      refine h .or _ _ rfl rfl rfl ?_ hbs
      simp only [Operator.arity, Arity.accepts, decide_eq_true_eq]
      omega
    refine h .not _ _ rfl rfl rfl rfl (.cons (h .or _ _ rfl rfl rfl rfl (.cons ?_ (.cons ?_ .nil))) .nil)
    · exact h .not _ _ rfl rfl rfl rfl (.cons hany .nil)
    · exact h .not _ _ rfl rfl rfl rfl (.cons (RelatedFor.anyFalse h hne hbs) .nil)
  case difference =>
    cases hbs with
    | nil => cases harity
    | cons hb hrest =>
      refine h .symmetricDifference _ _ rfl rfl rfl rfl (.cons ?_ (.cons ?_ .nil))
      · exact h .union _ _ rfl rfl rfl (by simp [Operator.arity, Arity.accepts]) (.cons hb hrest)
      · refine h .union _ _ rfl rfl rfl ?_ hrest
        simpa [Operator.arity, Arity.accepts] using harity
  case intersection =>
    cases hbs with
    | nil => cases harity
    | cons hb hrest => exact RelatedFor.foldl_meet h hb hrest
  all_goals cases hop

end Related

end Interpretation

namespace Pass

variable {α β : Type} [Scalar α] {g : Generation α} {I : Interpretation α β} {d d' : Draft α}
  {id j : NodeId} {e : Expression} {bs : List β} {b : β} {D : NodeId → Prop} {deduplicate : Bool}
  {journal journal' : Journal} {rev : Revision α}

theorem plants_applyLaw (hg : g.Sound) (hd : Pending g id d)
    (hn : g.node? id = some (.expression e)) (hop : e.op.encodes)
    (hops : List.Forall₂ (g.Says I) e.operands bs) :
    Plants g id I .plain (applyLaw id e) d (I.encoded e.op bs) := by
  have hac := hg.acyclic
  have hmem : ∀ o ∈ e.operands, o ∈ g.operands id := fun o ho => by
    rwa [Generation.operands_of_node? hn]
  obtain ⟨op, operands, asserted⟩ := e
  have harity : op.arity.accepts operands.length := (hg.node hn).arity _ rfl
  cases op
  case and => exact plants_and hac hd hops hmem hn
  case implies =>
    obtain ⟨first, rest, rfl⟩ := Arity.eq_cons harity
    exact plants_implies hac hd hops hmem (by simp) hn
  case xor => exact plants_xor hac hd hops hmem hn
  case difference =>
    obtain ⟨first, a, rest, rfl⟩ := Arity.eq_cons_cons harity
    cases hops with
    | cons hb hrest => exact plants_difference hac hd hn (.cons hb hrest) hmem trivial trivial trivial
  case intersection =>
    obtain ⟨first, a, rest, rfl⟩ := Arity.eq_cons_cons harity
    cases hops with
    | cons hb hrest =>
      have hfirst : (Operand.input first : Operand α).Gives g I .plain id d _ :=
        ⟨hmem first (by simp), hb⟩
      exact plants_meet (J := fun _ _ => True) hac hd hn rfl hfirst hrest
        (fun o ho => hmem o (.tail _ ho)) (by simp) (fun _ _ _ _ => ⟨trivial, trivial, trivial, trivial⟩) trivial
  all_goals cases hop

theorem sprout_of_sown {n : Node α} (h : Sown g I .plain d n) : Sprout n := by
  rcases h with ⟨_, rfl, x, rfl⟩ | ⟨e, bs, rfl, hop, hasserted, -⟩
  · exact Or.inl ⟨x, rfl⟩
  · exact Or.inr (Or.inr ⟨e, rfl, hop, by simp [hasserted]⟩)

theorem builds_lawful {a : Act α} (h : a.Builds g id (Sown g I .plain) d) : a.Lawful g D d := by
  cases a with
  | create i n => exact sprout_of_sown h.2
  | write i n | erase i | redirect i t => exact h.elim
  | _ => trivial

theorem grounded_of_lawful (h : Moves (Act.Lawful g D) (start g deduplicate journal) d) :
    d.Grounded g := by
  intro o s u j ho hj
  have hd := h.coherent (coherent_start g deduplicate journal)
  obtain ⟨n, hn⟩ := Generation.contains_iff.1 (hd.mapped o j hj).2
  rcases shaped_of_lawful h j n hn with ⟨i, m, hi, hm, hsame⟩ | ⟨hfree, -⟩
  · obtain rfl := hd.injective o i j hj hi
    rw [h.input] at hm
    cases ho.symm.trans hm
    rcases hsame with hsame | ⟨e, he, -⟩
    · rw [hn, Node.eq_of_skeleton_eq_leaf hsame rfl]
    · cases ho.symm.trans he
  · exact absurd hj (hfree o)

omit [Scalar α] in
theorem not_tainted_of_literals (hops : List.Forall₂ (g.Says I) e.operands bs) {o : NodeId}
    (ho : o ∈ e.operands) : ¬ g.Tainted o := by
  obtain ⟨b, -, s, u, hs, -⟩ := exists_of_forall₂ hops ho
  exact Generation.not_tainted_of_leaf hs rfl

omit [Scalar α] in
/-- An expression over literals whose operator has a law. -/
structure Rewritable (g : Generation α) (I : Interpretation α β) (id : NodeId) (e : Expression)
    (bs : List β) : Prop where
  node? : g.node? id = some (.expression e)
  foreign : e.op.isCanonical = false
  supported : e.op ≠ .cardinality ∧ e.op ≠ .differentiate ∧ e.op ≠ .integrate
  operands : List.Forall₂ (g.Says I) e.operands bs

omit [Scalar α] in
theorem Rewritable.not_tainted (h : Rewritable g I id e bs) : ¬ g.Tainted id :=
  Generation.not_tainted_of_operands h.node? (by rintro _ ⟨⟩; exact h.supported) fun _ ho =>
    not_tainted_of_literals h.operands ho

/-- The turn of the expression. -/
theorem yields_of_canonize (hr : Rewritable g I id e bs)
    (hplants : ∀ d, Pending g id d → Plants g id I .plain (applyLaw id e) d b)
    (h : Moves (Act.Lawful g D) (start g deduplicate journal) d) (hintact : Intact id d)
    (hruns : Runs (canonize id e) d ⟨⟩ d') :
    ∃ j, d'.mapping.get? id = some j ∧ d'.Yields g I {id} j b := by
  have hn := hr.node?
  have hops := hr.operands
  have hd := h.coherent (coherent_start g deduplicate journal)
  have hthere : d.isRemoved id = false := Bool.eq_false_iff.2 fun hremoved =>
    hr.not_tainted ((shaded_of_lawful h).removed id hremoved)
  have hpending := pending_of_intact hd h.input hn hthere hintact
  unfold canonize at hruns
  rw [runs_get_bind, if_neg (by simp [hr.foreign, hthere])] at hruns
  obtain ⟨r, d₂, hlaw, hr₂⟩ := runs_bind.1 hruns
  obtain ⟨d₁, hmoves, hend⟩ := hplants d hpending r d₂ hlaw
  have hall : Moves (Act.Lawful g fun _ => True) (start g deduplicate journal) d₁ :=
    (h.mono fun _ _ ha => ha.mono fun _ _ => trivial).trans
      (hmoves.mono fun _ _ ha => builds_lawful ha)
  have hd₁ := hmoves.coherent hd
  rcases hend with ⟨o, ho, hgone⟩ | ⟨rfl, e', bs', j, hmove, hj, hnode, htrees, -, hb⟩
  · rw [Generation.operands_of_node? hn] at ho
    exact absurd ((shaded_of_lawful hall).removed o hgone) (not_tainted_of_literals hops ho)
  · obtain ⟨-, rfl⟩ := runs_pure.1 hr₂
    have hd₂ := hd₁.move hmove
    have hspare : (Act.write id (.expression e') : Act α).Spare g ∅ := ⟨by simp, e, hn⟩
    have htrees' : List.Forall₂ (d'.Yields g I {id}) e'.operands bs' := htrees.imp fun _ _ htree =>
      (htree.move hd₁ (grounded_of_lawful hall) hspare hmove).mono (Set.empty_subset _)
    exact ⟨j, hj, hb ▸ Yields.of_forall₂ hnode (fun i hi => hd₂.injective i id j hi hj) htrees'⟩

/-- The other turns, and closing. -/
theorem yields_of_lawful (h : Moves (Act.Lawful g D) (start g deduplicate journal) d)
    (hmoves : Moves (Act.Lawful g fun i => i ≠ id ∧ ∃ e, g.node? i = some (.expression e)) d d')
    (hj : d.mapping.get? id = some j) (htree : d.Yields g I {id} j b) :
    d'.mapping.get? id = some j ∧ d'.Yields g I {id} j b := by
  have hstart := coherent_start g deduplicate journal
  have hspare : ∀ {d : Draft α} {a : Act α},
      a.Lawful g (fun i => i ≠ id ∧ ∃ e, g.node? i = some (.expression e)) d → a.Spare g {id} := by
    intro d a ha
    cases a with
    | write i n | erase i | redirect i t => exact ha.1
    | _ => trivial
  induction hmoves with
  | refl => exact ⟨hj, htree⟩
  | @tail d₁ d₂ hprefix hlast ih =>
    obtain ⟨a, ha, hmove⟩ := hlast
    obtain ⟨hj₁, htree₁⟩ := ih
    have hall : Moves (Act.Lawful g fun _ => True) (start g deduplicate journal) d₁ :=
      (h.mono fun _ _ ha => ha.mono fun _ _ => trivial).trans
        (Moves.mono hprefix fun _ _ ha => ha.mono fun _ _ => trivial)
    have hd₁ := hall.coherent hstart
    have hground := grounded_of_lawful hall
    exact ⟨htree₁.mapping_move hd₁ hground (hspare ha) hmove hj₁,
      htree₁.move hd₁ hground (hspare ha) hmove⟩

/-- The pass puts the root of the tree in the place of the expression, whatever else the graph holds. -/
theorem exists_means_of_plants (hg : g.Sound) (hrewritable : Rewritable g I id e bs)
    (hplants : ∀ d, Pending g id d → Plants g id I .plain (applyLaw id e) d b)
    (h : (operators : Pass α).apply deduplicate journal g = .ok (rev, journal')) :
    ∃ j, rev.mapping.get? id = some j ∧ rev.generation.Means I j b := by
  have hstart := coherent_start g deduplicate journal
  obtain ⟨d₁, d₂, hr, hclose⟩ := Pass.runs_of_apply h
  obtain ⟨hmoves, hvisited⟩ := runs_forM (l := g.expressions) (d := start g deduplicate journal)
    (P := fun done d => Moves (Act.Lawful g (· ∈ done.map (·.1))) (start g deduplicate journal) d ∧
      ((id, e) ∈ done → ∃ j, d.mapping.get? id = some j ∧ d.Yields g I {id} j b))
    (fun done x rest hl d d' _ ⟨hmoves, hvisited⟩ hr => by
      obtain ⟨hnew, hintact, hturn, -⟩ := lawful_turn hg hl hmoves hr
      refine ⟨lawful_append hmoves hturn, fun hmem => ?_⟩
      have hx : g.node? x.1 = some (.expression x.2) := Generation.mem_expressions.1 (hl ▸ by simp)
      rcases List.mem_append.1 hmem with hmem | hmem
      · obtain ⟨j, hj, htree⟩ := hvisited hmem
        have hne : x.1 ≠ id := by
          rintro rfl
          exact hnew (List.mem_map.2 ⟨_, hmem, rfl⟩)
        refine ⟨j, yields_of_lawful hmoves (hturn.mono fun _ _ ha => ha.mono ?_) hj htree⟩
        rintro _ rfl
        exact ⟨hne, _, hx⟩
      · obtain rfl := List.mem_singleton.1 hmem
        exact yields_of_canonize hrewritable hplants hmoves hintact hr)
    (List.nil_append _) ⟨.refl _, by simp⟩ (runs_get_bind.1 hr)
  obtain ⟨j, hj, htree⟩ := hvisited (Generation.mem_expressions.2 hrewritable.node?)
  obtain ⟨hcopies, -, rfl⟩ := moves_close hg.acyclic (hmoves.coherent hstart) hmoves.input hclose
  have hlawful : Moves (Act.Lawful g fun i => i ≠ id ∧ ∃ e, g.node? i = some (.expression e)) d₁ d₂ := by
    refine hcopies.mono fun _ a ha => ?_
    obtain ⟨i, rfl | rfl⟩ := ha <;> trivial
  obtain ⟨hj', htree'⟩ := yields_of_lawful hmoves hlawful hj htree
  have hall : Moves (Act.Lawful g fun _ => True) (start g deduplicate journal) d₂ :=
    (hmoves.mono fun _ _ ha => ha.mono fun _ _ => trivial).trans
      (hlawful.mono fun _ _ ha => ha.mono fun _ _ => trivial)
  exact ⟨j, hj', htree'.means (grounded_of_lawful hall)⟩

/-- So it does for the trees over the operands alone. -/
theorem exists_means (hg : g.Sound) (hn : g.node? id = some (.expression e)) (hop : e.op.encodes)
    (hops : List.Forall₂ (g.Says I) e.operands bs)
    (h : (operators : Pass α).apply deduplicate journal g = .ok (rev, journal')) :
    ∃ j, rev.mapping.get? id = some j ∧ rev.generation.Means I j (I.encoded e.op bs) := by
  have hlaw : e.op.isCanonical = false ∧
      e.op ≠ .cardinality ∧ e.op ≠ .differentiate ∧ e.op ≠ .integrate := by
    revert hop
    cases e.op <;> decide
  exact exists_means_of_plants hg ⟨hn, hlaw.1, hlaw.2, hops⟩
    (fun d hd => plants_applyLaw hg hd hn hop hops) h

end Pass

end ParameterSolver
