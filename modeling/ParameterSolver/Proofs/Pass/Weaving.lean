import ParameterSolver.Proofs.Pass.Renditions
import ParameterSolver.Proofs.Solve.Courses

/-! The graph that the pass over the operators makes of one difference or intersection of literals. All
its expressions are nodes of the tree of the law. A node of the tree that evaluation leaves without
elements leaves the root without any, and what a union lists is a literal or a symmetric difference. -/

namespace ParameterSolver

open Draft

variable {α β : Type} [Scalar α] {g : Generation α} {I : Interpretation α β}
  {V : Operator → List β → Prop} {d d' : Draft α} {id : NodeId} {e : Expression} {bs : List β} {b : β}
  {deduplicate : Bool} {journal journal' : Journal} {rev : Revision α} {a : Act α}

/-- What puts a tree in the place of the expression at `id`. -/
def Act.Grafts (g : Generation α) (id : NodeId) (I : Interpretation α β) (V : Operator → List β → Prop)
    (d : Draft α) : Act α → Prop
  | .copy _ | .drop _ | .note _ | .credit .. => True
  | .create _ n => Sown g I (.only V) d n
  | .write i n => i = id ∧ ∃ e, n = .expression e
  | .erase _ | .redirect .. => False

omit [Scalar α] in
theorem Act.Builds.grafts (h : a.Builds g id (Sown g I (.only V)) d) : a.Grafts g id I V d := by
  cases a with
  | create i n => exact h.2
  | write i n | erase i | redirect i t => exact h.elim
  | _ => trivial

omit [Scalar α] in
theorem Act.Grafts.spare (h : a.Grafts g id I V d) (hn : g.node? id = some (.expression e)) :
    a.Spare g ∅ := by
  cases a with
  | write i n =>
    obtain ⟨rfl, -⟩ := h
    exact ⟨Set.notMem_empty i, e, hn⟩
  | erase i | redirect i t => exact h.elim
  | _ => trivial

namespace Draft

/-- Whatever was created is an expression over trees, of whose operator and operands `V` holds. -/
def Sowed (g : Generation α) (I : Interpretation α β) (V : Operator → List β → Prop) (d : Draft α) :
    Prop :=
  ∀ c e, d.Unbound c → d.output.node? c = some (.expression e) →
    ∃ bs, List.Forall₂ (d.Yields g I ∅) e.operands bs ∧ V e.op bs

omit [Scalar α] in
theorem Sowed.move (h : d.Sowed g I V) (hd : d.Coherent) (hground : d.Grounded g)
    (hn : g.node? id = some (.expression e)) (ha : a.Grafts g id I V d) (hm : Move a d d') :
    d'.Sowed g I V := by
  intro c e' hfree hc
  have hkeep : ∀ {js : List NodeId} {bs : List β}, List.Forall₂ (d.Yields g I ∅) js bs →
      List.Forall₂ (d'.Yields g I ∅) js bs := fun h =>
    h.imp fun _ _ htree => htree.move hd hground (ha.spare hn) hm
  have herase : ∀ i, a ≠ .erase i := by rintro i rfl; exact ha
  have hredirect : ∀ i t, a ≠ .redirect i t := by rintro i t rfl; exact ha
  rcases hm.unbound_cases herase hredirect hfree hc with ⟨hfree', hc'⟩ | ⟨i, rfl⟩
  · obtain ⟨bs, hbs, hV⟩ := h c e' hfree' hc'
    exact ⟨bs, hkeep hbs, hV⟩
  · rcases ha with ⟨s, heq, -⟩ | ⟨e₀, bs, heq, -, -, hbs, hV⟩ <;> cases heq
    exact ⟨bs, hkeep hbs, hV⟩

end Draft

omit [Scalar α] in
/-- A node is a copy, the image of the expression, or was created. -/
theorem shaped_of_grafts (h : Moves (Act.Grafts g id I V) (start g deduplicate journal) d) :
    Shaped (fun i n => i = id ∧ ∃ e, n = .expression e) (fun n => ∃ e, n = .expression e) d := by
  refine h.shaped (fun d a ha => ?_) (coherent_start g deduplicate journal) (shaped_start _ _)
  cases a with
  | create i n =>
    rcases ha with ⟨s, -, hs⟩ | ⟨e, -, rfl, -⟩
    · exact hs.elim
    · exact ⟨_, rfl⟩
  | write i n =>
    obtain ⟨rfl, e, rfl⟩ := ha
    exact ⟨rfl, _, rfl⟩
  | erase i | redirect i t => exact ha.elim
  | _ => trivial

namespace Pass

section Grafts

variable (hn : g.node? id = some (.expression e))
  (h : Moves (Act.Grafts g id I V) (start g deduplicate journal) d)

include hn h

omit [Scalar α]

theorem grounded_of_grafts : d.Grounded g := by
  intro o s u j ho hj
  have hd := h.coherent (coherent_start g deduplicate journal)
  obtain ⟨n, hnode⟩ := Generation.contains_iff.1 (hd.mapped o j hj).2
  rcases shaped_of_grafts h j n hnode with ⟨i, m, hi, hm, hsame⟩ | ⟨hfree, -⟩
  · obtain rfl := hd.injective o i j hj hi
    rw [h.input] at hm
    cases ho.symm.trans hm
    rcases hsame with hsame | ⟨rfl, -⟩
    · rw [hnode, Node.eq_of_skeleton_eq_leaf hsame rfl]
    · cases hn.symm.trans ho
  · exact absurd hj (hfree o)

theorem sowed_of_grafts : d.Sowed g I V := by
  induction h with
  | refl =>
    intro c e' _ hc
    simp [start, Generation.node?, Generation.get?, Generation.empty] at hc
  | @tail d₁ d₂ hprefix hlast ih =>
    obtain ⟨a, ha, hmove⟩ := hlast
    have hd₁ := Moves.coherent hprefix (coherent_start g deduplicate journal)
    exact ih.move hd₁ (grounded_of_grafts hn hprefix) hn ha hmove

/-- What is there of a tree stays. -/
theorem yields_of_grafts (hmoves : Moves (Act.Grafts g id I V) d d') {j : NodeId}
    (htree : d.Yields g I ∅ j b) : d'.Yields g I ∅ j b := by
  induction hmoves with
  | refl => exact htree
  | @tail d₁ d₂ hprefix hlast ih =>
    obtain ⟨a, ha, hmove⟩ := hlast
    have hall : Moves (Act.Grafts g id I V) (start g deduplicate journal) d₁ := h.trans hprefix
    have hd₁ := hall.coherent (coherent_start g deduplicate journal)
    exact ih.move hd₁ (grounded_of_grafts hn hall) (ha.spare hn) hmove

end Grafts

omit [Scalar α] in
theorem expressions_eq_singleton (hn : g.node? id = some (.expression e))
    (halone : ∀ i e', g.node? i = some (.expression e') → i = id) : g.expressions = [(id, e)] := by
  have hall : ∀ x ∈ g.expressions, x = (id, e) := by
    rintro ⟨i, e'⟩ hx
    have he' := Generation.mem_expressions.1 hx
    obtain rfl := halone i e' he'
    cases hn.symm.trans he'
    rfl
  have hmem : (id, e) ∈ g.expressions := Generation.mem_expressions.2 hn
  have hnodup : g.expressions.Nodup := .of_map _ Generation.nodup_expressions
  revert hall hmem hnodup
  generalize g.expressions = l
  intro hall hmem hnodup
  rw [List.eq_replicate_iff.2 ⟨rfl, hall⟩] at hmem hnodup ⊢
  rw [List.nodup_replicate] at hnodup
  have hpos := List.length_pos_of_mem hmem
  rw [List.length_replicate] at hpos
  rw [show l.length = 1 by omega]
  rfl

/-- The turn of the expression, if it is the only one. -/
theorem grafts_canonize (hn : g.node? id = some (.expression e)) (hop : e.op.encodes)
    (hplants : ∀ d, Pending g id d → Plants g id I (.only V) (applyLaw id e) d b)
    (hr : Runs (canonize id e) (start g deduplicate journal) ⟨⟩ d') :
    Moves (Act.Grafts g id I V) (start g deduplicate journal) d' ∧ ∃ e' bs' j,
      d'.mapping.get? id = some j ∧ d'.output.node? j = some (.expression e') ∧
      List.Forall₂ (d'.Yields g I ∅) e'.operands bs' ∧ V e'.op bs' := by
  have hstart := coherent_start g deduplicate journal
  have hkept := kept_start g deduplicate journal
  have hforeign : e.op.isCanonical = false := by
    revert hop
    cases e.op <;> decide
  have hpending : Pending g id (start g deduplicate journal) :=
    pending_of_intact hstart rfl hn (hkept id) fun j hj => by simp [start] at hj
  unfold canonize at hr
  rw [runs_get_bind, if_neg (by simp [hforeign, hkept])] at hr
  obtain ⟨r, d₂, hlaw, hr₂⟩ := runs_bind.1 hr
  obtain ⟨d₁, hmoves, hend⟩ := hplants _ hpending r d₂ hlaw
  have hbuilt : Moves (Act.Grafts g id I V) (start g deduplicate journal) d₁ :=
    hmoves.mono fun _ _ ha => ha.grafts
  rcases hend with ⟨o, -, hgone⟩ | ⟨rfl, e', bs', j, hmove, hj, hnode, htrees, hV, -⟩
  · have hkept₁ : ∀ i, d₁.isRemoved i = false :=
      (hbuilt.invariant (I := fun d => ∀ i, d.isRemoved i = false) hstart hkept
        fun _ a _ _ ha hmove hk => hmove.kept (by rintro i rfl; exact ha) hk).1
    rw [hkept₁] at hgone
    cases hgone
  · obtain ⟨-, rfl⟩ := runs_pure.1 hr₂
    have hwrite : Moves (Act.Grafts g id I V) d₁ d' :=
      .single (a := .write id (.expression e')) ⟨rfl, e', rfl⟩ hmove
    refine ⟨hbuilt.trans hwrite, e', bs', j, hj, hnode, htrees.imp fun _ _ htree => ?_, hV⟩
    exact yields_of_grafts hn hbuilt hwrite htree

/-- All that the pass leaves of a graph with one expression: leaves of the graph, and expressions of whose
operators and operands `V` holds. -/
theorem exists_sown (hg : g.Acyclic) (hn : g.node? id = some (.expression e)) (hop : e.op.encodes)
    (halone : ∀ i e', g.node? i = some (.expression e') → i = id)
    (hplants : ∀ d, Pending g id d → Plants g id I (.only V) (applyLaw id e) d b)
    (h : (operators : Pass α).apply deduplicate journal g = .ok (rev, journal')) {j : NodeId}
    {n : Node α} (hj : rev.generation.node? j = some n) :
    (∃ o, g.node? o = some n ∧ n.expression? = none) ∨
      ∃ e' bs', n = .expression e' ∧ List.Forall₂ (rev.generation.Means I) e'.operands bs' ∧
        V e'.op bs' := by
  obtain ⟨d₁, d₂, hr, hclose⟩ := Pass.runs_of_apply h
  have hrun := runs_get_bind.1 hr
  change Runs (g.expressions.forM fun x => canonize x.1 x.2) _ _ _ at hrun
  rw [expressions_eq_singleton hn halone] at hrun
  obtain ⟨_, d₁', hturn, hend⟩ := runs_bind.1 hrun
  obtain ⟨-, rfl⟩ := runs_pure.1 hend
  obtain ⟨hgrafts, e', bs', root, hroot, hnode, htrees, hV⟩ := grafts_canonize hn hop hplants hturn
  obtain ⟨hcopies, -, rfl⟩ := moves_close hg (hgrafts.coherent (coherent_start g deduplicate journal))
    hgrafts.input hclose
  have hret := hcopies.retains fun _ a ha => by
    obtain ⟨i, rfl | rfl⟩ := ha <;> trivial
  have hclosing : Moves (Act.Grafts g id I V) d₁ d₂ := hcopies.mono fun _ a ha => by
    obtain ⟨i, rfl | rfl⟩ := ha <;> trivial
  have hall := hgrafts.trans hclosing
  have hd₂ := hall.coherent (coherent_start g deduplicate journal)
  have hmeans : ∀ {js : List NodeId} {bs : List β}, List.Forall₂ (d₂.Yields g I ∅) js bs →
      List.Forall₂ (d₂.output.Means I) js bs := fun htrees =>
    htrees.imp fun _ _ htree => htree.means (grounded_of_grafts hn hall)
  rcases shaped_of_grafts hall j n hj with ⟨i, m, hi, hm, hsame⟩ | ⟨hfree, e₀, he₀⟩
  · rw [hall.input] at hm
    by_cases hid : i = id
    · subst hid
      cases hi.symm.trans (hret.mapping i root hroot)
      cases hj.symm.trans (hret.node? _ _ hnode)
      exact .inr ⟨e', bs', rfl,
        hmeans (htrees.imp fun _ _ htree => yields_of_grafts hn hgrafts hclosing htree), hV⟩
    · have hleaf : m.expression? = none := by
        cases m with
        | expression e₀ => exact absurd (halone i e₀ hm) hid
        | _ => rfl
      rcases hsame with hsame | ⟨heq, -⟩
      · obtain rfl := Node.eq_of_skeleton_eq_leaf hsame hleaf
        exact .inl ⟨i, hm, hleaf⟩
      · exact absurd heq hid
  · cases n with
    | expression e₁ =>
      obtain ⟨bs₁, htrees₁, hV₁⟩ := sowed_of_grafts hn hall j e₁ hfree hj
      exact .inr ⟨e₁, bs₁, rfl, hmeans htrees₁, hV₁⟩
    | _ => cases he₀

end Pass

/-! The trees of the laws of sets. -/

namespace Interpretation

/-- What evaluation makes of a node, and whether it is a union. -/
def shapes [Scalar.Reading α] : Interpretation α (Set (Value ℝ) × Bool) :=
  ⟨fun s => (s.points, false), fun op bs => (op.onFed (bs.map Prod.fst), op == .union)⟩

variable [Scalar.Reading α]

theorem fst_meet (b c : Set (Value ℝ) × Bool) :
    ((shapes (α := α)).meet b c).1 = (extents (α := α)).meet b.1 c.1 := rfl

theorem fst_foldl_meet (bs : List (Set (Value ℝ) × Bool)) (b : Set (Value ℝ) × Bool) :
    (bs.foldl (shapes (α := α)).meet b).1 = (bs.map Prod.fst).foldl (extents (α := α)).meet b.1 := by
  induction bs generalizing b with
  | nil => rfl
  | cons c bs ih =>
    rw [List.foldl_cons, ih, fst_meet]
    rfl

/-- An expression of the tree: if it has no elements then `E`, and it is no union of unions. -/
structure Strand (E : Prop) (op : Operator) (bs : List (Set (Value ℝ) × Bool)) : Prop where
  set : Propagation.keepsExactness op
  empty : op.onFed (bs.map Prod.fst) = ∅ → E
  flat : op = .union → ∀ b ∈ bs, b.2 = false

end Interpretation

namespace Pass

open Interpretation

variable [Scalar.Reading α] {bs : List (Set (Value ℝ) × Bool)} {b : Set (Value ℝ) × Bool}

theorem plants_strands (hg : g.Acyclic) (hd : Pending g id d) (hn : g.node? id = some (.expression e))
    (hop : e.op = .intersection ∨ e.op = .difference) (harity : e.op.arity.accepts e.operands.length)
    (hops : List.Forall₂ (g.Says .shapes) e.operands bs) (hfed : ∀ b ∈ bs, b.1 ≠ ∅ ∧ b.2 = false) :
    Plants g id (shapes (α := α)) (.only (Strand (((shapes (α := α)).encoded e.op bs).1 = ∅)))
      (applyLaw id e) d ((shapes (α := α)).encoded e.op bs) := by
  have hmem : ∀ o ∈ e.operands, o ∈ g.operands id := fun o ho => by
    rwa [Generation.operands_of_node? hn]
  have hunion : ∀ {E : Prop} {l}, l ≠ [] → (∀ b ∈ l, b.1 ≠ ∅ ∧ b.2 = false) → Strand E .union l := by
    intro E l hne hl
    refine ⟨rfl, fun hempty => ?_, fun _ b hb => (hl b hb).2⟩
    have hnot : ∅ ∉ l.map Prod.fst := by
      intro hmem
      obtain ⟨c, hc, hempty⟩ := List.mem_map.1 hmem
      exact (hl c hc).1 hempty
    rw [Operator.onFed_of_notMem hnot] at hempty
    exact absurd hempty (Operator.overSets_union_ne_empty (by simpa using hne) hnot)
  obtain ⟨op, operands, asserted⟩ := e
  rcases hop with hop | hop <;> subst hop
  · obtain ⟨first, a, rest, rfl⟩ := Arity.eq_cons_cons harity
    cases hops with
    | @cons _ b _ bs hb hrest =>
      obtain ⟨hfirst, hfed'⟩ := List.forall_mem_cons.1 hfed
      set E : Prop := ((shapes (α := α)).encoded .intersection (b :: bs)).1 = ∅ with hE
      refine plants_meet (J := fun b bs => b.2 = false ∧ (∀ c ∈ bs, c.1 ≠ ∅ ∧ c.2 = false) ∧
        ((bs.foldl (shapes (α := α)).meet b).1 = ∅ → E)) hg hd hn rfl ⟨hmem first (by simp), hb⟩ hrest
        (fun o ho => hmem o (.tail _ ho)) (by simp) ?_ ⟨hfirst.2, hfed', fun hempty => hempty⟩
      rintro b c bs ⟨hb, hbs, hE⟩
      obtain ⟨hc, hbs'⟩ := List.forall_mem_cons.1 hbs
      -- if the intersection of the two has no elements, then neither has what comes of it
      have hnone : ((shapes (α := α)).meet b c).1 = ∅ → E := by
        intro hempty
        refine hE ?_
        rw [List.foldl_cons, fst_foldl_meet, hempty, foldl_meet_empty]
      refine ⟨⟨rfl, fun hempty => hnone (Operator.onFed_of_mem ?_), fun _ => ?_⟩,
        ⟨rfl, fun hempty => hnone (Operator.onFed_of_mem ?_), nofun⟩, ⟨rfl, hnone, nofun⟩, rfl, hbs', hE⟩
      · exact List.mem_cons.2 (.inl hempty.symm)
      · simp [hb, hc.2]
      · exact .tail _ (List.mem_singleton.2 hempty.symm)
  · obtain ⟨first, a, rest, rfl⟩ := Arity.eq_cons_cons harity
    cases hops with
    | @cons _ b _ bs hb hrest =>
      have hne : bs ≠ [] := by
        rintro rfl
        cases hrest
      exact plants_difference hg hd hn (.cons hb hrest) hmem (hunion (by simp) hfed)
        (hunion hne fun c hc => hfed c (.tail _ hc)) ⟨rfl, fun hempty => hempty, nofun⟩

/-- What evaluation makes of a node that has a shape. -/
theorem means_of_shapes {g : Generation α} {j : NodeId} (h : g.Means .shapes j b) :
    g.Means .extents j b.1 := h.map (fun _ => rfl) fun _ _ => rfl

theorem fst_encoded {op : Operator} (hop : op.encodes) (harity : op.arity.accepts bs.length) :
    ((shapes (α := α)).encoded op bs).1 = (extents (α := α)).encoded op (bs.map Prod.fst) := by
  refine encoded_related (R := fun b c => b.1 = c) (fun op' bs cs _ _ _ _ h => ?_) hop harity ?_
  · have hcs : cs = bs.map Prod.fst := by
      rw [← List.forall₂_eq_eq_eq, List.forall₂_map_right_iff]
      exact h.flip.imp fun _ _ heq => heq.symm
    subst hcs
    rfl
  · rw [List.forall₂_map_right_iff, List.forall₂_same]
    exact fun _ _ => rfl

variable [Scalar.Ordered α] {k : Family} {op : Operator} {ps : List (Set (Value ℝ))}

omit [Scalar.Ordered α] [Scalar.Reading α] in
theorem assertable_of_setDesign (hg : g.SetDesign k) : g.All Node.Assertable := by
  intro i n hn e' he' hasserted
  cases n with
  | expression e =>
    cases he'
    have hnone : e.asserted = false := (hg.expression hn).2
    rw [hnone] at hasserted
    cases hasserted
  | _ => cases he'

theorem points_ne_empty_of_setDesign (hg : g.SetDesign k) {o : NodeId} {s : ValueSet α}
    {u : Option (MeasureUnit α)} (ho : g.node? o = some (.literal s u)) : s.points ≠ ∅ := by
  obtain ⟨hc, -, hfed⟩ := hg.literal ho
  rw [ne_eq, ← ValueSet.isEmpty_iff_points hc, hfed]
  exact Bool.false_ne_true

section Single

variable (hg : g.Sound) (hs : g.Single k op ps id e) (hop : op = .intersection ∨ op = .difference)
  (h : (operators : Pass α).apply deduplicate journal g = .ok (rev, journal'))

include hg hs hop h

/-- What the pass leaves: the literals, and the strands of the tree. -/
theorem exists_strand {j : NodeId} {n : Node α} (hj : rev.generation.node? j = some n) :
    (∃ o, g.node? o = some n ∧ n.expression? = none) ∨
      ∃ e' bs, n = .expression e' ∧ List.Forall₂ (rev.generation.Means shapes) e'.operands bs ∧
        Strand ((extents (α := α)).encoded op ps = ∅) e'.op bs := by
  obtain rfl := hs.op
  have hencodes := (Operator.sifts hop).encodes
  have harity : e.op.arity.accepts e.operands.length := (hg.node hs.node?).arity e rfl
  have hops : List.Forall₂ (g.Says shapes) e.operands (ps.map fun a => (a, false)) := by
    rw [List.forall₂_map_right_iff]
    refine hs.points.imp ?_
    rintro o _ ⟨s, u, ho, rfl⟩
    exact ⟨s, u, ho, rfl⟩
  have hfed : ∀ b ∈ ps.map fun a => (a, false), b.1 ≠ ∅ ∧ b.2 = false := by
    intro b hb
    obtain ⟨a, ha, rfl⟩ := List.mem_map.1 hb
    obtain ⟨o, -, s, u, ho, rfl⟩ := exists_of_forall₂ hs.points.flip ha
    exact ⟨points_ne_empty_of_setDesign hs.design ho, rfl⟩
  have hroot : ((shapes (α := α)).encoded e.op (ps.map fun a => (a, false))).1 =
      (extents (α := α)).encoded e.op ps := by
    rw [fst_encoded hencodes (by rwa [← hops.length_eq]), List.map_map]
    exact congrArg _ (List.map_id ps)
  rw [← hroot]
  exact exists_sown hg.acyclic hs.node? hencodes hs.alone
    (fun d hd => plants_strands hg.acyclic hd hs.node? hop harity hops hfed) h hj

/-- The pass weaves the tree of the law. -/
theorem woven_operators : (rev.next g).Woven k ((extents (α := α)).encoded op ps = ∅) := by
  have hn := hs.node?
  have hsifts : e.op.Sifts := hs.op ▸ Operator.sifts hop
  have hassert := assertable_pipeline hg (assertable_of_setDesign hs.design) (by simp [pipeline]) h
  have hbasis := inBasis_operators hg h
  have hdirty : rev.dirty = true := by
    by_contra hclean
    rw [Revision.next, if_neg hclean] at hbasis
    have hcanonical := op_of_inBasis hbasis hn
    rw [hsifts.foreign] at hcanonical
    cases hcanonical
  rw [Revision.next, if_pos hdirty] at hassert hbasis ⊢
  refine ⟨fun j n hj => ?_, fun j e' he' => op_of_inBasis hbasis he', fun j e' he' hunion o ho c hc => ?_,
    ?_, fun hempty => ?_⟩
  · rcases exists_strand hg hs hop h hj with ⟨o, ho, hleaf⟩ | ⟨e', bs, rfl, -, hstrand⟩
    · rcases hs.design o n ho with hliteral | ⟨e', rfl, -⟩
      · exact .inl hliteral
      · cases hleaf
    · refine .inr ⟨e', rfl, hstrand.set, Bool.eq_false_iff.2 fun hasserted => ?_⟩
      have hpredicate : e'.op.isPredicate := hassert j _ hj ⟨e'.op, [], e'.asserted⟩ rfl hasserted
      have hset := hstrand.set
      revert hset hpredicate
      cases e'.op <;> decide
  · rcases exists_strand hg hs hop h he' with ⟨-, -, hleaf⟩ | ⟨e₁, bs, heq, hmeans, hstrand⟩
    · cases hleaf
    · cases heq
      obtain ⟨b, hb, hmeans⟩ := exists_of_forall₂ hmeans ho
      obtain ⟨cs, rfl, -⟩ := hmeans.of_expression hc
      have hflat : (c.op == Operator.union) = false := hstrand.flat hunion _ hb
      exact ne_of_beq_false hflat
  · rintro ⟨j, hj⟩
    obtain ⟨n, hn'⟩ := Generation.contains_iff.1 hj.contains
    rcases exists_strand hg hs hop h hn' with ⟨o, ho, hleaf⟩ | ⟨e', bs, rfl, hmeans, hstrand⟩
    · rcases hs.design o n ho with ⟨s, u, rfl, -⟩ | ⟨e', rfl, -⟩
      · exact absurd (hj.of_literal hn').symm (points_ne_empty_of_setDesign hs.design ho)
      · cases hleaf
    · refine hstrand.empty ?_
      have hshape := means_of_shapes (Generation.Means.of_forall₂ hn' hmeans)
      exact hshape.unique hj
  · have hops : List.Forall₂ (g.Says extents) e.operands ps := hs.points
    obtain ⟨j, -, hj⟩ := exists_means hg hn hsifts.encodes hops h
    rw [hs.op, hempty] at hj
    exact ⟨j, hj⟩

end Single

end Pass

end ParameterSolver
