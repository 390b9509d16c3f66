import ParameterSolver.Proofs.Pass.Reproduction
import ParameterSolver.Proofs.Propagation.BottomUp

/-! The trees that laws put in the place of expressions over literals. Such a tree means what the formula
of the law makes of the meanings of the literals, in every interpretation of the operators, and nothing
else that the pass does touches it. -/

namespace ParameterSolver

open Draft

variable {α β γ : Type} {g : Generation α} {I : Interpretation α β} {S S' : Set NodeId}
  {d d' : Draft α} {id j : NodeId} {b : β} {a : Act α}

namespace Interpretation

variable (I)

/-- The formula for the intersection of two sets. -/
def meet (a b : β) : β :=
  I.node .symmetricDifference [I.node .union [a, b], I.node .symmetricDifference [a, b]]

/-- The formula that a law has for an operator. -/
def encoded (op : Operator) (bs : List β) : β :=
  let anyFalse := I.node .or (bs.map fun b => I.node .not [b])
  match op, bs with
  | .and, _ => I.node .not [anyFalse]
  | .implies, b :: bs => I.node .or (I.node .not [b] :: bs)
  | .xor, _ =>
    I.node .not [I.node .or [I.node .not [I.node .or bs], I.node .not [anyFalse]]]
  | .difference, b :: bs => I.node .symmetricDifference [I.node .union (b :: bs), I.node .union bs]
  | .intersection, b :: bs => bs.foldl I.meet b
  | _, _ => I.node op bs

end Interpretation

/-- A draft of `g` in which what stands for a literal is the literal. -/
def Draft.Grounded (g : Generation α) (d : Draft α) : Prop :=
  ∀ o s u j, g.node? o = some (.literal s u) → d.mapping.get? o = some j →
    d.output.node? j = some (.literal s u)

/-- The output node is the root of a tree over literals and constants, with that meaning. No node of the
tree stands for a node of the input, but for the literals and those that stand for a node in `S`. -/
inductive Draft.Yields (g : Generation α) (I : Interpretation α β) (S : Set NodeId) (d : Draft α) :
    NodeId → β → Prop
  | image {o j : NodeId} {s : ValueSet α} {u : Option (MeasureUnit α)}
    (ho : g.node? o = some (.literal s u)) (hj : d.mapping.get? o = some j) :
    Yields g I S d j (I.leaf s)
  | constant {c : NodeId} {s : ValueSet α} (hc : d.output.node? c = some (.literal s none))
    (hown : ∀ i, d.mapping.get? i = some c → i ∈ S) : Yields g I S d c (I.leaf s)
  | made {c : NodeId} {e : Expression} {bs : List β} (hc : d.output.node? c = some (.expression e))
    (hown : ∀ i, d.mapping.get? i = some c → i ∈ S) (hlen : e.operands.length = bs.length)
    (hops : ∀ o b, (o, b) ∈ e.operands.zip bs → Yields g I S d o b) :
    Yields g I S d c (I.node e.op bs)

namespace Draft

theorem Yields.of_forall₂ {e : Expression} {bs : List β}
    (hc : d.output.node? j = some (.expression e)) (hown : ∀ i, d.mapping.get? i = some j → i ∈ S)
    (h : List.Forall₂ (d.Yields g I S) e.operands bs) : d.Yields g I S j (I.node e.op bs) :=
  .made hc hown h.length_eq fun _ _ hmem => (List.forall₂_iff_zip.1 h).2 hmem

/-- A tree is still there if its nodes are. -/
theorem Yields.transfer (h : d.Yields g I S j b)
    (himage : ∀ o s u k, g.node? o = some (.literal s u) → d.mapping.get? o = some k →
      d'.mapping.get? o = some k)
    (hown : ∀ c n, d.output.node? c = some n → (∀ i, d.mapping.get? i = some c → i ∈ S) →
      (∃ b, d.Yields g I S c b) →
      d'.output.node? c = some n ∧ ∀ i, d'.mapping.get? i = some c → i ∈ S') :
    d'.Yields g I S' j b := by
  induction h with
  | image ho hj => exact .image ho (himage _ _ _ _ ho hj)
  | constant hc hfree =>
    obtain ⟨hc', hfree'⟩ := hown _ _ hc hfree ⟨_, .constant hc hfree⟩
    exact .constant hc' hfree'
  | made hc hfree hlen hops ih =>
    obtain ⟨hc', hfree'⟩ := hown _ _ hc hfree ⟨_, .made hc hfree hlen hops⟩
    exact .made hc' hfree' hlen ih

theorem Yields.mono (h : d.Yields g I S j b) (hS : S ⊆ S') : d.Yields g I S' j b :=
  h.transfer (fun _ _ _ _ _ hk => hk) fun _ _ hc hown _ => ⟨hc, fun i hi => hS (hown i hi)⟩

theorem Yields.retains (h : d.Yields g I ∅ j b) (hr : Retains d d') : d'.Yields g I ∅ j b :=
  h.transfer (fun _ _ _ _ _ hk => hr.mapping _ _ hk) fun _ _ hc hown _ =>
    ⟨hr.node? _ _ hc, hr.unbound _ (Generation.contains_of_node? hc) hown⟩

/-- With the draft that has it, the tree is a tree of the finished graph. -/
theorem Yields.means (h : d.Yields g I S j b) (hd : d.Grounded g) : d.output.Means I j b := by
  induction h with
  | image ho hj => exact .literal (hd _ _ _ _ ho hj)
  | constant hc => exact .literal hc
  | made hc _ hlen _ ih => exact .expression hc hlen ih

end Draft

/-- What is not only about bookkeeping, copying and creating is about expressions that are not in
`S`. -/
def Act.Spare (g : Generation α) (S : Set NodeId) : Act α → Prop
  | .write i _ | .erase i | .redirect i _ => i ∉ S ∧ ∃ e, g.node? i = some (.expression e)
  | _ => True

namespace Draft

section Tree

variable {i : NodeId} (h : d.Yields g I S j b)

include h

/-- No node of the tree stands for an expression outside `S`. -/
theorem Yields.not_image (hd : d.Coherent) (hi : i ∉ S) (hn : ∃ e, g.node? i = some (.expression e)) :
    d.mapping.get? i ≠ some j := by
  intro hj
  cases h with
  | image ho hj' =>
    obtain ⟨e, he⟩ := hn
    cases hd.injective _ _ _ hj hj'
    cases ho.symm.trans he
  | constant _ hown | made _ hown => exact hi (hown i hj)

theorem Yields.not_parameter (hground : d.Grounded g) (p : Parameter α) :
    d.output.node? j ≠ some (.parameter p) := by
  intro hp
  cases h with
  | image ho hj => cases (hground _ _ _ _ ho hj).symm.trans hp
  | constant hc | made hc => cases hc.symm.trans hp

theorem Yields.operands (hground : d.Grounded g) {o : NodeId} (ho : o ∈ d.output.operands j) :
    ∃ b, d.Yields g I S o b := by
  cases h with
  | image hs hj =>
    rw [Generation.operands_of_node? (hground _ _ _ _ hs hj)] at ho
    cases ho
  | constant hc =>
    rw [Generation.operands_of_node? hc] at ho
    cases ho
  | @made _ e bs hc _ hlen hops =>
    rw [Generation.operands_of_node? hc] at ho
    obtain ⟨n, hn, rfl⟩ := List.mem_iff_getElem.1 (show o ∈ e.operands from ho)
    have hn' : n < (e.operands.zip bs).length := by
      rw [List.length_zip]
      omega
    exact ⟨_, hops _ _ (List.mem_iff_getElem.2 ⟨n, hn', List.getElem_zip⟩)⟩

/-- What goes with an expression outside `S` leaves the tree. -/
theorem Yields.not_mem_gone (hd : d.Coherent) (hground : d.Grounded g) (hi : i ∉ S)
    (hn : ∃ e, g.node? i = some (.expression e)) {gone : List NodeId} (he : Erased i gone d d') :
    j ∉ gone := by
  intro hj
  refine he.least { x | ∀ b, ¬ d.Yields g I S x b } (fun k hk b hyields => ?_)
    (fun x hx y hy b hyields => ?_) j hj b h
  · exact hyields.not_image hd hi hn hk
  · obtain ⟨b', hb'⟩ := hyields.operands hground ((hd.linked.users x y).1 hy)
    exact hx b' hb'

/-- A move that takes nothing away. -/
theorem Yields.of_retains (hd' : d'.Coherent) (hr : Retains d d') : d'.Yields g I S j b := by
  refine h.transfer (fun _ _ _ _ _ hk => hr.mapping _ _ hk) fun c n hc hown _ =>
    ⟨hr.node? _ _ hc, fun i hi => ?_⟩
  by_cases hfree : d.Unbound c
  · exact absurd hi (hr.unbound c (Generation.contains_of_node? hc) hfree i)
  · obtain ⟨i', hi'⟩ := not_forall_not.1 hfree
    rw [hd'.injective i i' c hi (hr.mapping _ _ hi')]
    exact hown i' hi'

theorem Yields.erased (hd : d.Coherent) (hground : d.Grounded g) (hi : i ∉ S)
    (hn : ∃ e, g.node? i = some (.expression e)) {gone : List NodeId} (he : Erased i gone d d') :
    d'.Yields g I S j b := by
  refine h.transfer (fun o s u k ho hk => (he.mapping o k).2 ⟨hk, ?_⟩)
    fun c n hc hown ⟨b, hb⟩ => ⟨?_, fun i' hi' => hown i' ((he.mapping i' c).1 hi').1⟩
  · exact (Yields.image (I := I) ho hk).not_mem_gone hd hground hi hn he
  · rw [he.output.node?, if_neg (hb.not_mem_gone hd hground hi hn he), hc]

theorem Yields.redirected (hd : d.Coherent) (hground : d.Grounded g) (hi : i ∉ S)
    (hn : ∃ e, g.node? i = some (.expression e)) {target : NodeId} {p : Parameter α} {q : Provenance}
    (ht : d.output.node? target = some (.parameter p)) (hr : Redirected i target q d d') :
    d'.Yields g I S j b := by
  refine h.transfer (fun o s u k ho hk => ?_) fun c n hc hown ⟨b, hb⟩ => ⟨?_, fun i' hi' => ?_⟩
  · rw [hr.mapping, if_neg, hk]
    rintro rfl
    obtain ⟨e, he⟩ := hn
    cases ho.symm.trans he
  · -- no operand makes way for the target
    have hops : n.operands.map (d.diverted i target) = n.operands := by
      refine (List.map_congr_left fun o ho => if_neg ?_).trans (List.map_id _)
      rw [← Generation.operands_of_node? hc] at ho
      obtain ⟨b', hb'⟩ := hb.operands hground ho
      exact hb'.not_image hd hi hn
    rw [hr.node?, if_neg (hb.not_image hd hi hn), hc, Option.map_some, hops,
      Node.withOperands_operands]
  · rw [hr.mapping] at hi'
    split_ifs at hi'
    · cases hi'
      exact absurd ht (hb.not_parameter hground p)
    · exact hown i' hi'

/-- A move that is about something else leaves the tree alone. -/
theorem Yields.move (hd : d.Coherent) (hground : d.Grounded g) (ha : a.Spare g S) (hm : Move a d d') :
    d'.Yields g I S j b := by
  have hd' := hd.move hm
  by_cases hadds : a.Adds
  · exact h.of_retains hd' (hm.retains hadds)
  cases hm with
  | place hid hremoved hmap henter hq =>
    have hr := retains_bind (Generation.ne_null_of_contains hid) hmap
      (fun _ => henter.ne_of_contains) (retains_insert henter)
    exact h.of_retains hd' ⟨hr.node?, hr.mapping, hr.removed, hr.unbound⟩
  | replace hmap hrep hq =>
    refine h.transfer (fun _ _ _ _ _ hk => hk) fun c n hc hown ⟨b, hb⟩ => ⟨?_, hown⟩
    refine (hrep.node? c).trans ((if_neg ?_).trans hc)
    rintro rfl
    exact hb.not_image hd ha.1 ha.2 hmap
  | erase hid he => exact h.erased hd hground ha.1 ha.2 he
  | redirect hid hremoved ht hfree hq hr => exact h.redirected hd hground ha.1 ha.2 ht hr
  | _ => exact absurd trivial hadds

/-- The root goes on standing for what it stands for. -/
theorem Yields.mapping_move (hd : d.Coherent) (hground : d.Grounded g) (ha : a.Spare g S)
    (hm : Move a d d') (hi : d.mapping.get? i = some j) : d'.mapping.get? i = some j := by
  by_cases hadds : a.Adds
  · exact (hm.retains hadds).mapping i j hi
  cases hm with
  | place hid hremoved hmap henter hq =>
    exact get?_bound_of_none (Generation.ne_null_of_contains hid) hmap hi
  | replace hmap hrep hq => exact hi
  | erase hid he => exact (he.mapping i j).2 ⟨hi, h.not_mem_gone hd hground ha.1 ha.2 he⟩
  | redirect hid hremoved ht hfree hq hr =>
    rw [hr.mapping, if_neg, hi]
    rintro rfl
    exact h.not_image hd ha.1 ha.2 hi
  | _ => exact absurd trivial hadds

end Tree

end Draft

/-! Building a tree. -/

/-- The node is a literal with that meaning. -/
def Generation.Says (g : Generation α) (I : Interpretation α β) (o : NodeId) (b : β) : Prop :=
  ∃ s u, g.node? o = some (.literal s u) ∧ b = I.leaf s

/-- What a law may create: literals, and expressions by their operator and the meanings of their
operands. -/
structure Seeds (α β : Type) where
  literal : ValueSet α → Prop
  expression : Operator → List β → Prop

/-- Expressions alone. -/
def Seeds.only (V : Operator → List β → Prop) : Seeds α β := ⟨fun _ => False, V⟩

/-- Plain numbers, and any expression. -/
def Seeds.plain [Scalar α] : Seeds α β := ⟨fun s => ∃ x, s = .number x, fun _ _ => True⟩

/-- The operand is a literal that the expression at `id` is over, a tree, or a literal that may be
created, with that meaning. -/
def Operand.Gives (g : Generation α) (I : Interpretation α β) (V : Seeds α β) (id : NodeId)
    (d : Draft α) : Operand α → β → Prop
  | .input o, b => o ∈ g.operands id ∧ g.Says I o b
  | .output c, b => d.Yields g I ∅ c b
  | .literal s, b => V.literal s ∧ b = I.leaf s

section Gives

variable {x : Operand α} {xs : List (Operand α)} {l js : List NodeId} {bs : List β} {o : NodeId} {b' : β}
  {V : Seeds α β}

theorem Generation.Says.unique (h : g.Says I o b) (h' : g.Says I o b') : b = b' := by
  obtain ⟨s, u, hs, rfl⟩ := h
  obtain ⟨s', u', hs', rfl⟩ := h'
  cases hs.symm.trans hs'
  rfl

theorem Operand.Gives.retains (h : x.Gives g I V id d b) (hr : Retains d d') :
    x.Gives g I V id d' b := by
  cases x with
  | output c => exact Yields.retains h hr
  | _ => exact h

theorem gives_retains (h : List.Forall₂ (Operand.Gives g I V id d) xs bs) (hr : Retains d d') :
    List.Forall₂ (Operand.Gives g I V id d') xs bs := h.imp fun _ _ hx => hx.retains hr

theorem gives_inputs (hl : List.Forall₂ (g.Says I) l bs) (hmem : ∀ o ∈ l, o ∈ g.operands id) :
    List.Forall₂ (Operand.Gives g I V id d) (l.map .input) bs := by
  induction hl with
  | nil => exact .nil
  | cons hb _ ih => exact .cons ⟨hmem _ (by simp), hb⟩ (ih fun o ho => hmem o (.tail _ ho))

theorem gives_each {f : β → β} (hl : List.Forall₂ (g.Says I) l bs)
    (h : List.Forall₂ (fun o x => ∀ b, g.Says I o b → x.Gives g I V id d (f b)) l xs) :
    List.Forall₂ (Operand.Gives g I V id d) xs (bs.map f) := by
  rw [List.forall₂_map_right_iff]
  exact forall₂_through h hl fun o x b hx hb => hx b hb

theorem mem_of_gives (h : List.Forall₂ (Operand.Gives g I V id d) xs bs) (ho : .input o ∈ xs) :
    o ∈ g.operands id :=
  (exists_of_forall₂ h ho).elim fun _ hb => hb.2.1

theorem literal_of_gives (h : List.Forall₂ (Operand.Gives g I V id d) xs bs) {s : ValueSet α}
    (hs : .literal s ∈ xs) : V.literal s := (exists_of_forall₂ h hs).elim fun _ hb => hb.2.1

theorem yields_of_names (h : List.Forall₂ (Operand.Gives g I V id d) xs bs)
    (hjs : List.Forall₂ (Operand.Names d) xs js) : List.Forall₂ (d.Yields g I ∅) js bs := by
  induction h generalizing js with
  | nil =>
    cases hjs
    exact .nil
  | @cons x b _ _ hx _ ih =>
    cases hjs with
    | cons hj hjs =>
      refine .cons ?_ (ih hjs)
      cases x with
      | input o =>
        obtain ⟨-, s, u, ho, rfl⟩ := hx
        exact .image ho hj
      | output c => exact hj.1 ▸ hx
      | literal s =>
        obtain ⟨-, rfl⟩ := hx
        exact .constant hj.1 fun i hi => absurd hi (hj.2 i)

end Gives

/-- What is created for a tree: literals, and expressions over trees, that are among the seeds. -/
def Sown (g : Generation α) (I : Interpretation α β) (V : Seeds α β) (d : Draft α) (n : Node α) : Prop :=
  (∃ s, n = .literal s none ∧ V.literal s) ∨
    ∃ e bs, n = .expression e ∧ e.op.isCanonical ∧ e.asserted = false ∧
      List.Forall₂ (d.Yields g I ∅) e.operands bs ∧ V.expression e.op bs

namespace Pass

variable [Scalar α] {V : Seeds α β} {op : Operator} {l : List (Operand α)}
  {bs : List β} {e : Expression}

theorem grows_build (hg : g.Acyclic) (hd : Pending g id d) (hop : op.isCanonical)
    (hl : List.Forall₂ (Operand.Gives g I V id d) l bs) (hV : V.expression op bs) :
    Grows g id (Sown g I V) (build id op l) d fun d x => x.Gives g I V id d (I.node op bs) := by
  intro r d' hr
  unfold build at hr
  rw [LawRuns, OptionT.run_map] at hr
  obtain ⟨r', hr', rfl⟩ := runs_map.1 hr
  obtain ⟨hmoves, hmade, hnone⟩ := moves_createExpression (C := Sown g I V) hg hd.coherent hd.input
    (fun o ho => .single (mem_of_gives hl ho)) (fun s hs _ => .inl ⟨s, rfl, literal_of_gives hl hs⟩)
    (fun d' js hret hjs => .inr ⟨⟨op, js, false⟩, bs, rfl, hop, rfl,
      yields_of_names (gives_retains hl hret) hjs, hV⟩) hr'
  have hret := hmoves.retains fun _ _ ha => ha.adds
  refine ⟨hmoves, fun x hx => ?_, fun h => ?_⟩
  · obtain ⟨c, rfl, rfl⟩ := Option.map_eq_some_iff.1 hx
    obtain ⟨hfree, ⟨js, hnode, hjs⟩, -⟩ := hmade c rfl
    exact Yields.of_forall₂ hnode (fun i hi => absurd hi (hfree i))
      (yields_of_names (gives_retains hl hret) hjs)
  · obtain ⟨o, ho, hgone⟩ := hnone (Option.map_eq_none_iff.1 h)
    exact ⟨o, mem_of_gives hl ho, hgone⟩

/-- In the place of the expression comes the root of a tree, which is among the seeds. -/
def Takes (g : Generation α) (I : Interpretation α β) (V : Seeds α β) (id : NodeId)
    (d : Draft α) (r : Option Unit) (d' : Draft α) (b : β) : Prop :=
  r = some () ∧ ∃ e bs j, Move (.write id (.expression e)) d d' ∧ d'.mapping.get? id = some j ∧
    d'.output.node? j = some (.expression e) ∧ List.Forall₂ (d.Yields g I ∅) e.operands bs ∧
    V.expression e.op bs ∧ I.node e.op bs = b

/-- The law builds a tree, and puts its root in the place of the expression unless an operand is
gone. -/
def Plants (g : Generation α) (id : NodeId) (I : Interpretation α β) (V : Seeds α β)
    (m : Law α Unit) (d : Draft α) (b : β) : Prop :=
  ∀ r d', LawRuns m d r d' → ∃ d₁, Moves (fun d a => a.Builds g id (Sown g I V) d) d d₁ ∧
    ((∃ o ∈ g.operands id, d₁.isRemoved o) ∨ Takes g I V id d₁ r d' b)

section Laws

variable (hg : g.Acyclic) (hd : Pending g id d)

include hg hd

omit [Scalar α] in
theorem Grows.plants {m : Law α γ} {f : γ → Law α Unit} {R : Draft α → γ → Prop}
    (h : Grows g id (Sown g I V) m d R)
    (hf : ∀ x d₁, Pending g id d₁ → Retains d d₁ → R d₁ x → Plants g id I V (f x) d₁ b) :
    Plants g id I V (m >>= f) d b := by
  intro r d' hr
  rcases lawRuns_bind.1 hr with ⟨hm, rfl⟩ | ⟨x, d₁, hm, hr₁⟩
  · obtain ⟨hmoves, -, hnone⟩ := h _ _ hm
    exact ⟨d', hmoves, .inl (hnone rfl)⟩
  · obtain ⟨hmoves, hsome, -⟩ := h _ _ hm
    obtain ⟨d₂, hmoves', hrest⟩ := hf x d₁ (hd.builds hg hmoves)
      (hmoves.retains fun _ _ ha => ha.adds) (hsome x rfl) r d' hr₁
    exact ⟨d₂, hmoves.trans hmoves', hrest⟩

theorem plants_become (hn : g.node? id = some (.expression e)) (hforeign : e.op.isCanonical = false)
    (hop : op.isCanonical) (hl : List.Forall₂ (Operand.Gives g I V id d) l bs)
    (hV : V.expression op bs) : Plants g id I V (become id op l) d (I.node op bs) := by
  intro r d' hr
  obtain ⟨r', hr', rfl⟩ := lawRuns_discard_lift.1 hr
  rcases moves_editExpression (C := Sown g I V) { op := some op, operands := some l } hg hd.coherent
    hd.input hn hd.there rfl rfl rfl (fun o ho => .single (mem_of_gives hl ho))
    (fun s hs _ => .inl ⟨s, rfl, literal_of_gives hl hs⟩) hr' with ⟨⟨hidle, -⟩, -⟩ | ⟨-, d₁, hmoves, -, hend⟩
  · change op = e.op at hidle
    rw [← hidle, hop] at hforeign
    cases hforeign
  have hret := hmoves.retains fun _ _ ha => ha.adds
  refine ⟨d₁, hmoves, ?_⟩
  cases hend with
  | written js j hjs hmove _ hmap hnode =>
    exact .inr ⟨rfl, ⟨op, js, e.asserted⟩, bs, j, hmove, hmap, hnode,
      yields_of_names (gives_retains hl hret) hjs, hV, rfl⟩
  | removed o ho hgone _ _ => exact .inl ⟨o, mem_of_gives hl ho, hgone⟩

omit [Scalar α] in
/-- The trees that are built for the operands one after the other. -/
theorem grows_each {operands : List NodeId} {f : NodeId → Law α (Operand α)} {F : β → β}
    (hops : List.Forall₂ (g.Says I) operands bs)
    (hf : ∀ o ∈ operands, ∀ b, g.Says I o b → ∀ d, Pending g id d →
      Grows g id (Sown g I V) (f o) d fun d x => x.Gives g I V id d (F b)) :
    Grows g id (Sown g I V) (operands.mapM f) d fun d xs =>
      List.Forall₂ (Operand.Gives g I V id d) xs (bs.map F) := by
  refine (Grows.mapM (S := fun o d x => ∀ b, g.Says I o b → x.Gives g I V id d (F b)) hg
    (fun o x d d' hr hx b hb => (hx b hb).retains hr) (fun o ho d hd => ?_) hd).mono
    fun d xs hxs => gives_each hops hxs
  obtain ⟨b, -, hb⟩ := exists_of_forall₂ hops ho
  refine (hf o ho b hb d hd).mono fun d x hx b' hb' => ?_
  rwa [hb'.unique hb]

/-! The laws of logic. -/

theorem grows_negate {o : NodeId} (hb : g.Says I o b) (hmem : o ∈ g.operands id) :
    Grows g id (Sown g I .plain) (build id .not [.input o]) d fun d x =>
      x.Gives g I .plain id d (I.node .not [b]) :=
  grows_build hg hd rfl (.cons ⟨hmem, hb⟩ .nil) trivial

theorem grows_negated {operands : List NodeId} (hops : List.Forall₂ (g.Says I) operands bs)
    (hmem : ∀ o ∈ operands, o ∈ g.operands id) :
    Grows g id (Sown g I .plain) (operands.mapM fun o => build id .not [.input o]) d fun d xs =>
      List.Forall₂ (Operand.Gives g I .plain id d) xs (bs.map fun b => I.node .not [b]) :=
  grows_each hg hd hops fun o ho _ hb _ hd => grows_negate hg hd hb (hmem o ho)

section Logic

variable {operands : List NodeId} {asserted : Bool} (hops : List.Forall₂ (g.Says I) operands bs)
  (hmem : ∀ o ∈ operands, o ∈ g.operands id)

include hops hmem

theorem plants_and (hn : g.node? id = some (.expression ⟨.and, operands, asserted⟩)) :
    Plants g id I .plain (applyLaw id ⟨.and, operands, asserted⟩) d (I.encoded .and bs) := by
  refine (grows_negated hg hd hops hmem).plants hg hd fun negated d₁ hd₁ _ hneg => ?_
  refine (grows_build hg hd₁ rfl hneg trivial).plants hg hd₁ fun any d₂ hd₂ _ hany => ?_
  exact plants_become hg hd₂ hn rfl rfl (.cons hany .nil) trivial

theorem plants_implies (hne : operands ≠ [])
    (hn : g.node? id = some (.expression ⟨.implies, operands, asserted⟩)) :
    Plants g id I .plain (applyLaw id ⟨.implies, operands, asserted⟩) d
      (I.encoded .implies bs) := by
  cases hops with
  | nil => exact absurd rfl hne
  | @cons first b rest bs hb hrest =>
    refine (grows_negate hg hd hb (hmem first (by simp))).plants hg hd
      fun premise d₁ hd₁ _ hpremise => ?_
    exact plants_become hg hd₁ hn rfl rfl
      (.cons hpremise (gives_inputs hrest fun o ho => hmem o (.tail _ ho))) trivial

theorem plants_xor (hn : g.node? id = some (.expression ⟨.xor, operands, asserted⟩)) :
    Plants g id I .plain (applyLaw id ⟨.xor, operands, asserted⟩) d (I.encoded .xor bs) := by
  refine (grows_build hg hd rfl (gives_inputs hops hmem) trivial).plants hg hd
    fun anyTrue d₁ hd₁ _ hat => ?_
  refine (grows_build hg hd₁ rfl (.cons hat .nil) trivial).plants hg hd₁
    fun noneTrue d₂ hd₂ _ hnt => ?_
  refine (grows_negated hg hd₂ hops hmem).plants hg hd₂ fun negated d₃ hd₃ hr₃ hneg => ?_
  refine (grows_build hg hd₃ rfl hneg trivial).plants hg hd₃ fun anyFalse d₄ hd₄ hr₄ haf => ?_
  refine (grows_build hg hd₄ rfl (.cons haf .nil) trivial).plants hg hd₄
    fun noneFalse d₅ hd₅ hr₅ hnf => ?_
  have hnt₅ := hnt.retains (hr₃.trans (hr₄.trans hr₅))
  refine (grows_build hg hd₅ rfl (.cons hnt₅ (.cons hnf .nil)) trivial).plants hg hd₅
    fun uniform d₆ hd₆ _ hu => ?_
  exact plants_become hg hd₆ hn rfl rfl (.cons hu .nil) trivial

end Logic

/-! The laws of sets. -/

theorem plants_difference {first : NodeId} {rest : List NodeId} {asserted : Bool}
    (hn : g.node? id = some (.expression ⟨.difference, first :: rest, asserted⟩))
    (hops : List.Forall₂ (g.Says I) (first :: rest) (b :: bs))
    (hmem : ∀ o ∈ first :: rest, o ∈ g.operands id) (hV : V.expression .union (b :: bs))
    (hV' : V.expression .union bs)
    (hroot : V.expression .symmetricDifference [I.node .union (b :: bs), I.node .union bs]) :
    Plants g id I V (applyLaw id ⟨.difference, first :: rest, asserted⟩) d
      (I.encoded .difference (b :: bs)) := by
  refine (grows_build hg hd rfl (gives_inputs hops hmem) hV).plants hg hd fun all d₁ hd₁ _ hall => ?_
  have hrest := gives_inputs (V := V) (d := d₁) (List.forall₂_cons.1 hops).2 fun o ho =>
    hmem o (.tail _ ho)
  refine (grows_build hg hd₁ rfl hrest hV').plants hg hd₁ fun taken d₂ hd₂ hr₂ htaken => ?_
  exact plants_become hg hd₂ hn rfl rfl (.cons (hall.retains hr₂) (.cons htaken .nil)) hroot

theorem grows_meetParts {x y : Operand α} {b c : β} (hx : x.Gives g I V id d b)
    (hy : y.Gives g I V id d c) (hV : V.expression .union [b, c])
    (hV' : V.expression .symmetricDifference [b, c]) :
    Grows g id (Sown g I V) (meetParts id x y) d fun d xs =>
      List.Forall₂ (Operand.Gives g I V id d) xs
        [I.node .union [b, c], I.node .symmetricDifference [b, c]] := by
  refine (grows_build hg hd rfl (.cons hx (.cons hy .nil)) hV).bind hg hd fun union d₁ hd₁ hr₁ hu => ?_
  refine (grows_build hg hd₁ rfl (.cons (hx.retains hr₁) (.cons (hy.retains hr₁) .nil)) hV').bind hg
    hd₁ fun delta d₂ _ hr₂ hdelta => ?_
  exact .pure (.cons (hu.retains hr₂) (.cons hdelta .nil))

/-- The induction is on the sets that are left; `J` says of what has been intersected so far, and of
those sets, what the new expressions need. -/
theorem plants_meet {J : β → List β → Prop} {x : Operand α} {rest : List NodeId}
    (hn : g.node? id = some (.expression e)) (hforeign : e.op.isCanonical = false)
    (hx : x.Gives g I V id d b) (hrest : List.Forall₂ (g.Says I) rest bs)
    (hmem : ∀ o ∈ rest, o ∈ g.operands id) (hne : rest ≠ [])
    (hJ : ∀ b c bs, J b (c :: bs) → V.expression .union [b, c] ∧
      V.expression .symmetricDifference [b, c] ∧
      V.expression .symmetricDifference [I.node .union [b, c], I.node .symmetricDifference [b, c]] ∧
      J (I.meet b c) bs) (hb : J b bs) :
    Plants g id I V (meet id x rest) d (bs.foldl I.meet b) := by
  induction hrest generalizing x b d with
  | nil => exact absurd rfl hne
  | @cons next c rest bs hc hrest ih =>
    obtain ⟨hunion, hdelta, hboth, hnext⟩ := hJ b c bs hb
    have hparts := grows_meetParts hg hd hx (y := .input next) ⟨hmem next (by simp), hc⟩ hunion hdelta
    cases hrest with
    | nil =>
      exact hparts.plants hg hd fun parts d₁ hd₁ _ hp => plants_become hg hd₁ hn hforeign rfl hp hboth
    | cons hc' hrest' =>
      refine hparts.plants hg hd fun parts d₁ hd₁ _ hp => ?_
      refine (grows_build hg hd₁ rfl hp hboth).plants hg hd₁ fun y d₂ hd₂ _ hy => ?_
      exact ih hd₂ hy (fun o ho => hmem o (.tail _ ho)) (by simp) hnext

end Laws

end Pass

end ParameterSolver
