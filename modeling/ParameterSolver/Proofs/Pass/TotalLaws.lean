import ParameterSolver.Proofs.Pass.Total

/-! The law of every operator outside the basis can be applied to a graph that is in order, and the
pass that applies them leaves no such operator. -/

namespace ParameterSolver

open Draft

variable {α β γ : Type} [Scalar α] {g : Generation α} {height level : NodeId → ℕ} {T : Set NodeId}
  {d : Draft α} {id : NodeId} {e : Expression}

namespace Pass

/-- The law gives a result of which `Q` holds, or runs dry. Nothing goes, and only input nodes below
`b` are touched. -/
def Yields (g : Generation α) (height : NodeId → ℕ) (T : Set NodeId) (b : ℕ) (m : Law α β)
    (level : NodeId → ℕ) (d : Draft α) (Q : β → (NodeId → ℕ) → Draft α → Prop) : Prop :=
  Advances g height T b m.run level d fun r level' d' => ∀ x ∈ r, Q x level' d'

section Yields

variable {b : ℕ} {Q : β → (NodeId → ℕ) → Draft α → Prop}

theorem Yields.pure {x : β} (h : Sturdy g height T level d) (hQ : Q x level d) :
    Yields g height T b (Pure.pure x) level d Q :=
  Advances.pure h (by rintro _ ⟨⟩; exact hQ)

theorem Yields.lift {m : Edit α β} (h : Advances g height T b m level d Q) :
    Yields g height T b (.lift m) level d Q := by
  obtain ⟨r, level', d', hr, h', hgrows, hQ⟩ := h
  refine ⟨some r, level', d', lawRuns_lift.2 ⟨r, hr, rfl⟩, h', hgrows, ?_⟩
  rintro _ ⟨⟩
  exact hQ

theorem Yields.discard {m : Edit α β} (h : Advances g height T b m level d Q) :
    Yields g height T b (discard (.lift m)) level d fun _ _ _ => True := by
  obtain ⟨r, level', d', hr, h', hgrows, -⟩ := h
  exact ⟨some (), level', d', lawRuns_discard_lift.2 ⟨r, hr, rfl⟩, h', hgrows, by simp⟩

theorem Yields.bind {m : Law α β} {f : β → Law α γ} {Q' : γ → (NodeId → ℕ) → Draft α → Prop}
    (h : Yields g height T b m level d Q)
    (hf : ∀ x level' d', Sturdy g height T level' d' → Grows height b level level' d d' →
      Q x level' d' → Yields g height T b (f x) level' d' Q') :
    Yields g height T b (m >>= f) level d Q' := by
  obtain ⟨r, level₁, d₁, hr, h₁, hg₁, hQ⟩ := h
  cases r with
  | none => exact ⟨none, level₁, d₁, lawRuns_bind.2 (Or.inl ⟨hr, rfl⟩), h₁, hg₁, by simp⟩
  | some x =>
    obtain ⟨s, level₂, d₂, hs, h₂, hg₂, hQ'⟩ := hf x level₁ d₁ h₁ hg₁ (hQ x rfl)
    exact ⟨s, level₂, d₂, lawRuns_bind.2 (Or.inr ⟨x, d₁, hr, hs⟩), h₂, hg₁.trans hg₂, hQ'⟩

theorem yields_mapM {f : NodeId → Law α (Operand α)} {l : List NodeId}
    (hf : ∀ o ∈ l, ∀ level d, Sturdy g height T level d →
      Yields g height T b (f o) level d fun a level d => a.Below g height b level d)
    (h : Sturdy g height T level d) :
    Yields g height T b (l.mapM f) level d fun as level d =>
      as.length = l.length ∧ ∀ a ∈ as, a.Below g height b level d := by
  induction l generalizing level d with
  | nil => exact .pure h (by simp)
  | cons o l ih =>
    rw [List.mapM_cons]
    refine (hf o (by simp) level d h).bind fun a level₁ d₁ h₁ _ ha => ?_
    refine (ih (fun o ho => hf o (.tail _ ho)) h₁).bind fun as level₂ d₂ h₂ hg₂ has => ?_
    refine .pure h₂ ⟨by simp [has.1], fun a' ha' => ?_⟩
    rcases List.mem_cons.1 ha' with rfl | ha'
    · exact hg₂.below ha
    · exact has.2 a' ha'

end Yields

@[simp] theorem below_number {b : ℕ} (x : α) : (number x).Below g height b level d := trivial

/-- The draft is still to get the expression at `id` into the basis. -/
structure Open (g : Generation α) (height : NodeId → ℕ) (T : Set NodeId) (id : NodeId)
    (level : NodeId → ℕ) (d : Draft α) : Prop extends Sturdy g height T level d where
  waiting : id ∉ T
  there : d.isRemoved id = false

theorem Open.grows {level' : NodeId → ℕ} {d' : Draft α} (h : Open g height T id level d)
    (h' : Sturdy g height T level' d') (hgrows : Grows height (height id) level level' d d') :
    Open g height T id level' d' :=
  ⟨h', h.waiting, by rw [hgrows.removed id le_rfl, h.there]⟩

/-- The law is done with the expression at `id`, or runs dry. -/
def Settles (g : Generation α) (height : NodeId → ℕ) (T : Set NodeId) (id : NodeId)
    (m : Law α Unit) (d : Draft α) : Prop :=
  ∃ r level' d', LawRuns m d r d' ∧
    ((r = none ∧ Sturdy g height T level' d') ∨
      (r = some () ∧ Sturdy g height (T ∪ {id}) level' d' ∧ d'.dirty))

theorem Yields.settles {m : Law α β} {f : β → Law α Unit}
    {Q : β → (NodeId → ℕ) → Draft α → Prop} (hopen : Open g height T id level d)
    (h : Yields g height T (height id) m level d Q)
    (hf : ∀ x level' d', Open g height T id level' d' →
      Grows height (height id) level level' d d' → Q x level' d' →
      Settles g height T id (f x) d') : Settles g height T id (m >>= f) d := by
  obtain ⟨r, level₁, d₁, hr, h₁, hgrows, hQ⟩ := h
  cases r with
  | none => exact ⟨none, level₁, d₁, lawRuns_bind.2 (Or.inl ⟨hr, rfl⟩), Or.inl ⟨rfl, h₁⟩⟩
  | some x =>
    obtain ⟨s, level₂, d₂, hs, hsettled⟩ := hf x level₁ d₁ (hopen.grows h₁ hgrows) hgrows (hQ x rfl)
    exact ⟨s, level₂, d₂, lawRuns_bind.2 (Or.inr ⟨x, d₁, hr, hs⟩), hsettled⟩

theorem Settles.get_bind {f : Draft α → Law α Unit} (h : Settles g height T id (f d) d) :
    Settles g height T id (get >>= f) d := by
  obtain ⟨r, level', d', hr, hrest⟩ := h
  exact ⟨r, level', d', lawRuns_get_bind.2 hr, hrest⟩

theorem yields_log (h : Sturdy g height T level d) (b : ℕ) (l : Level) (source message : String) :
    Yields g height T b (.lift (Draft.log l source message)) level d fun _ _ _ => True :=
  .lift ⟨⟨⟩, level, _, runs_log_of l source message d, h.noted _,
    ⟨fun _ _ h => h, fun _ h => ⟨h, rfl⟩, fun _ _ => rfl, fun _ _ h _ => h, fun _ _ => rfl,
      fun h => h⟩, trivial⟩

/-- An input node that is removed is done with. -/
theorem finish_of_removed (h : Sturdy g height T level d) (hremoved : d.isRemoved id) :
    Sturdy g height (T ∪ {id}) level d :=
  h.finish (fun _ => Or.inr hremoved) fun j _ _ hj _ => by
    rw [h.kept id j hj] at hremoved
    cases hremoved

section Laws

variable {op : Operator} {l : List (Operand α)} (hg : g.Sound) (hh : g.Heights height)
  (hn : g.node? id = some (.expression e))

include hg hh hn

theorem yields_build (h : Sturdy g height T level d) (hop : op.isCanonical)
    (harity : op.arity.accepts l.length)
    (hl : ∀ a ∈ l, a.Below g height (height id) level d) :
    Yields g height T (height id) (build id op l) level d fun a level d =>
      a.Below g height (height id) level d := by
  have hid := Generation.contains_of_node? hn
  obtain ⟨r, level', d', hr, h', hgrows, hlands⟩ : Advances g height T (height id)
      (Draft.createExpression op l false [id]) level d _ :=
    h.createExpression hg.toOrderly hh hid (hh.pos id hid) hl hop harity
  refine ⟨r.map .output, level', d', ?_, h', hgrows, fun a ha => ?_⟩
  · unfold build
    rw [OptionT.run_map]
    exact runs_map.2 ⟨r, hr, rfl⟩
  · obtain ⟨j, hj, rfl⟩ := Option.map_eq_some_iff.1 ha
    exact hlands j hj

theorem settles_become (h : Open g height T id level d) (hforeign : e.op.isCanonical = false)
    (hop : op.isCanonical) (harity : op.arity.accepts l.length)
    (hl : ∀ a ∈ l, a.Below g height (height id) level d) :
    Settles g height T id (become id op l) d := by
  have hne : op ≠ e.op := by
    rintro rfl
    rw [hop] at hforeign
    cases hforeign
  obtain ⟨r, level', d', hr, h', hdirty, hcases⟩ : ∃ r level' d', Runs (Draft.editExpression id
      { op := some op, operands := some l }) d r d' ∧ _ :=
    h.rewriteExpression hg.toOrderly hh hn h.waiting h.there rfl rfl (Or.inl hop) hl harity
      (by simp [hne])
  refine ⟨some (), level', d', lawRuns_discard_lift.2 ⟨r, hr, rfl⟩, Or.inr ⟨rfl, ?_, hdirty⟩⟩
  rcases hcases with ⟨k, e', -, hk, hnode, rfl⟩ | ⟨-, hremoved⟩
  · refine h'.finish (fun _ => Or.inl ⟨k, hk⟩) fun j e'' _ hj hj' => ?_
    cases hk.symm.trans hj
    cases hnode.symm.trans hj'
    exact hop
  · exact finish_of_removed h' hremoved

theorem below_inputs {l : List NodeId} (hl : ∀ o ∈ l, o ∈ e.operands) :
    ∀ a ∈ l.map Operand.input, a.Below g height (height id) level d := by
  intro a ha
  obtain ⟨o, ho, rfl⟩ := List.mem_map.1 ha
  exact hg.below hh hn (hl o ho)

theorem yields_negated (h : Sturdy g height T level d) :
    Yields g height T (height id) (e.operands.mapM fun o => build id .not [.input o]) level d
      fun as level d => as.length = e.operands.length ∧
        ∀ a ∈ as, a.Below g height (height id) level d := by
  refine yields_mapM (fun o ho level d h => yields_build hg hh hn h rfl rfl ?_) h
  simpa using hg.below hh hn ho

theorem yields_meetParts (h : Sturdy g height T level d) {a b : Operand α}
    (ha : a.Below g height (height id) level d) (hb : b.Below g height (height id) level d) :
    Yields g height T (height id) (meetParts id a b) level d fun as level d =>
      as.length = 2 ∧ ∀ a ∈ as, a.Below g height (height id) level d := by
  refine (yields_build hg hh hn h rfl rfl (by simp [ha, hb])).bind fun union level₁ d₁ h₁ hg₁ hu => ?_
  refine (yields_build hg hh hn h₁ rfl rfl (by simp [hg₁.below ha, hg₁.below hb])).bind
    fun delta level₂ d₂ h₂ hg₂ hd => ?_
  exact .pure h₂ ⟨rfl, by simp [hg₂.below hu, hd]⟩

/-- The induction is on the nodes that are left; there has to be one. -/
theorem settles_meet (hforeign : e.op.isCanonical = false) {acc : Operand α} {rest : List NodeId}
    (h : Open g height T id level d) (hacc : acc.Below g height (height id) level d)
    (hne : rest ≠ []) (hrest : ∀ o ∈ rest, o ∈ e.operands) :
    Settles g height T id (meet id acc rest) d := by
  induction rest generalizing acc level d with
  | nil => exact absurd rfl hne
  | cons next rest ih =>
    have hparts := yields_meetParts hg hh hn h.toSturdy hacc
      (Operand.below_input.2 (hg.below hh hn (hrest next (by simp))))
    cases rest with
    | nil =>
      refine hparts.settles h fun parts level₁ d₁ h₁ _ hp => ?_
      exact settles_become hg hh hn h₁ hforeign rfl (by simp [hp.1, Operator.arity, Arity.accepts]) hp.2
    | cons next' rest =>
      refine hparts.settles h fun parts level₁ d₁ h₁ _ hp => ?_
      refine (yields_build hg hh hn h₁.toSturdy rfl
        (by simp [hp.1, Operator.arity, Arity.accepts]) hp.2).settles h₁ fun acc' level₂ d₂ h₂ _ ha => ?_
      exact ih h₂ ha (by simp) fun o ho => hrest o (.tail _ ho)

end Laws

section Table

variable {a b first : NodeId} {rest operands : List NodeId} {asserted : Bool} (hg : g.Sound)
  (hh : g.Heights height) (h : Open g height T id level d)

include hg hh h

theorem settles_subtract
    (hn : g.node? id = some (.expression ⟨.subtract, first :: rest, asserted⟩)) :
    Settles g height T id (applyLaw id ⟨.subtract, first :: rest, asserted⟩) d := by
  refine (yields_mapM (fun o ho level d h => yields_build hg hh hn h rfl rfl ?_) h.toSturdy).settles h
    fun negated level' d' h' _ hneg => settles_become hg hh hn h' rfl rfl ?_ ?_
  · simpa using hg.below hh hn (.tail _ ho)
  · simp [Operator.arity, Arity.accepts]
  · rintro a (_ | ⟨_, ha⟩)
    · exact hg.below hh hn (o := first) (by simp)
    · exact hneg.2 a ha

theorem settles_divide (hn : g.node? id = some (.expression ⟨.divide, [a, b], asserted⟩)) :
    Settles g height T id (applyLaw id ⟨.divide, [a, b], asserted⟩) d := by
  have ha := hg.below hh hn (o := a) (by simp)
  have hb := hg.below hh hn (o := b) (by simp)
  refine (yields_build hg hh hn h.toSturdy rfl rfl (by simp [hb])).settles h
    fun inverse level' d' h' _ hinv => settles_become hg hh hn h' rfl rfl rfl ?_
  simp [ha, hinv]

theorem settles_and (hn : g.node? id = some (.expression ⟨.and, operands, asserted⟩)) :
    Settles g height T id (applyLaw id ⟨.and, operands, asserted⟩) d := by
  have harity : operands.length ≠ 0 := by
    have := (hg.node hn).arity _ rfl
    simp only [Operator.arity, Arity.accepts, decide_eq_true_eq] at this
    omega
  refine (yields_negated hg hh hn h.toSturdy).settles h fun negated level₁ d₁ h₁ _ hneg => ?_
  refine (yields_build hg hh hn h₁.toSturdy rfl ?_ hneg.2).settles h₁ fun any level₂ d₂ h₂ _ hany => ?_
  · simp only [Operator.arity, Arity.accepts, decide_eq_true_eq, hneg.1]
    omega
  · exact settles_become hg hh hn h₂ rfl rfl rfl (by simp [hany])

theorem settles_implies
    (hn : g.node? id = some (.expression ⟨.implies, first :: rest, asserted⟩)) :
    Settles g height T id (applyLaw id ⟨.implies, first :: rest, asserted⟩) d := by
  have hfirst := hg.below hh hn (o := first) (by simp)
  refine (yields_build hg hh hn h.toSturdy rfl rfl (by simp [hfirst])).settles h
    fun premise level' d' h' _ hp => settles_become hg hh hn h' rfl rfl ?_ ?_
  · simp [Operator.arity, Arity.accepts]
  · rintro a (_ | ⟨_, ha⟩)
    · exact hp
    · exact below_inputs hg hh hn (fun o ho => .tail _ ho) a ha

theorem settles_xor (hn : g.node? id = some (.expression ⟨.xor, operands, asserted⟩)) :
    Settles g height T id (applyLaw id ⟨.xor, operands, asserted⟩) d := by
  have hsome : 1 ≤ operands.length := by
    have := (hg.node hn).arity _ rfl
    simp only [Operator.arity, Arity.accepts, decide_eq_true_eq] at this
    omega
  have hor : ∀ l : List (Operand α), l.length = operands.length →
      Operator.or.arity.accepts l.length := fun l hl => by
    simpa [Operator.arity, Arity.accepts, hl] using hsome
  refine (yields_build hg hh hn h.toSturdy rfl (hor _ (by simp)) (below_inputs hg hh hn fun _ h => h)).settles
    h fun anyTrue level₁ d₁ h₁ _ hat => ?_
  refine (yields_build hg hh hn h₁.toSturdy rfl rfl (by simp [hat])).settles h₁
    fun noneTrue level₂ d₂ h₂ _ hnt => ?_
  refine (yields_negated hg hh hn h₂.toSturdy).settles h₂ fun negated level₃ d₃ h₃ hg₃ hneg => ?_
  refine (yields_build hg hh hn h₃.toSturdy rfl (hor _ hneg.1) hneg.2).settles h₃
    fun anyFalse level₄ d₄ h₄ hg₄ haf => ?_
  refine (yields_build hg hh hn h₄.toSturdy rfl rfl (by simp [haf])).settles h₄
    fun noneFalse level₅ d₅ h₅ hg₅ hnf => ?_
  have hnt₅ := (hg₃.trans (hg₄.trans hg₅)).below hnt
  refine (yields_build hg hh hn h₅.toSturdy rfl rfl (by simp [hnt₅, hnf])).settles h₅
    fun uniform level₆ d₆ h₆ _ hu => ?_
  exact settles_become hg hh hn h₆ rfl rfl rfl (by simp [hu])

/-- A relation that takes its operands in another order. -/
theorem settles_relation {op op' : Operator} {a' b' : NodeId}
    (hn : g.node? id = some (.expression ⟨op, [a, b], asserted⟩)) (hforeign : op.isCanonical = false)
    (hop : op'.isCanonical) (harity : op'.arity = .exactly 2) (ha : a' ∈ [a, b]) (hb : b' ∈ [a, b]) :
    Settles g height T id (become id op' [.input a', .input b']) d := by
  refine settles_become hg hh hn h hforeign hop (by rw [harity]; rfl) ?_
  simp [hg.below hh hn ha, hg.below hh hn hb]

theorem settles_relax {op : Operator} {a' b' : NodeId}
    (hn : g.node? id = some (.expression ⟨op, [a, b], asserted⟩)) (hforeign : op.isCanonical = false)
    (ha : a' ∈ [a, b]) (hb : b' ∈ [a, b]) : Settles g height T id (relax id a' b') d :=
  .get_bind ((yields_log h.toSturdy _ _ _ _).settles h fun _ _ _ h' _ _ =>
    settles_relation hg hh h' hn hforeign rfl rfl ha hb)

theorem settles_floor (hn : g.node? id = some (.expression ⟨.floor, [a], asserted⟩)) :
    Settles g height T id (applyLaw id ⟨.floor, [a], asserted⟩) d := by
  have ha := hg.below hh hn (o := a) (by simp)
  refine (yields_build hg hh hn h.toSturdy rfl rfl (by simp [ha])).settles h
    fun shifted level' d' h' _ hs => settles_become hg hh hn h' rfl rfl rfl (by simp [hs])

theorem settles_ceil (hn : g.node? id = some (.expression ⟨.ceil, [a], asserted⟩)) :
    Settles g height T id (applyLaw id ⟨.ceil, [a], asserted⟩) d := by
  have ha := hg.below hh hn (o := a) (by simp)
  refine (yields_build hg hh hn h.toSturdy rfl rfl (by simp [ha])).settles h
    fun negated level₁ d₁ h₁ _ hneg => ?_
  refine (yields_build hg hh hn h₁.toSturdy rfl rfl (by simp [hneg])).settles h₁
    fun shifted level₂ d₂ h₂ _ hs => ?_
  refine (yields_build hg hh hn h₂.toSturdy rfl rfl (by simp [hs])).settles h₂
    fun rounded level₃ d₃ h₃ _ hr => settles_become hg hh hn h₃ rfl rfl rfl (by simp [hr])

theorem settles_cos (hn : g.node? id = some (.expression ⟨.cos, [a], asserted⟩)) :
    Settles g height T id (applyLaw id ⟨.cos, [a], asserted⟩) d := by
  have ha := hg.below hh hn (o := a) (by simp)
  refine (yields_build hg hh hn h.toSturdy rfl rfl (by simp [ha])).settles h
    fun shifted level' d' h' _ hs => settles_become hg hh hn h' rfl rfl rfl (by simp [hs])

theorem settles_sqrt (hn : g.node? id = some (.expression ⟨.sqrt, [a], asserted⟩)) :
    Settles g height T id (applyLaw id ⟨.sqrt, [a], asserted⟩) d :=
  settles_become hg hh hn h rfl rfl rfl (by simp [hg.below hh hn (o := a) (by simp)])

theorem settles_difference
    (hn : g.node? id = some (.expression ⟨.difference, first :: a :: rest, asserted⟩)) :
    Settles g height T id (applyLaw id ⟨.difference, first :: a :: rest, asserted⟩) d := by
  refine (yields_build hg hh hn h.toSturdy rfl (by simp [Operator.arity, Arity.accepts])
    (below_inputs hg hh hn fun _ h => h)).settles h fun all level₁ d₁ h₁ _ hall => ?_
  refine (yields_build hg hh hn h₁.toSturdy rfl (by simp [Operator.arity, Arity.accepts])
    (below_inputs hg hh hn fun _ h => .tail _ h)).settles h₁ fun taken level₂ d₂ h₂ hg₂ ht => ?_
  exact settles_become hg hh hn h₂ rfl rfl rfl (by simp [hg₂.below hall, ht])

/-- The node gives way to a new parameter, which lies at the bottom. -/
theorem settles_witness {op : Operator} (least : Bool)
    (hn : g.node? id = some (.expression ⟨op, operands, asserted⟩))
    (harity : 1 ≤ operands.length) : Settles g height T id (witness id least operands) d := by
  have hid := Generation.contains_of_node? hn
  have hpos := hh.pos id hid
  refine (yields_build hg hh hn h.toSturdy rfl (by simpa [Operator.arity, Arity.accepts] using harity)
    (below_inputs hg hh hn fun _ h => h)).settles h fun union level₁ d₁ h₁ _ hu => ?_
  refine (Yields.lift (h₁.createParameter hg.toOrderly hid .real)).settles h₁
    fun out level₂ d₂ h₂ hg₂ hnew => ?_
  obtain ⟨hout, hspare, hlevel⟩ := hnew
  have hself : (Operand.output out : Operand α).Below g height (height id) level₂ d₂ :=
    ⟨Generation.contains_of_node? hout, by omega⟩
  have hu₂ := hg₂.below hu
  refine (Yields.discard (h₂.createExpression hg.toOrderly hh hid hpos
    (by simp only [List.forall_mem_cons]; exact ⟨hself, hu₂, by simp⟩) rfl rfl)).settles h₂
    fun _ level₃ d₃ h₃ hg₃ _ => ?_
  refine (Yields.discard (h₃.createExpression hg.toOrderly hh hid hpos
    (l := if least then [union, .output out] else [.output out, union]) ?_ rfl
    (by split_ifs <;> rfl))).settles h₃ fun _ level₄ d₄ h₄ hg₄ _ => ?_
  · have := hg₃.below hself
    have := hg₃.below hu₂
    split_ifs <;> simp only [List.forall_mem_cons] <;> exact ⟨by assumption, by assumption, by simp⟩
  · have hgrows := hg₃.trans hg₄
    obtain ⟨d₅, hr, h₅, hdirty⟩ := h₄.redirect hg.toOrderly hh hid h₄.waiting h₄.there
      (hgrows.node? out _ hout) (fun i hi => hspare i (hgrows.target i out hi hself.1))
      (by rw [hgrows.level_eq hself.1, hlevel])
    exact ⟨some (), level₄, _, lawRuns_bind.2 (Or.inr ⟨(), d₅, lawRuns_lift.2 ⟨_, hr, rfl⟩,
      lawRuns_get_bind.2 (lawRuns_lift.2 ⟨(), runs_log_of _ _ _ d₅, rfl⟩)⟩),
      Or.inr ⟨rfl, h₅.noted _, hdirty⟩⟩

omit hg hh in
theorem settles_discard (hn : g.node? id = some (.expression e)) (op : Operator) :
    Settles g height T id (discardUnsupported id op) d := by
  refine .get_bind ((yields_log h.toSturdy _ _ _ _).settles h fun _ level' d' h' _ _ => ?_)
  obtain ⟨d₁, hr, h₁, hdirty, hremoved⟩ := h'.remove (Generation.contains_of_node? hn)
  exact ⟨some (), level', d₁, lawRuns_lift.2 ⟨_, hr, rfl⟩,
    Or.inr ⟨rfl, finish_of_removed h₁ hremoved, hdirty⟩⟩

/-- The law of every operator outside the basis. The operands that it takes by place are there. -/
theorem settles_applyLaw (hn : g.node? id = some (.expression e))
    (hforeign : e.op.isCanonical = false) : Settles g height T id (applyLaw id e) d := by
  obtain ⟨op, operands, asserted⟩ := e
  have harity : op.arity.accepts operands.length := (hg.node hn).arity _ rfl
  cases op
  case subtract =>
    obtain ⟨first, rest, rfl⟩ := Arity.eq_cons harity
    exact settles_subtract hg hh h hn
  case divide =>
    obtain ⟨a, b, rfl⟩ := Arity.eq_pair harity
    exact settles_divide hg hh h hn
  case and => exact settles_and hg hh h hn
  case implies =>
    obtain ⟨first, rest, rfl⟩ := Arity.eq_cons harity
    exact settles_implies hg hh h hn
  case xor => exact settles_xor hg hh h hn
  case lessOrEqual =>
    obtain ⟨a, b, rfl⟩ := Arity.eq_pair harity
    exact settles_relation hg hh h hn rfl rfl rfl (by simp) (by simp)
  case isSuperset =>
    obtain ⟨a, b, rfl⟩ := Arity.eq_pair harity
    exact settles_relation hg hh h hn rfl rfl rfl (by simp) (by simp)
  case greaterThan =>
    obtain ⟨a, b, rfl⟩ := Arity.eq_pair harity
    exact settles_relax hg hh h hn rfl (by simp) (by simp)
  case lessThan =>
    obtain ⟨a, b, rfl⟩ := Arity.eq_pair harity
    exact settles_relax hg hh h hn rfl (by simp) (by simp)
  case floor =>
    obtain ⟨a, rfl⟩ := Arity.eq_singleton harity
    exact settles_floor hg hh h hn
  case ceil =>
    obtain ⟨a, rfl⟩ := Arity.eq_singleton harity
    exact settles_ceil hg hh h hn
  case cos =>
    obtain ⟨a, rfl⟩ := Arity.eq_singleton harity
    exact settles_cos hg hh h hn
  case sqrt =>
    obtain ⟨a, rfl⟩ := Arity.eq_singleton harity
    exact settles_sqrt hg hh h hn
  case min => exact settles_witness hg hh h true hn (of_decide_eq_true harity)
  case max => exact settles_witness hg hh h false hn (of_decide_eq_true harity)
  case difference =>
    obtain ⟨first, a, rest, rfl⟩ := Arity.eq_cons_cons harity
    exact settles_difference hg hh h hn
  case intersection =>
    obtain ⟨first, a, rest, rfl⟩ := Arity.eq_cons_cons harity
    exact settles_meet hg hh hn rfl h (hg.below hh hn (by simp)) (by simp) fun _ ho => .tail _ ho
  case cardinality => exact settles_discard h hn _
  case differentiate => exact settles_discard h hn _
  case integrate => exact settles_discard h hn _
  all_goals cases hforeign

end Table

theorem canonize_total (hg : g.Sound) (hh : g.Heights height) (h : Sturdy g height T level d)
    (hT : id ∉ T) (hn : g.node? id = some (.expression e)) :
    ∃ level' d', Runs (canonize id e) d ⟨⟩ d' ∧ Sturdy g height (T ∪ {id}) level' d' ∧
      (d.dirty → d'.dirty) ∧ (e.op.isCanonical = false → d'.dirty) := by
  unfold canonize
  simp only [runs_get_bind]
  by_cases hcanon : e.op.isCanonical
  · have hfamiliar : ¬ g.Foreign id := by
      rintro ⟨e', he', hc⟩
      cases hn.symm.trans he'
      rw [hcanon] at hc
      cases hc
    refine ⟨level, d, ?_, h.finish (fun hf => absurd hf hfamiliar) fun _ _ hf => absurd hf hfamiliar,
      fun h => h, by simp [hcanon]⟩
    rw [if_pos (by simp [hcanon])]
    exact runs_pure.2 ⟨rfl, rfl⟩
  by_cases hremoved : d.isRemoved id
  · refine ⟨level, d, ?_, finish_of_removed h hremoved, fun h => h, fun _ => h.clean id hremoved⟩
    rw [if_pos (by simp [hremoved])]
    exact runs_pure.2 ⟨rfl, rfl⟩
  · rw [if_neg (by simp [hcanon, hremoved])]
    obtain ⟨r, level₁, d₁, hr, ⟨rfl, h₁⟩ | ⟨rfl, h₁, hdirty⟩⟩ := settles_applyLaw hg hh
      ⟨h, hT, Bool.eq_false_iff.2 hremoved⟩ hn (Bool.eq_false_iff.2 hcanon)
    · obtain ⟨d₂, hr₂, h₂, hdirty, hrem⟩ := h₁.remove (Generation.contains_of_node? hn)
      exact ⟨level₁, d₂, runs_bind.2 ⟨none, d₁, hr, hr₂⟩, finish_of_removed h₂ hrem, fun _ => hdirty,
        fun _ => hdirty⟩
    · exact ⟨level₁, d₁, runs_bind.2 ⟨some (), d₁, hr, runs_pure.2 ⟨rfl, rfl⟩⟩, h₁, fun _ => hdirty,
        fun _ => hdirty⟩

theorem gives_operators (hg : g.Sound) : (operators : Pass α).Gives g fun rev =>
    (∀ id, ¬ rev.generation.Foreign id) ∧ (rev.dirty = false → ∀ id, ¬ g.Foreign id) := by
  refine gives_of_run hg fun height hh deduplicate journal => ?_
  obtain ⟨d, hr, level, h, hdirty⟩ := exists_runs_forM (l := g.expressions)
    (f := fun x => canonize x.1 x.2)
    (P := fun done d => ∃ level, Sturdy g height {i | i ∈ done.map (·.1)} level d ∧
      ∀ x ∈ done, x.2.op.isCanonical = false → d.dirty)
    (fun done x rest hl d ⟨level, h, hdirty⟩ => by
      have hx : x ∈ g.expressions := hl ▸ by simp
      have hT : x.1 ∉ {i | i ∈ done.map (·.1)} := by
        have hnd := Generation.nodup_expressions (g := g)
        rw [← hl, List.map_append, List.nodup_append] at hnd
        exact fun hmem => hnd.2.2 x.1 hmem x.1 (by simp) rfl
      obtain ⟨level', d', hr, h', hmono, hforeign⟩ := canonize_total hg hh h hT
        (Generation.mem_expressions.1 hx)
      refine ⟨d', hr, level', ?_, fun y hy hc => ?_⟩
      · have hset : {i | i ∈ (done ++ [x]).map (·.1)} = {i | i ∈ done.map (·.1)} ∪ {x.1} := by
          ext i
          simp only [List.map_append, List.mem_append, List.map_cons, List.map_nil,
            List.mem_singleton]
          rfl
        rwa [hset]
      · rcases List.mem_append.1 hy with hy | hy
        · exact hmono (hdirty y hy hc)
        · rw [List.mem_singleton.1 hy] at hc
          exact hforeign hc)
    ⟨fun _ => 0, by simpa using sturdy_start g height _ deduplicate journal, by simp⟩
  refine ⟨_, level, d, runs_get_bind.2 hr, h, fun level' d' h' hmono => ⟨?_, ?_⟩⟩
  · rintro j ⟨e, hj, hc⟩
    obtain ⟨i, hi, ⟨e', hn, -⟩, -⟩ := h'.canonical j e hj hc
    exact hi (List.mem_map.2 ⟨(i, e'), Generation.mem_expressions.2 hn, rfl⟩)
  · rintro hclean id ⟨e, hn, hc⟩
    have hd := hmono (hdirty (id, e) (Generation.mem_expressions.2 hn) hc)
    rw [hd] at hclean
    cases hclean

end Pass

end ParameterSolver
