import ParameterSolver.Proofs.Draft.Sturdy

/-! Copies of input nodes and new nodes. On a sturdy draft they can always be made, and leave it sturdy;
nothing that is there goes, and only the nodes below what is asked for are touched. -/

namespace ParameterSolver

variable {α : Type} [Scalar α]

/-- The operand is there, and lies below `b`. -/
def Operand.Below (g : Generation α) (height : NodeId → ℕ) (b : ℕ) (level : NodeId → ℕ)
    (d : Draft α) : Operand α → Prop
  | .input o => g.contains o ∧ height o < b
  | .output c => d.output.contains c ∧ level c < b
  | .literal _ => True

section Below

omit [Scalar α]

variable {g : Generation α} {height level : NodeId → ℕ} {b : ℕ} {d : Draft α} {o : NodeId}

@[simp] theorem Operand.below_input :
    (Operand.input o).Below g height b level d ↔ g.contains o ∧ height o < b := Iff.rfl

@[simp] theorem Operand.below_output :
    (Operand.output o).Below g height b level d ↔ d.output.contains o ∧ level o < b := Iff.rfl

@[simp] theorem Operand.below_literal (s : ValueSet α) :
    (Operand.literal s).Below g height b level d := trivial

end Below

namespace Draft

variable {height level level' : NodeId → ℕ} {T : Set NodeId} {b b' : ℕ} {d d' : Draft α}
  {g o' : Generation α} {id j : NodeId} {n : Node α} {p : Provenance} {β γ : Type}

omit [Scalar α] in
theorem Grows.below (h : Grows height b level level' d d') {a : Operand α}
    (ha : a.Below g height b' level d) : a.Below g height b' level' d' := by
  cases a with
  | input o => exact ha
  | output c =>
    refine ⟨h.contains ha.1, ?_⟩
    rw [h.level_eq ha.1]
    exact ha.2
  | literal s => exact ha

/-- The edit gives a result of which `Q` holds. Nothing goes, and only input nodes below `b` are
touched. -/
def Advances (g : Generation α) (height : NodeId → ℕ) (T : Set NodeId) (b : ℕ) (m : Edit α β)
    (level : NodeId → ℕ) (d : Draft α) (Q : β → (NodeId → ℕ) → Draft α → Prop) : Prop :=
  ∃ r level' d', Runs m d r d' ∧ Sturdy g height T level' d' ∧ Grows height b level level' d d' ∧
    Q r level' d'

/-- The output node, if there is one, is there and lies below `b`. -/
def Lands (b : ℕ) (r : Option NodeId) (level : NodeId → ℕ) (d : Draft α) : Prop :=
  ∀ j ∈ r, d.output.contains j ∧ level j < b

theorem Advances.pure {r : β} {Q : β → (NodeId → ℕ) → Draft α → Prop}
    (h : Sturdy g height T level d) (hQ : Q r level d) :
    Advances g height T b (Pure.pure r) level d Q :=
  ⟨r, level, d, runs_pure.2 ⟨rfl, rfl⟩, h, .refl b level d, hQ⟩

theorem Advances.get_bind {f : Draft α → Edit α β} {Q : β → (NodeId → ℕ) → Draft α → Prop}
    (h : Advances g height T b (f d) level d Q) : Advances g height T b (get >>= f) level d Q := by
  obtain ⟨r, level', d', hr, hrest⟩ := h
  exact ⟨r, level', d', runs_get_bind.2 hr, hrest⟩

theorem Advances.bind {m : Edit α β} {f : β → Edit α γ} {Q : β → (NodeId → ℕ) → Draft α → Prop}
    {Q' : γ → (NodeId → ℕ) → Draft α → Prop} (h : Advances g height T b m level d Q)
    (hf : ∀ r level' d', Sturdy g height T level' d' → Grows height b level level' d d' →
      Q r level' d' → Advances g height T b (f r) level' d' Q') :
    Advances g height T b (m >>= f) level d Q' := by
  obtain ⟨r, level₁, d₁, hr, h₁, hg₁, hQ⟩ := h
  obtain ⟨s, level₂, d₂, hs, h₂, hg₂, hQ'⟩ := hf r level₁ d₁ h₁ hg₁ hQ
  exact ⟨s, level₂, d₂, runs_bind.2 ⟨r, d₁, hr, hs⟩, h₂, hg₁.trans hg₂, hQ'⟩

theorem Advances.mono {m : Edit α β} {Q Q' : β → (NodeId → ℕ) → Draft α → Prop}
    (h : Advances g height T b m level d Q) (hb : b ≤ b')
    (hQ : ∀ r level' d', Sturdy g height T level' d' → Grows height b level level' d d' →
      Q r level' d' → Q' r level' d') : Advances g height T b' m level d Q' := by
  obtain ⟨r, level₁, d₁, hr, h₁, hg₁, hQ₁⟩ := h
  exact ⟨r, level₁, d₁, hr, h₁, hg₁.mono hb, hQ r level₁ d₁ h₁ hg₁ hQ₁⟩

/-- Collecting results, where what each step needs outlasts the steps before it. -/
theorem advances_collect {f : β → Edit α (Option NodeId)} {l : List β}
    {P : β → (NodeId → ℕ) → Draft α → Prop}
    (hP : ∀ x level level' d d', Grows height b level level' d d' → P x level d → P x level' d')
    (hstep : ∀ x ∈ l, ∀ level d, Sturdy g height T level d → P x level d →
      Advances g height T b (f x) level d (Lands b))
    (h : Sturdy g height T level d) (hl : ∀ x ∈ l, P x level d) :
    Advances g height T b (collect f l) level d fun r level d =>
      ∀ js ∈ r, js.length = l.length ∧ ∀ j ∈ js, d.output.contains j ∧ level j < b := by
  induction l generalizing level d with
  | nil =>
    refine .pure h fun js hjs => ?_
    cases hjs
    exact ⟨rfl, by simp⟩
  | cons x l ih =>
    refine (hstep x (by simp) level d h (hl x (by simp))).bind fun r level₁ d₁ h₁ hg₁ hr => ?_
    cases r with
    | none => exact .pure h₁ (by simp)
    | some y =>
      refine (ih (fun z hz => hstep z (.tail _ hz)) h₁ fun z hz =>
        hP z _ _ _ _ hg₁ (hl z (.tail _ hz))).bind fun rs level₂ d₂ h₂ hg₂ hrs => ?_
      refine .pure h₂ fun js hjs => ?_
      obtain ⟨ks, rfl, rfl⟩ := Option.map_eq_some_iff.1 hjs
      obtain ⟨hlen, hks⟩ := hrs ks rfl
      obtain ⟨hy, hlevel⟩ := hr y rfl
      refine ⟨by simp [hlen], fun j hj => ?_⟩
      rcases List.mem_cons.1 hj with rfl | hj
      · exact ⟨hg₂.contains hy, by rwa [hg₂.level_eq hy]⟩
      · exact hks j hj

omit [Scalar α] in
theorem runs_insert_of_ok (h : d.output.insert n p = .ok (j, o')) :
    Runs (Draft.insert n p) d j { d with output := o' } := by
  unfold Draft.insert
  rw [runs_get_bind, h]
  exact runs_set_bind.2 (runs_pure.2 ⟨rfl, rfl⟩)

/-- The copy of an input node that has none, whose operands are copied. -/
theorem Sturdy.insertCopy (h : Sturdy g height T level d) (hid : g.contains id)
    (hremoved : d.isRemoved id = false) (hmap : d.mapping.get? id = none) (hn : n.Proper)
    (hp : ∃ o, o ∈ p) (hops : ∀ o ∈ n.operands, d.output.contains o ∧ level o < height id)
    (hpar : ∀ p, g.node? id = some (.parameter p) → ∃ p', n = .parameter p')
    (hcanon : ∀ e, n = .expression e → e.op.isCanonical = false →
      id ∉ T ∧ g.Foreign id) :
    Advances g height T (height id + 1) (Draft.insertCopy id n p) level d
      (Lands (height id + 1)) := by
  obtain ⟨j, o', hins, hi, ho'⟩ := h.orderly.insert hn hp fun o ho => (hops o ho).1
  have h' := h.insertFor hi ho' (fun o ho => (hops o ho).2) hid hremoved hmap hpar hcanon
  have hg : Grows height (height id + 1) level (Function.update level j (height id)) d
    { d with output := o' } := grows_insert hi
  refine ⟨some j, _, _, ?_, h', ⟨hg.node?, hg.issued, fun i hi' => ?_, fun i k hk hc => ?_,
    hg.removed, hg.dirty⟩, ?_⟩
  · unfold Draft.insertCopy
    rw [runs_bind]
    exact ⟨j, _, runs_insert_of_ok hins, runs_modify_bind.2 (runs_pure.2 ⟨rfl, rfl⟩)⟩
  · have hne : i ≠ id := by
      rintro rfl
      omega
    exact NodeMap.get?_insert_other hne
  · rcases NodeMap.get?_insert_cases hk with ⟨-, hkj⟩ | hk
    · exact absurd hkj (hi.ne_of_contains hc)
    · exact hk
  · rintro k ⟨⟩
    refine ⟨Generation.contains_of_node? hi.node?_self, ?_⟩
    rw [Function.update_self]
    omega

/-- An input node with an operand that is gone is removed, if it has no output node. -/
theorem Sturdy.dropCopy (h : Sturdy g height T level d) (hid : g.contains id)
    (hmap : d.mapping.get? id = none) :
    Advances g height T (height id + 1) (Draft.dropCopy id) level d (Lands (height id + 1)) := by
  have hnull := Generation.ne_null_of_contains hid
  have hrem : ∀ i, (d.removed.insert id ()).contains i = (d.removed.contains i || i = id) := by
    intro i
    rw [Bool.eq_iff_iff, NodeMap.contains_insert hnull]
    simp
  refine ⟨none, level, { d with
      journal := d.journal.add .debug source
        ("dropping " ++ d.input.describe id ++ " since one of its operands was removed")
      removed := d.removed.insert id ()
      dirty := true }, ?_, ?_, ?_, by simp [Lands]⟩
  · unfold Draft.dropCopy log markRemoved markDirty
    rw [runs_get_bind, runs_modify_bind, runs_modify_bind, runs_modify_bind]
    exact runs_pure.2 ⟨rfl, rfl⟩
  · refine { h with
      kept := fun i k hk => ?_, done := fun i hi hforeign => ?_, clean := fun _ _ => rfl }
    · have hne : i ≠ id := by
        rintro rfl
        exact absurd (hmap.symm.trans hk) (by simp)
      simpa [isRemoved, hrem, hne] using h.kept i k hk
    · refine (h.done i hi hforeign).imp_right fun hr => ?_
      simp only [isRemoved] at hr ⊢
      rw [hrem, hr]
      rfl
  · refine ⟨fun _ _ h => h, fun _ h => ⟨h, rfl⟩, fun _ _ => rfl, fun _ _ h _ => h, fun i hi => ?_,
      fun _ => rfl⟩
    have hne : i ≠ id := by
      rintro rfl
      omega
    simp [isRemoved, hrem, hne]

/-- Copying an input node with its operands. The induction is on the fuel, which the heights of the
operands stay below. -/
theorem Sturdy.copyWith (hg : g.Orderly) (hh : g.Heights height) {fuel : ℕ}
    (h : Sturdy g height T level d) (hid : g.contains id) (hfuel : height id ≤ fuel) :
    Advances g height T (height id + 1) (Draft.copyWith fuel id) level d
      (Lands (height id + 1)) := by
  induction fuel generalizing id level d with
  | zero =>
    have := hh.pos id hid
    omega
  | succ fuel ih =>
    obtain ⟨entry, hentry⟩ := NodeMap.contains_iff.1 hid
    have hn : g.node? id = some entry.node := by
      rw [Generation.node?, Generation.get?, hentry]
      rfl
    have hproper := hg.entries id entry hentry
    have hget : d.input.get? id = some entry := by rw [h.input]; exact hentry
    unfold Draft.copyWith
    refine .get_bind ?_
    split_ifs with hremoved
    · exact .pure h (by simp [Lands])
    rw [h.mapped?_eq]
    cases hmap : d.mapping.get? id with
    | some j =>
      refine .pure h ?_
      rintro k ⟨⟩
      exact ⟨(h.mapped id j hmap).2, Nat.lt_succ_of_le (h.low id j hmap)⟩
    | none =>
    rw [hget]
    dsimp only
    have hcanon : ∀ e, entry.node = .expression e → e.op.isCanonical = false →
        id ∉ T ∧ g.Foreign id := by
      intro e he hc
      have hforeign : g.Foreign id := ⟨e, by rw [hn, he], hc⟩
      refine ⟨fun hT => ?_, hforeign⟩
      rcases h.done id hT hforeign with ⟨k, hk⟩ | hrem
      · rw [hmap] at hk
        cases hk
      · exact hremoved hrem
    split
    · rename_i e he
      have hops : ∀ o ∈ e.operands, g.contains o ∧ height o < height id := by
        intro o ho
        have hn' : g.node? id = some (.expression e) := by rw [hn, he]
        refine ⟨hg.contains hn' ho, hh.operand id o ?_⟩
        rw [Generation.operands_of_node? hn']
        exact ho
      have hcollect : Advances g height T (height id) (collect (Draft.copyWith fuel) e.operands)
          level d _ := advances_collect (P := fun _ _ _ => True) (fun _ _ _ _ _ _ hP => hP)
        (fun o ho level d h _ => by
          have hlt := (hops o ho).2
          refine (ih h (hops o ho).1 (by omega)).mono hlt fun r level' d' _ _ hr j hj => ?_
          exact ⟨(hr j hj).1, by have := (hr j hj).2; omega⟩) h (fun _ _ => trivial)
      refine (hcollect.mono (Nat.le_succ _) fun r level' d' _ hgrows hr =>
        show (∀ js ∈ r, js.length = e.operands.length ∧ ∀ j ∈ js, d'.output.contains j ∧
          level' j < height id) ∧ d'.isRemoved id = false ∧ d'.mapping.get? id = none from ⟨hr, ?_, ?_⟩).bind
        fun r level₁ d₁ h₁ _ hcopied => ?_
      · rw [hgrows.removed id (le_refl _)]
        exact Bool.eq_false_iff.2 hremoved
      · rw [hgrows.mapping id (le_refl _), hmap]
      · obtain ⟨hr, hremoved₁, hmap₁⟩ := hcopied
        cases r with
        | none => exact h₁.dropCopy hid hmap₁
        | some operands =>
          obtain ⟨hlen, hlow⟩ := hr operands rfl
          refine h₁.insertCopy hid hremoved₁ hmap₁ (Node.proper_expression ?_) hproper.origin hlow ?_ ?_
          · rw [hlen]
            exact hproper.node.arity e he
          · intro p hp
            rw [hn, he] at hp
            cases hp
          · intro e' he' hc
            cases he'
            exact hcanon e he hc
    · rename_i hleaf
      refine h.insertCopy hid (Bool.eq_false_iff.2 hremoved) hmap hproper.node hproper.origin ?_ ?_ hcanon
      · cases hnode : entry.node with
        | expression e => exact absurd hnode (hleaf e)
        | _ => simp [Node.operands]
      · intro p hp
        rw [hn] at hp
        exact ⟨p, Option.some.inj hp⟩

theorem Sturdy.copy (hg : g.Orderly) (hh : g.Heights height) (h : Sturdy g height T level d)
    (hid : g.contains id) :
    Advances g height T (height id + 1) (Draft.copy id) level d (Lands (height id + 1)) := by
  refine .get_bind (h.copyWith hg hh hid ?_)
  rw [h.input]
  exact (hh.le_size id).trans (Nat.le_succ _)

omit [Scalar α] in
theorem runs_log_of (level : Level) (source message : String) (d : Draft α) :
    Runs (log level source message) d ⟨⟩
      { d with journal := d.journal.add level source message } := runs_modify.2 rfl

theorem runs_inputProvenance (hg : g.Orderly) (hd : d.input = g) (hid : g.contains id) :
    ∃ p, (∃ o, o ∈ p) ∧ Runs (Draft.inputProvenance id) d p d := by
  obtain ⟨p, hp, ho⟩ := hg.origin hid
  refine ⟨p, ho, ?_⟩
  unfold Draft.inputProvenance
  rw [runs_get_bind, hd, hp]
  exact runs_pure.2 ⟨rfl, rfl⟩

theorem runs_provenanceOf (hg : g.Orderly) (hd : d.input = g) {sources : List NodeId}
    (hne : sources ≠ []) (hs : ∀ id ∈ sources, g.contains id) :
    ∃ p, (∃ o, o ∈ p) ∧ Runs (Draft.provenanceOf sources) d p d := by
  have hfold : ∀ (l : List NodeId) (q : Provenance), (∀ id ∈ l, g.contains id) →
      ∃ p, Runs (l.foldlM (fun p id => return p.union (← Draft.inputProvenance id)) q) d p d ∧
        (((∃ o, o ∈ q) ∨ l ≠ []) → ∃ o, o ∈ p) := by
    intro l
    induction l with
    | nil => exact fun q _ => ⟨q, runs_pure.2 ⟨rfl, rfl⟩, fun hq => hq.resolve_right (by simp)⟩
    | cons id l ih =>
      intro q hl
      obtain ⟨p₁, ⟨o, ho⟩, hp₁⟩ := runs_inputProvenance hg hd (hl id (by simp))
      obtain ⟨p, hp, hne⟩ := ih (q.union p₁) fun i hi => hl i (.tail _ hi)
      refine ⟨p, ?_, fun _ => hne (Or.inl ⟨o, SortedSet.mem_union.2 (Or.inr ho)⟩)⟩
      rw [List.foldlM_cons, runs_bind]
      exact ⟨q.union p₁, d, runs_bind.2 ⟨p₁, d, hp₁, runs_pure.2 ⟨rfl, rfl⟩⟩, hp⟩
  obtain ⟨p, hp, ho⟩ := hfold sources .empty hs
  have ho := ho (Or.inr hne)
  refine ⟨p, ho, ?_⟩
  unfold Draft.provenanceOf
  rw [runs_bind]
  refine ⟨p, d, hp, ?_⟩
  rw [SortedSet.isEmpty_eq_false_iff.2 ho]
  exact runs_pure.2 ⟨rfl, rfl⟩

/-- The least level that is not below any of the given nodes. -/
theorem exists_ceiling (level : NodeId → ℕ) (l : List NodeId) : ∃ x, (∀ o ∈ l, level o ≤ x) ∧
    ∀ c, 0 < c → (∀ o ∈ l, level o < c) → x < c := by
  induction l with
  | nil => exact ⟨0, by simp, fun c hc _ => hc⟩
  | cons o l ih =>
    obtain ⟨x, hle, hlt⟩ := ih
    refine ⟨max (level o) x, fun i hi => ?_, fun c hc hl => ?_⟩
    · rcases List.mem_cons.1 hi with rfl | hi
      · exact le_max_left _ _
      · exact (hle i hi).trans (le_max_right _ _)
    · exact max_lt (hl o (by simp)) (hlt c hc fun i hi => hl i (.tail _ hi))

/-- What is known of a new output node that stands for no input node. -/
structure Fresh (d : Draft α) (n : Node α) (j : NodeId) (level : NodeId → ℕ) (d' : Draft α) :
    Prop where
  node? : d'.output.node? j = some n
  spare : ∀ i, d'.mapping.get? i ≠ some j
  level_lt : ∀ c, 0 < c → (∀ o ∈ n.operands, level o < c) → level j < c
  created : d'.created = d.created
  deduplicate : d'.deduplicate = d.deduplicate

theorem Sturdy.insertSpare (h : Sturdy g height T level d) (hn : n.Proper) (hp : ∃ o, o ∈ p)
    (hops : ∀ o ∈ n.operands, d.output.contains o)
    (hcanon : ∀ e, n = .expression e → e.op.isCanonical) :
    Advances g height T b (Draft.insert n p) level d (Fresh d n) := by
  obtain ⟨j, o', hins, hi, ho'⟩ := h.orderly.insert hn hp hops
  obtain ⟨x, hle, hlt⟩ := exists_ceiling level n.operands
  refine ⟨j, _, _, runs_insert_of_ok hins, h.insert hi ho' hle hcanon, grows_insert hi,
    hi.node?_self, h.spare_fresh hi, fun c hc hl => ?_, rfl, rfl⟩
  rw [Function.update_self]
  refine hlt c hc fun o ho => ?_
  have hlo := hl o ho
  rwa [update_level hi (hops o ho)] at hlo

theorem Sturdy.resolve (hg : g.Orderly) (hh : g.Heights height) (h : Sturdy g height T level d)
    (hp : ∃ o, o ∈ p) (hb : 0 < b) {a : Operand α} (ha : a.Below g height b level d) :
    Advances g height T b (Draft.resolve p a) level d (Lands b) := by
  cases a with
  | input o =>
    refine (h.copy hg hh ha.1).mono ha.2 fun r level' d' _ _ hr j hj => ⟨(hr j hj).1, ?_⟩
    exact (hr j hj).2.trans_le ha.2
  | output c =>
    refine .get_bind ?_
    rw [if_pos ha.1]
    refine .pure h ?_
    rintro j ⟨⟩
    exact ha
  | literal s =>
    have hins : Advances g height T b (Draft.insert (.literal s none) p) level d _ :=
      h.insertSpare (Node.proper_literal s none) hp (by simp [Node.operands]) (by simp)
    refine (hins.bind fun j level' d' h' _ hj => .pure h' ?_ : Advances g height T b
      (Draft.insert (.literal s none) p >>= fun j => Pure.pure (some j)) level d (Lands b))
    rintro k ⟨⟩
    exact ⟨Generation.contains_of_node? hj.node?, hj.level_lt b hb (by simp [Node.operands])⟩

theorem Sturdy.resolveAll (hg : g.Orderly) (hh : g.Heights height) (h : Sturdy g height T level d)
    (hp : ∃ o, o ∈ p) (hb : 0 < b) {l : List (Operand α)}
    (hl : ∀ a ∈ l, a.Below g height b level d) :
    Advances g height T b (collect (Draft.resolve p) l) level d fun r level d =>
      ∀ js ∈ r, js.length = l.length ∧ ∀ j ∈ js, d.output.contains j ∧ level j < b :=
  advances_collect (P := fun a => a.Below g height b) (fun _ _ _ _ _ hg' ha => hg'.below ha)
    (fun _ _ _ _ h ha => h.resolve hg hh hp hb ha) h hl

theorem Sturdy.addProvenance (h : Sturdy g height T level d) (c : NodeId) (p : Provenance) :
    Sturdy g height T level { d with output := d.output.addProvenance c p } := by
  have hcontains : ∀ j, (d.output.addProvenance c p).contains j ↔ d.output.contains j := fun j => by
    rw [Generation.contains_iff, Generation.contains_iff, Generation.node?_addProvenance]
  refine { h with
    orderly := h.orderly.addProvenance
    mapped := fun i j hj => ⟨(h.mapped i j hj).1, (hcontains j).2 (h.mapped i j hj).2⟩
    descends := fun j o ho => h.descends j o ?_
    parameters := fun i j p hj hp => ?_
    created := fun e c hc => ?_
    canonical := fun j e hj => h.canonical j e ?_ }
  · rwa [← Generation.operands_congr (Generation.node?_addProvenance j)]
  · obtain ⟨p', hp'⟩ := h.parameters i j p hj hp
    exact ⟨p', by rw [Generation.node?_addProvenance, hp']⟩
  · obtain ⟨hissued, hops, hlt⟩ := h.created e c hc
    exact ⟨hissued.addProvenance, fun o ho => (hops o ho).addProvenance, hlt⟩
  · rwa [← Generation.node?_addProvenance]

omit [Scalar α] in
theorem grows_addProvenance (c : NodeId) (p : Provenance) :
    Grows height b level level d { d with output := d.output.addProvenance c p } where
  node? j n hj := by rw [Generation.node?_addProvenance, hj]
  issued _ hj := ⟨hj.addProvenance, rfl⟩
  mapping _ _ := rfl
  target _ _ hj _ := hj
  removed _ _ := rfl
  dirty hd := hd

omit [Scalar α] in
theorem Grows.markDirty : Grows height b level level d { d with dirty := true } :=
  ⟨fun _ _ h => h, fun _ h => ⟨h, rfl⟩, fun _ _ => rfl, fun _ _ h _ => h, fun _ _ => rfl,
    fun _ => rfl⟩

omit [Scalar α] in
theorem mem_created_of_reusable? {e : Expression} {c : NodeId} (h : d.reusable? e = some c) :
    (e, c) ∈ d.created ∧ d.output.contains c := by
  unfold reusable? at h
  split_ifs at h
  obtain ⟨hl, hc⟩ := Option.filter_eq_some_iff.1 h
  exact ⟨mem_of_lookup hl, hc⟩

/-- The expression can be used again from now on. -/
theorem Sturdy.remember {e : Expression} {c : NodeId} (h : Sturdy g height T level d)
    (hc : d.output.Issued c) (ho : ∀ o ∈ e.operands, d.output.Issued o)
    (hlt : ∀ b, 0 < b → (∀ o ∈ e.operands, level o < b) → level c < b) :
    Sturdy g height T level { d with created := (e, c) :: d.created } :=
  { h with
    created := fun e' c' hmem => by
      rcases List.mem_cons.1 hmem with heq | hmem
      · cases heq
        exact ⟨hc, ho, hlt⟩
      · exact h.created e' c' hmem }

/-- A new expression over operands below `b` lies below `b`, and so does one that is used again. -/
theorem Sturdy.createExpression (hg : g.Orderly) (hh : g.Heights height)
    (h : Sturdy g height T level d) {op : Operator} {l : List (Operand α)} {asserted : Bool}
    (hid : g.contains id) (hb : 0 < b) (hl : ∀ a ∈ l, a.Below g height b level d)
    (hop : op.isCanonical) (harity : op.arity.accepts l.length) :
    Advances g height T b (Draft.createExpression op l asserted [id]) level d (Lands b) := by
  obtain ⟨p, hp, hprov⟩ := runs_provenanceOf hg h.input (List.cons_ne_nil id [])
    (fun i hi => (List.mem_singleton.1 hi) ▸ hid)
  have hprov' : Advances g height T b (Draft.provenanceOf [id]) level d
      fun q level' d' => (∃ o, o ∈ q) ∧ level' = level ∧ d' = d :=
    ⟨p, level, d, hprov, h, .refl b level d, hp, rfl, rfl⟩
  refine hprov'.bind ?_
  rintro q level' d' - - ⟨hq, rfl, rfl⟩
  refine (h.resolveAll hg hh hq hb hl).bind fun r level₁ d₁ h₁ _ hr => ?_
  cases r with
  | none => exact .pure h₁ (by simp [Lands])
  | some js =>
    obtain ⟨hlen, hjs⟩ := hr js rfl
    refine .get_bind ?_
    split
    · rename_i c hc
      obtain ⟨hmem, hcontains⟩ := mem_created_of_reusable? hc
      refine ⟨some c, level₁, _, runs_set_bind.2 (runs_pure.2 ⟨rfl, rfl⟩), h₁.addProvenance c q,
        grows_addProvenance c q, ?_⟩
      rintro k ⟨⟩
      refine ⟨(grows_addProvenance c q : Grows height b level₁ level₁ d₁ _).contains hcontains, ?_⟩
      exact (h₁.created _ c hmem).2.2 b hb fun o ho => (hjs o ho).2
    · have hdirty : Advances g height T b markDirty level₁ d₁ fun _ level d =>
          level = level₁ ∧ d = { d₁ with dirty := true } :=
        ⟨⟨⟩, level₁, _, runs_modify.2 rfl, h₁.dirtied, .markDirty, rfl, rfl⟩
      refine hdirty.bind ?_
      rintro - _ _ h₂ - ⟨rfl, rfl⟩
      have hnode : Node.Proper (α := α) (.expression ⟨op, js, asserted⟩) :=
        Node.proper_expression (by rw [hlen]; exact harity)
      have hins : Advances g height T b (Draft.insert (.expression ⟨op, js, asserted⟩) q) _ _ _ :=
        h₂.insertSpare hnode hq (fun o ho => (hjs o ho).1) (by rintro e ⟨⟩; exact hop)
      refine hins.bind fun c level₂ d₂ h₂ hg₂ hc => ?_
      have hlt : level₂ c < b := hc.level_lt b hb fun o ho => by
        rw [hg₂.level_eq (hjs o ho).1]
        exact (hjs o ho).2
      have hlands : Lands b (some c) level₂ d₂ := by
        rintro k ⟨⟩
        exact ⟨Generation.contains_of_node? hc.node?, hlt⟩
      have hcreated := h₂.remember (e := ⟨op, js, asserted⟩)
        (Generation.issued_of_contains (Generation.contains_of_node? hc.node?))
        (fun o ho => (hg₂.issued o (Generation.issued_of_contains (hjs o ho).1)).1) hc.level_lt
      refine ⟨some c, level₂, _, runs_modify_bind.2 (runs_pure.2 ⟨rfl, rfl⟩), ?_, ?_, ?_⟩
      all_goals split_ifs
      · exact hcreated
      · exact h₂
      · exact ⟨fun _ _ h => h, fun _ h => ⟨h, rfl⟩, fun _ _ => rfl, fun _ _ h _ => h, fun _ _ => rfl,
          fun h => h⟩
      · exact .refl b level₂ d₂
      · exact hlands
      · exact hlands

/-- A new parameter is no operand of anything, and can lie at the bottom. -/
theorem Sturdy.createParameter (hg : g.Orderly) (h : Sturdy g height T level d)
    (hid : g.contains id) (q : Parameter α) :
    Advances g height T b (Draft.createParameter q [id]) level d fun j level' d' =>
      d'.output.node? j = some (.parameter q) ∧ (∀ i, d'.mapping.get? i ≠ some j) ∧
        level' j = 0 := by
  obtain ⟨p, hp, hprov⟩ := runs_provenanceOf hg h.input (List.cons_ne_nil id [])
    (fun i hi => (List.mem_singleton.1 hi) ▸ hid)
  have h₁ := h.dirtied
  obtain ⟨j, level₂, d₂, hr, h₂, hg₂, hj⟩ : Advances g height T b _ level _ _ :=
    h₁.insertSpare (Node.proper_parameter q) hp (by simp [Node.operands]) (by simp)
  refine ⟨j, level₂, d₂, ?_, h₂, Grows.markDirty.trans hg₂, hj.node?, hj.spare, ?_⟩
  · unfold Draft.createParameter
    exact runs_bind.2 ⟨p, d, hprov, runs_modify_bind.2 hr⟩
  · have := hj.level_lt 1 Nat.one_pos (by simp [Node.operands])
    omega

end Draft

end ParameterSolver
