import Mathlib.Data.Prod.Lex
import ParameterSolver.Proofs.Draft.Runs
import ParameterSolver.Proofs.Graph.Order
import ParameterSolver.Proofs.Graph.Orderly

/-! What keeps the edits of a draft from failing. The output stays orderly, and the output nodes have
levels that keep it from running in circles: a node lies above its operands, or at the same level and
is younger. The output node of an input node that is not done with lies as high as the input node. -/

namespace ParameterSolver

variable {α : Type}

/-- The node is an expression with an operator outside the basis. -/
def Generation.Foreign (g : Generation α) (id : NodeId) : Prop :=
  ∃ e, g.node? id = some (.expression e) ∧ e.op.isCanonical = false

namespace Draft

/-- Nothing goes from the first draft to the second, and only input nodes below `b` are mapped or
removed. -/
structure Grows (height : NodeId → ℕ) (b : ℕ) (level level' : NodeId → ℕ) (d d' : Draft α) :
    Prop where
  node? : ∀ j n, d.output.node? j = some n → d'.output.node? j = some n
  issued : ∀ j, d.output.Issued j → d'.output.Issued j ∧ level' j = level j
  mapping : ∀ id, b ≤ height id → d'.mapping.get? id = d.mapping.get? id
  /-- An output node that was there stands for what it stood for. -/
  target : ∀ id j, d'.mapping.get? id = some j → d.output.contains j → d.mapping.get? id = some j
  removed : ∀ id, b ≤ height id → d'.isRemoved id = d.isRemoved id
  dirty : d.dirty → d'.dirty

variable {height level level' level'' : NodeId → ℕ} {T : Set NodeId}
  {b b' : ℕ} {d d' d'' : Draft α} {g o' : Generation α} {id j : NodeId} {n : Node α}

theorem Grows.refl (b : ℕ) (level : NodeId → ℕ) (d : Draft α) : Grows height b level level d d :=
  ⟨fun _ _ h => h, fun _ h => ⟨h, rfl⟩, fun _ _ => rfl, fun _ _ h _ => h, fun _ _ => rfl, fun h => h⟩

theorem Grows.mono (h : Grows height b level level' d d') (hb : b ≤ b') :
    Grows height b' level level' d d' :=
  { h with
    mapping := fun id hid => h.mapping id (hb.trans hid)
    removed := fun id hid => h.removed id (hb.trans hid) }

theorem Grows.trans (h : Grows height b level level' d d')
    (h' : Grows height b level' level'' d' d'') : Grows height b level level'' d d'' where
  node? j n hj := h'.node? j n (h.node? j n hj)
  issued j hj := by
    obtain ⟨hj', hl⟩ := h.issued j hj
    obtain ⟨hj'', hl'⟩ := h'.issued j hj'
    exact ⟨hj'', hl'.trans hl⟩
  mapping id hid := (h'.mapping id hid).trans (h.mapping id hid)
  target id j hj hc := by
    obtain ⟨n, hn⟩ := Generation.contains_iff.1 hc
    exact h.target id j (h'.target id j hj (Generation.contains_of_node? (h.node? j n hn))) hc
  removed id hid := (h'.removed id hid).trans (h.removed id hid)
  dirty hd := h'.dirty (h.dirty hd)

theorem Grows.contains (h : Grows height b level level' d d') (hj : d.output.contains j) :
    d'.output.contains j := by
  obtain ⟨n, hn⟩ := Generation.contains_iff.1 hj
  exact Generation.contains_of_node? (h.node? j n hn)

theorem Grows.level_eq (h : Grows height b level level' d d') (hj : d.output.contains j) :
    level' j = level j := (h.issued j (Generation.issued_of_contains hj)).2

variable [Scalar α]

/-- The draft of a pass on `g` that is done with the nodes in `T`. -/
structure Sturdy (g : Generation α) (height : NodeId → ℕ) (T : Set NodeId) (level : NodeId → ℕ)
    (d : Draft α) : Prop where
  input : d.input = g
  orderly : d.output.Orderly
  mapped : ∀ id j, d.mapping.get? id = some j → g.contains id ∧ d.output.contains j
  kept : ∀ id j, d.mapping.get? id = some j → d.isRemoved id = false
  injective : ∀ id id' j, d.mapping.get? id = some j → d.mapping.get? id' = some j → id = id'
  low : ∀ id j, d.mapping.get? id = some j → level j ≤ height id
  high : ∀ id j, d.mapping.get? id = some j → id ∉ T → level j = height id
  descends : ∀ j, ∀ o ∈ d.output.operands j,
    level o < level j ∨ level o = level j ∧ o.rank < j.rank
  parameters : ∀ id j p, d.mapping.get? id = some j → g.node? id = some (.parameter p) →
    ∃ p', d.output.node? j = some (.parameter p')
  created : ∀ e c, (e, c) ∈ d.created → d.output.Issued c ∧ (∀ o ∈ e.operands, d.output.Issued o) ∧
    ∀ b, 0 < b → (∀ o ∈ e.operands, level o < b) → level c < b
  /-- Operators outside the basis stand only where there is something left to do. -/
  canonical : ∀ j e, d.output.node? j = some (.expression e) → e.op.isCanonical = false →
    ∃ id, id ∉ T ∧ g.Foreign id ∧ d.mapping.get? id = some j
  done : ∀ id ∈ T, g.Foreign id → (∃ j, d.mapping.get? id = some j) ∨ d.isRemoved id
  clean : ∀ id, d.isRemoved id → d.dirty

theorem Sturdy.alike (h : Sturdy g height T level d) (ha : Alike d d') (hd : d.dirty → d'.dirty) :
    Sturdy g height T level d' := by
  obtain ⟨input, output, mapping, removed, dirty, deduplicate, created, journal⟩ := d
  obtain ⟨input', output', mapping', removed', dirty', deduplicate', created', journal'⟩ := d'
  obtain ⟨rfl, rfl, rfl, rfl, rfl⟩ := ha
  exact ⟨h.input, h.orderly, h.mapped, h.kept, h.injective, h.low, h.high, h.descends, h.parameters,
    h.created, h.canonical, h.done, fun id hid => hd (h.clean id hid)⟩

theorem Sturdy.noted (h : Sturdy g height T level d) (journal : Journal) :
    Sturdy g height T level { d with journal := journal } :=
  h.alike ⟨rfl, rfl, rfl, rfl, rfl⟩ fun hd => hd

theorem Sturdy.dirtied (h : Sturdy g height T level d) :
    Sturdy g height T level { d with dirty := true } :=
  h.alike ⟨rfl, rfl, rfl, rfl, rfl⟩ fun _ => rfl

theorem Sturdy.mapped?_eq (h : Sturdy g height T level d) (id : NodeId) :
    d.mapped? id = d.mapping.get? id := by
  unfold mapped?
  cases hj : d.mapping.get? id with
  | none => rfl
  | some j => simp [Option.filter, (h.mapped id j hj).2]

theorem Sturdy.acyclic (h : Sturdy g height T level d) : d.output.Acyclic :=
  Generation.acyclic_of_rank (fun j => toLex (level j, j.rank)) fun j o ho => by
    rw [Prod.Lex.toLex_lt_toLex]
    exact h.descends j o ho

theorem Sturdy.spare_fresh (h : Sturdy g height T level d) (hi : d.output.Inserted j n o')
    (id : NodeId) : d.mapping.get? id ≠ some j := fun hj =>
  hi.ne_of_contains (h.mapped id j hj).2 rfl

theorem sturdy_start (g : Generation α) (height level : NodeId → ℕ) (deduplicate : Bool)
    (journal : Journal) : Sturdy g height ∅ level (start g deduplicate journal) := by
  have hnode : ∀ j, (start g deduplicate journal).output.node? j = none := fun j => by
    simp [start, Generation.node?, Generation.get?, Generation.empty]
  have hmap : ∀ i, (start g deduplicate journal).mapping.get? i = none := fun i => by simp [start]
  constructor
  case input => rfl
  case orderly => exact .empty _ _
  case descends =>
    intro j o ho
    rw [Generation.operands_of_not_node? (hnode j)] at ho
    cases ho
  all_goals intros
  all_goals simp_all [start, isRemoved, NodeMap.contains]

section Insert

variable (h : Sturdy g height T level d) (hi : d.output.Inserted j n o') (ho' : o'.Orderly) {x : ℕ}

include hi

omit [Scalar α] in
theorem update_level {k : NodeId} (hk : d.output.contains k) :
    Function.update level j x k = level k := Function.update_of_ne (hi.ne_of_contains hk) _ _

omit [Scalar α] in
/-- A new output node and a level for it. -/
theorem grows_insert : Grows height b level (Function.update level j x) d { d with output := o' } where
  node? k m hk := by
    rw [hi.node?_of_ne (hi.ne_of_contains (Generation.contains_of_node? hk)), hk]
  issued k hk := ⟨hi.issued k hk, Function.update_of_ne (hi.ne_of_issued hk) _ _⟩
  mapping _ _ := rfl
  target _ _ hk _ := hk
  removed _ _ := rfl
  dirty hd := hd

include h

theorem Sturdy.descends_insert (hx : ∀ o ∈ n.operands, level o ≤ x) : ∀ k, ∀ o ∈ o'.operands k,
    Function.update level j x o < Function.update level j x k ∨
      Function.update level j x o = Function.update level j x k ∧ o.rank < k.rank := by
  intro k o ho
  by_cases hk : k = j
  · subst hk
    rw [Generation.operands_of_node? hi.node?_self] at ho
    rw [update_level hi (hi.operands o ho), Function.update_self]
    rcases Nat.lt_or_eq_of_le (hx o ho) with hlt | heq
    · exact Or.inl hlt
    · exact Or.inr ⟨heq, hi.rank_lt ho⟩
  · rw [Generation.operands_congr (hi.node?_of_ne hk)] at ho
    obtain ⟨m, hm⟩ := Generation.node?_of_mem_operands ho
    rw [update_level hi (h.orderly.closed k o ho),
      update_level hi (Generation.contains_of_node? hm)]
    exact h.descends k o ho

theorem Sturdy.created_insert : ∀ e c, (e, c) ∈ d.created →
    o'.Issued c ∧ (∀ o ∈ e.operands, o'.Issued o) ∧ ∀ b, 0 < b →
      (∀ o ∈ e.operands, Function.update level j x o < b) → Function.update level j x c < b := by
  intro e c hc
  have hlevel : ∀ k, d.output.Issued k → Function.update level j x k = level k := fun k hk =>
    Function.update_of_ne (hi.ne_of_issued hk) _ _
  obtain ⟨hissued, hops, hbound⟩ := h.created e c hc
  refine ⟨hi.issued c hissued, fun o ho => hi.issued o (hops o ho), fun b hb hlt => ?_⟩
  rw [hlevel c hissued]
  exact hbound b hb fun o ho => (hlevel o (hops o ho)) ▸ hlt o ho

include ho'

/-- A new output node that stands for no input node. -/
theorem Sturdy.insert (hx : ∀ o ∈ n.operands, level o ≤ x)
    (hn : ∀ e, n = .expression e → e.op.isCanonical) :
    Sturdy g height T (Function.update level j x) { d with output := o' } := by
  constructor
  case input => exact h.input
  case orderly => exact ho'
  case mapped => exact fun i k hk => ⟨(h.mapped i k hk).1, hi.contains (h.mapped i k hk).2⟩
  case kept => exact h.kept
  case injective => exact h.injective
  case low =>
    intro i k hk
    rw [update_level hi (h.mapped i k hk).2]
    exact h.low i k hk
  case high =>
    intro i k hk hT
    rw [update_level hi (h.mapped i k hk).2]
    exact h.high i k hk hT
  case descends => exact h.descends_insert hi hx
  case parameters =>
    intro i k p hk hp
    obtain ⟨p', hp'⟩ := h.parameters i k p hk hp
    exact ⟨p', by rw [hi.node?_of_ne (hi.ne_of_contains (h.mapped i k hk).2), hp']⟩
  case created => exact h.created_insert hi
  case canonical =>
    intro k e hk hc
    change o'.node? k = _ at hk
    rw [hi.node?] at hk
    split_ifs at hk
    · simp [hn e (Option.some.inj hk)] at hc
    · exact h.canonical k e hk hc
  case done => exact h.done
  case clean => exact h.clean

/-- A new output node for an input node that has none. -/
theorem Sturdy.insertFor (hx : ∀ o ∈ n.operands, level o < height id) (hid : g.contains id)
    (hremoved : d.isRemoved id = false) (hmap : d.mapping.get? id = none)
    (hpar : ∀ p, g.node? id = some (.parameter p) → ∃ p', n = .parameter p')
    (hn : ∀ e, n = .expression e → e.op.isCanonical = false →
      id ∉ T ∧ g.Foreign id) :
    Sturdy g height T (Function.update level j (height id))
      { d with output := o', mapping := d.mapping.insert id j } := by
  have hbinds : d.mapping.Binds id j (d.mapping.insert id j) :=
    NodeMap.binds_insert (Generation.ne_null_of_contains hid)
  constructor
  case input => exact h.input
  case orderly => exact ho'
  case mapped =>
    intro i k hk
    rcases hbinds.cases hk with ⟨rfl, rfl⟩ | ⟨-, hk⟩
    · exact ⟨hid, Generation.contains_of_node? hi.node?_self⟩
    · exact ⟨(h.mapped i k hk).1, hi.contains (h.mapped i k hk).2⟩
  case kept =>
    intro i k hk
    rcases hbinds.cases hk with ⟨rfl, rfl⟩ | ⟨-, hk⟩
    · exact hremoved
    · exact h.kept i k hk
  case injective =>
    exact fun i i' k hk hk' => hbinds.injective (h.spare_fresh hi) h.injective hk hk'
  case low =>
    intro i k hk
    rcases hbinds.cases hk with ⟨rfl, rfl⟩ | ⟨-, hk⟩
    · rw [Function.update_self]
    · rw [update_level hi (h.mapped i k hk).2]
      exact h.low i k hk
  case high =>
    intro i k hk hiT
    rcases hbinds.cases hk with ⟨rfl, rfl⟩ | ⟨-, hk⟩
    · rw [Function.update_self]
    · rw [update_level hi (h.mapped i k hk).2]
      exact h.high i k hk hiT
  case descends => exact h.descends_insert hi fun o ho => (hx o ho).le
  case parameters =>
    intro i k p hk hp
    rcases hbinds.cases hk with ⟨rfl, rfl⟩ | ⟨-, hk⟩
    · obtain ⟨p', rfl⟩ := hpar p hp
      exact ⟨p', hi.node?_self⟩
    · obtain ⟨p', hp'⟩ := h.parameters i k p hk hp
      exact ⟨p', by rw [hi.node?_of_ne (hi.ne_of_contains (h.mapped i k hk).2), hp']⟩
  case created => exact h.created_insert hi
  case canonical =>
    intro k e hk hc
    change o'.node? k = _ at hk
    rw [hi.node?] at hk
    split_ifs at hk with hkj
    · obtain ⟨hidT, hforeign⟩ := hn e (Option.some.inj hk) hc
      exact ⟨id, hidT, hforeign, hkj ▸ hbinds.self⟩
    · obtain ⟨i, hiT, hforeign, hi⟩ := h.canonical k e hk hc
      exact ⟨i, hiT, hforeign, hbinds.keeps hmap hi⟩
  case done =>
    intro i hiT hforeign
    rcases h.done i hiT hforeign with ⟨k, hk⟩ | hrem
    · exact Or.inl ⟨k, hbinds.keeps hmap hk⟩
    · exact Or.inr hrem
  case clean => exact h.clean

end Insert

/-- Other content for an output node at a place where the operands are low enough. -/
theorem Sturdy.replace (h : Sturdy g height T level d) (hr : d.output.Replaced j n o')
    (ho' : o'.Orderly)
    (hx : ∀ o ∈ n.operands, level o < level j ∨ level o = level j ∧ o.rank < j.rank)
    (hpar : ∀ id p, d.mapping.get? id = some j → g.node? id = some (.parameter p) →
      ∃ p', n = .parameter p')
    (hcanon : ∀ e, n = .expression e → e.op.isCanonical = false →
      ∃ id, id ∉ T ∧ g.Foreign id ∧ d.mapping.get? id = some j) :
    Sturdy g height T level { d with output := o' } where
  input := h.input
  orderly := ho'
  mapped i k hk := ⟨(h.mapped i k hk).1, hr.contains_iff.2 (h.mapped i k hk).2⟩
  kept := h.kept
  injective := h.injective
  low := h.low
  high := h.high
  descends k o ho := by
    change o ∈ o'.operands k at ho
    by_cases hk : k = j
    · subst hk
      rw [Generation.operands_of_node? hr.node?_self] at ho
      exact hx o ho
    · rw [Generation.operands_congr (hr.node?_of_ne hk)] at ho
      exact h.descends k o ho
  parameters i k p hk hp := by
    by_cases hkj : k = j
    · subst hkj
      obtain ⟨p', rfl⟩ := hpar i p hk hp
      exact ⟨p', hr.node?_self⟩
    · obtain ⟨p', hp'⟩ := h.parameters i k p hk hp
      exact ⟨p', by rw [hr.node?_of_ne hkj, hp']⟩
  created e c hc := by
    obtain ⟨hissued, hops, hbound⟩ := h.created e c hc
    exact ⟨hr.issued c hissued, fun o ho => hr.issued o (hops o ho), hbound⟩
  canonical k e hk hc := by
    change o'.node? k = _ at hk
    rw [hr.node?] at hk
    split_ifs at hk with hkj
    · exact hkj ▸ hcanon e (Option.some.inj hk) hc
    · exact h.canonical k e hk hc
  done := h.done
  clean := h.clean

/-- One more input node is done with, which has an output node of the basis or is removed. -/
theorem Sturdy.finish (h : Sturdy g height T level d)
    (hid : g.Foreign id → (∃ j, d.mapping.get? id = some j) ∨ d.isRemoved id)
    (hcanon : ∀ j e, g.Foreign id → d.mapping.get? id = some j →
      d.output.node? j = some (.expression e) → e.op.isCanonical) :
    Sturdy g height (T ∪ {id}) level d :=
  { h with
    high := fun i k hk hi => h.high i k hk fun hiT => hi (Or.inl hiT)
    canonical := fun k e hk hc => by
      obtain ⟨i, hiT, hforeign, hi⟩ := h.canonical k e hk hc
      refine ⟨i, ?_, hforeign, hi⟩
      rintro (hiT' | rfl)
      · exact hiT hiT'
      · simp [hcanon k e hforeign hi hk] at hc
    done := by
      rintro i (hiT | rfl) hforeign
      · exact h.done i hiT hforeign
      · exact hid hforeign }

/-- Some output nodes go with all their users, and what they stand for is removed. -/
structure Clears (gone : List NodeId) (d d' : Draft α) : Prop where
  input : d'.input = d.input
  output : d.output.Cleared gone d'.output
  orderly : d'.output.Orderly
  mapping : ∀ id j, d'.mapping.get? id = some j ↔ d.mapping.get? id = some j ∧ j ∉ gone
  /-- Only what has no output node is removed. -/
  removed : ∀ id, d'.isRemoved id → d.isRemoved id ∨ d'.mapping.get? id = none
  mono : ∀ id, d.isRemoved id → d'.isRemoved id
  stale : ∀ id, ∀ j ∈ gone, d.mapping.get? id = some j → d'.isRemoved id
  created : d'.created = d.created

theorem Sturdy.clears {gone : List NodeId} (h : Sturdy g height T level d) (hc : Clears gone d d')
    (hdirty : d'.dirty) : Sturdy g height T level d' := by
  constructor
  case input => exact hc.input.trans h.input
  case orderly => exact hc.orderly
  case mapped =>
    intro i k hk
    obtain ⟨hk', hgone⟩ := (hc.mapping i k).1 hk
    exact ⟨(h.mapped i k hk').1, hc.output.contains_iff.2 ⟨(h.mapped i k hk').2, hgone⟩⟩
  case kept =>
    intro i k hk
    refine Bool.eq_false_iff.2 fun hrem => ?_
    rcases hc.removed i hrem with hrem | hnone
    · rw [h.kept i k ((hc.mapping i k).1 hk).1] at hrem
      cases hrem
    · rw [hnone] at hk
      cases hk
  case injective =>
    intro i i' k hk hk'
    exact h.injective i i' k ((hc.mapping i k).1 hk).1 ((hc.mapping i' k).1 hk').1
  case low => exact fun i k hk => h.low i k ((hc.mapping i k).1 hk).1
  case high => exact fun i k hk => h.high i k ((hc.mapping i k).1 hk).1
  case descends =>
    intro k o ho
    obtain ⟨m, hm⟩ := Generation.node?_of_mem_operands ho
    have hm' := (hc.output.node?_of_some hm).1
    rw [Generation.operands_congr (hm.trans hm'.symm)] at ho
    exact h.descends k o ho
  case parameters =>
    intro i k p hk hp
    obtain ⟨hk', hgone⟩ := (hc.mapping i k).1 hk
    obtain ⟨p', hp'⟩ := h.parameters i k p hk' hp
    exact ⟨p', by rw [hc.output.node?, if_neg hgone, hp']⟩
  case created =>
    intro e c hec
    rw [hc.created] at hec
    obtain ⟨hissued, hops, hbound⟩ := h.created e c hec
    exact ⟨hc.output.issued c hissued, fun o ho => hc.output.issued o (hops o ho), hbound⟩
  case canonical =>
    intro k e hk hcan
    obtain ⟨hk', hgone⟩ := hc.output.node?_of_some hk
    obtain ⟨i, hiT, hforeign, hi⟩ := h.canonical k e hk' hcan
    exact ⟨i, hiT, hforeign, (hc.mapping i k).2 ⟨hi, hgone⟩⟩
  case done =>
    intro i hiT hforeign
    rcases h.done i hiT hforeign with ⟨k, hk⟩ | hrem
    · by_cases hgone : k ∈ gone
      · exact Or.inr (hc.stale i k hgone hk)
      · exact Or.inl ⟨k, (hc.mapping i k).2 ⟨hk, hgone⟩⟩
    · exact Or.inr (hc.mono i hrem)
  case clean => exact fun _ _ => hdirty

end Draft

end ParameterSolver
