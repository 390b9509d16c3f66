import ParameterSolver.Proofs.Pass.Idle
import ParameterSolver.Proofs.Solve.Total

/-! The rounds that a solve needs have no bound. In a ladder every rung uses the one below it and the
top uses them all. Only the highest rung has a single user, so a round merges just that one into the
top, and leaves a ladder with one rung less. -/

namespace ParameterSolver

open Draft Pass

variable {α : Type} [Scalar α] {g : Generation α} {d : Draft α} {e : Expression} {id : NodeId}
  {k : ℕ}

/-- The nodes from a number down to zero. -/
def rungs : ℕ → List NodeId
  | 0 => [.nth 0]
  | k + 1 => .nth (k + 1) :: rungs k

theorem mem_rungs : id ∈ rungs k ↔ ∃ i ≤ k, id = .nth i := by
  induction k with
  | zero => simp [rungs]
  | succ k ih =>
    rw [rungs, List.mem_cons, ih]
    constructor
    · rintro (rfl | ⟨i, hi, rfl⟩)
      · exact ⟨k + 1, le_rfl, rfl⟩
      · exact ⟨i, hi.trans (Nat.le_succ k), rfl⟩
    · rintro ⟨i, hi, rfl⟩
      rcases Nat.lt_or_eq_of_le hi with hi | rfl
      · exact Or.inr ⟨i, Nat.le_of_lt_succ hi, rfl⟩
      · exact Or.inl rfl

theorem not_mem_rungs : NodeId.nth (k + 1) ∉ rungs k := by
  intro h
  obtain ⟨i, hi, heq⟩ := mem_rungs.1 h
  cases heq
  omega

theorem rungs_ne_succ : rungs k ≠ rungs (k + 1) := fun h =>
  not_mem_rungs (h ▸ mem_rungs.2 ⟨k + 1, le_rfl, rfl⟩)

theorem eraseDups_rungs : ∀ k, (rungs k).eraseDups = rungs k
  | 0 => rfl
  | k + 1 => by
    have hself : (rungs k).filter (fun b => !b == .nth (k + 1)) = rungs k := by
      refine List.filter_eq_self.2 fun b hb => ?_
      have hne : b ≠ .nth (k + 1) := fun h => not_mem_rungs (h ▸ hb)
      simp [hne]
    rw [rungs, List.eraseDups_cons, hself, eraseDups_rungs k]

theorem eraseDups_cons_rungs : (NodeId.nth k :: rungs k).eraseDups = rungs k := by
  have hself : (NodeId.nth k :: rungs k).eraseDups = (rungs k).eraseDups := by
    cases k with
    | zero => rfl
    | succ k => simp [rungs, List.eraseDups_cons]
  rw [hself, eraseDups_rungs]

/-- The content of a ladder with `k` rungs over a literal. -/
def ladderNode (k : ℕ) : NodeId → Option (Node α)
  | .null => none
  | .nth 0 => some (.literal (.truth true) none)
  | .nth (i + 1) =>
    if i < k then some (.expression ⟨.or, [.nth i], false⟩)
    else if i = k then some (.expression ⟨.or, rungs k, false⟩)
    else none

omit [Scalar α] in
theorem exists_ladderNode {i : ℕ} (hi : i ≤ k + 1) : ∃ n : Node α, ladderNode k (.nth i) = some n := by
  cases i with
  | zero => exact ⟨_, rfl⟩
  | succ i =>
    rcases Nat.lt_or_eq_of_le (Nat.le_of_succ_le_succ hi) with hi | rfl
    · exact ⟨_, if_pos hi⟩
    · exact ⟨_, (if_neg (Nat.lt_irrefl i)).trans (if_pos rfl)⟩

structure Ladder (k : ℕ) (g : Generation α) : Prop where
  sound : g.Sound
  node? : ∀ id, g.node? id = ladderNode k id

namespace Ladder

theorem ground (h : Ladder k g) : g.node? (.nth 0) = some (.literal (.truth true) none) := h.node? _

theorem rung (h : Ladder k g) {i : ℕ} (hi : i < k) :
    g.node? (.nth (i + 1)) = some (.expression ⟨.or, [.nth i], false⟩) := by
  rw [h.node?, ladderNode, if_pos hi]

theorem top (h : Ladder k g) :
    g.node? (.nth (k + 1)) = some (.expression ⟨.or, rungs k, false⟩) := by
  rw [h.node?, ladderNode, if_neg (Nat.lt_irrefl k), if_pos rfl]

theorem expression_cases (h : Ladder k g) (hn : g.node? id = some (.expression e)) :
    (∃ i < k, id = .nth (i + 1) ∧ e = ⟨.or, [.nth i], false⟩) ∨
      id = .nth (k + 1) ∧ e = ⟨.or, rungs k, false⟩ := by
  rw [h.node?] at hn
  unfold ladderNode at hn
  split at hn
  · cases hn
  · cases hn
  · split_ifs at hn with hlt heq
    · cases hn
      exact Or.inl ⟨_, hlt, rfl, rfl⟩
    · cases hn
      exact Or.inr ⟨by rw [heq], rfl⟩

theorem contains_iff (h : Ladder k g) : g.contains id ↔ ∃ i ≤ k + 1, id = .nth i := by
  rw [Generation.contains_iff]
  constructor
  · rintro ⟨n, hn⟩
    rw [h.node?] at hn
    unfold ladderNode at hn
    split at hn
    · cases hn
    · exact ⟨0, Nat.zero_le _, rfl⟩
    · rename_i i
      split_ifs at hn
      · exact ⟨i + 1, by omega, rfl⟩
      · exact ⟨i + 1, by omega, rfl⟩
  · rintro ⟨i, hi, rfl⟩
    rw [h.node?]
    exact exists_ladderNode hi

theorem mem_users (h : Ladder k g) {u : NodeId} {i : ℕ} (hu : u ∈ g.users (.nth i)) :
    i < k ∧ u = .nth (i + 1) ∨ i ≤ k ∧ u = .nth (k + 1) := by
  have hop := (h.sound.users _ _).1 hu
  obtain ⟨n, hn⟩ := Generation.node?_of_mem_operands hop
  rw [Generation.operands_of_node? hn] at hop
  cases n with
  | expression e =>
    rcases h.expression_cases hn with ⟨j, hj, rfl, rfl⟩ | ⟨rfl, rfl⟩
    · cases List.mem_singleton.1 hop
      exact Or.inl ⟨hj, rfl⟩
    · obtain ⟨j, hj, heq⟩ := mem_rungs.1 hop
      cases heq
      exact Or.inr ⟨hj, rfl⟩
  | _ => cases hop

/-- A rung below the highest has two users, and stays. -/
theorem absorbable?_eq_none (h : Ladder k g) {i : ℕ} (hi : i < k) (e : Expression) :
    absorbable? g (.nth i) e = none := by
  rw [Option.eq_none_iff_forall_not_mem]
  intro c hc
  obtain ⟨u, hu⟩ := List.length_eq_one_iff.1 (absorbable?_eq_some.1 hc).2.2.2.2
  have hnext : .nth (i + 1) ∈ g.users (.nth i) := by
    rw [h.sound.users, Generation.operands_of_node? (h.rung hi)]
    exact List.mem_singleton.2 rfl
  have htop : .nth (k + 1) ∈ g.users (.nth i) := by
    rw [h.sound.users, Generation.operands_of_node? h.top]
    exact mem_rungs.2 ⟨i, hi.le, rfl⟩
  rw [hu, List.mem_singleton] at hnext htop
  have heq := hnext.trans htop.symm
  simp only [NodeId.nth.injEq] at heq
  omega

theorem absorbable?_ground (h : Ladder k g) (e : Expression) : absorbable? g (.nth 0) e = none := by
  rw [Option.eq_none_iff_forall_not_mem]
  intro c hc
  have := h.ground.symm.trans (absorbable?_eq_some.1 hc).1
  cases this

/-- The highest rung is used by the top only. -/
theorem absorbable?_highest (h : Ladder (k + 1) g) :
    absorbable? g (.nth (k + 1)) ⟨.or, rungs (k + 1), false⟩ = some ⟨.or, [.nth k], false⟩ := by
  refine absorbable?_eq_some.2 ⟨h.rung (Nat.lt_succ_self k), rfl, rfl, rfl, ?_⟩
  have hmem : ∀ u, u ∈ g.users (.nth (k + 1)) ↔ u ∈ [NodeId.nth (k + 2)] := by
    intro u
    rw [List.mem_singleton]
    constructor
    · intro hu
      rcases h.mem_users hu with ⟨hlt, -⟩ | ⟨-, rfl⟩
      · omega
      · rfl
    · rintro rfl
      rw [h.sound.users, Generation.operands_of_node? h.top]
      exact mem_rungs.2 ⟨k + 1, le_rfl, rfl⟩
  exact ((List.perm_ext_iff_of_nodup (h.sound.nodup_users _) (List.nodup_singleton _)).2 hmem).length_eq

theorem isAbsorbed_top (h : Ladder k g) : isAbsorbed g (.nth (k + 1)) = false := by
  have hnone : g.users (.nth (k + 1)) = [] := by
    refine List.eq_nil_iff_forall_not_mem.2 fun u hu => ?_
    rcases h.mem_users hu with ⟨hlt, -⟩ | ⟨hle, -⟩ <;> omega
  rw [isAbsorbed, hnone]

theorem lt_size (h : Ladder k g) : k + 1 < g.size := by
  obtain ⟨height, hh⟩ := h.sound.acyclic.exists_heights
  have hrung : ∀ i ≤ k, i < height (.nth i) := by
    intro i
    induction i with
    | zero => exact fun _ => hh.pos _ (Generation.contains_of_node? h.ground)
    | succ i ih =>
      intro hi
      have hlt := hh.operand (.nth (i + 1)) (.nth i) (by
        rw [Generation.operands_of_node? (h.rung hi)]
        exact List.mem_singleton.2 rfl)
      have := ih (by omega)
      omega
  have htop := hh.operand (.nth (k + 1)) (.nth k) (by
    rw [Generation.operands_of_node? h.top]
    exact mem_rungs.2 ⟨k, le_rfl, rfl⟩)
  have hle := hh.le_size (.nth (k + 1))
  have := hrung k le_rfl
  omega

theorem flattened_top (h : Ladder (k + 1) g) :
    flattened g ⟨.or, rungs (k + 1), false⟩ = (.nth k :: rungs k, [.nth (k + 1)]) := by
  have hnone : ∀ e, ∀ o ∈ rungs k, absorbable? g o e = none := by
    intro e o ho
    obtain ⟨i, hi, rfl⟩ := mem_rungs.1 ho
    exact h.absorbable?_eq_none (Nat.lt_succ_of_le hi) e
  obtain ⟨s, hs⟩ := Nat.exists_eq_add_of_le' (by have := h.lt_size; omega : 2 ≤ g.size)
  rw [flattened, if_pos (by rfl), hs, flatten_succ]
  change (NodeId.nth (k + 1) :: rungs k).foldl _ _ = _
  rw [List.foldl_cons, flattenStep_of_some h.absorbable?_highest, flatten_of_none,
    foldl_flattenStep (hnone _)]
  · rfl
  · rintro o ho
    cases List.mem_singleton.1 ho
    exact h.absorbable?_eq_none (Nat.lt_succ_self k) _

theorem keptOperands_top (h : Ladder (k + 1) g) :
    keptOperands g ⟨.or, rungs (k + 1), false⟩ = rungs k := by
  rw [keptOperands, if_pos (by rfl), h.flattened_top]
  exact eraseDups_cons_rungs

/-- What a pass has to do with a rung is nothing, and the same goes for the top of a ladder without
rungs. -/
theorem runs_compress_idle (h : Ladder k g) (hd : d.input = g)
    (hn : g.node? id = some (.expression e)) (hid : id ≠ .nth (k + 1) ∨ k = 0) :
    Runs (compress id e) d ⟨⟩ d := by
  have hpart : ∃ i, e = ⟨.or, [.nth i], false⟩ ∧ absorbable? g (.nth i) e = none := by
    rcases h.expression_cases hn with ⟨i, hi, rfl, rfl⟩ | ⟨rfl, rfl⟩
    · exact ⟨i, rfl, h.absorbable?_eq_none hi _⟩
    · obtain rfl := hid.resolve_left fun hne => hne rfl
      exact ⟨0, rfl, h.absorbable?_ground _⟩
  obtain ⟨i, rfl, hnone⟩ := hpart
  have hflat : flattened g ⟨.or, [.nth i], false⟩ = ([.nth i], []) :=
    flattened_of_none hn (by simpa using hnone)
  have hkept : keptOperands g ⟨.or, [.nth i], false⟩ = [.nth i] := by
    rw [keptOperands, hflat]
    rfl
  rw [compress_eq, runs_get_bind]
  simp only [hd, hkept, if_true]
  split_ifs <;> exact runs_pure.2 ⟨rfl, rfl⟩

end Ladder

/-! The draft of the pass that flattens a ladder. -/

/-- The first `c` nodes are copied, each to its own place. -/
structure Begun (g : Generation α) (c : ℕ) (d : Draft α) : Prop where
  input : d.input = g
  size : d.output.entries.cells.size = c
  node? : ∀ i < c, ∃ n, g.node? (.nth i) = some n ∧ d.output.node? (.nth i) = some n
  mapping : ∀ i, d.mapping.get? (.nth i) = if i < c then some (.nth i) else none
  removed : ∀ id, d.isRemoved id = false

namespace Begun

variable {c i : ℕ} {n : Node α}

omit [Scalar α] in
theorem start (g : Generation α) (deduplicate : Bool) (journal : Journal) :
    Begun g 0 (Draft.start g deduplicate journal) :=
  ⟨rfl, rfl, by simp, fun i => by simp [Draft.start], (untouched_start g deduplicate journal).removed⟩

omit [Scalar α] in
theorem contains (h : Begun g c d) (hi : i < c) : d.output.contains (.nth i) := by
  obtain ⟨n, -, hn⟩ := h.node? i hi
  exact Generation.contains_of_node? hn

omit [Scalar α] in
theorem mapped?_eq (h : Begun g c d) (i : ℕ) :
    d.mapped? (.nth i) = if i < c then some (.nth i) else none := by
  rw [mapped?, h.mapping]
  split_ifs with hi
  · simp [Option.filter, h.contains hi]
  · rfl

omit [Scalar α] in
/-- A node over nodes that are copied gets the next place. -/
theorem insert (h : Begun g c d) (hops : ∀ o ∈ n.operands, ∃ i < c, o = .nth i) (p : Provenance) :
    ∃ o', Runs (Draft.insert n p) d (.nth c) { d with output := o' } ∧
      o'.entries.cells.size = c + 1 ∧
      ∀ j, o'.node? j = if j = .nth c then some n else d.output.node? j := by
  have hcontains : ∀ o ∈ n.operands, d.output.contains o := by
    intro o ho
    obtain ⟨i, hi, rfl⟩ := hops o ho
    exact h.contains hi
  have hins : d.output.insert n p = .ok (.nth c, { d.output with
      entries := Generation.link (d.output.entries.push ⟨n, p, []⟩) (.nth c) n.operands }) := by
    rw [Generation.insert, Generation.missing?_of_contains hcontains, NodeMap.fresh, h.size]
  refine ⟨_, runs_insert_of_ok hins, ?_, (Generation.inserted_of_insert hins).node?⟩
  simp [Generation.link, Generation.size_foldl_modify, NodeMap.push, h.size]

omit [Scalar α] in
theorem insertCopy (h : Begun g c d) (hn : g.node? (.nth c) = some n)
    (hops : ∀ o ∈ n.operands, ∃ i < c, o = .nth i) (p : Provenance) :
    ∃ d', Runs (Draft.insertCopy (.nth c) n p) d (some (.nth c)) d' ∧ Begun g (c + 1) d' := by
  obtain ⟨o', hr, hsize, hnode⟩ := h.insert hops p
  refine ⟨{ d with output := o', mapping := d.mapping.insert (.nth c) (.nth c) },
    runs_bind.2 ⟨_, _, hr, runs_modify_bind.2 (runs_pure.2 ⟨rfl, rfl⟩)⟩,
    ⟨h.input, hsize, fun i hi => ?_, fun i => ?_, h.removed⟩⟩
  · change ∃ n, _ ∧ o'.node? (.nth i) = some n
    rw [hnode]
    rcases Nat.lt_or_eq_of_le (Nat.le_of_lt_succ hi) with hi | rfl
    · obtain ⟨m, hm, hm'⟩ := h.node? i hi
      rw [if_neg (by simp; omega)]
      exact ⟨m, hm, hm'⟩
    · exact ⟨n, hn, if_pos rfl⟩
  · change (d.mapping.insert (.nth c) (.nth c)).get? (.nth i) = _
    rw [NodeMap.get?_insert, h.mapping]
    simp only [NodeId.nth.injEq]
    by_cases hic : i = c
    · simp [hic]
    · rw [if_neg hic]
      simp only [Nat.lt_succ_iff_lt_or_eq, hic, or_false]

theorem runs_copied (h : Begun g c d) {fuel : ℕ} (hi : i < c) :
    Runs (Draft.copyWith (fuel + 1) (.nth i)) d (some (.nth i)) d := by
  rw [Draft.copyWith, runs_get_bind, if_neg (by simp [h.removed]), h.mapped?_eq, if_pos hi]
  exact runs_pure.2 ⟨rfl, rfl⟩

/-- Copying a node that has no copy. -/
theorem runs_copyWith (h : Begun g c d) (fuel : ℕ) (hi : c ≤ i) (hn : g.node? (.nth i) = some n) :
    ∃ p, ∀ r d', Runs (match n with
      | .expression e => do
        match ← collect (Draft.copyWith fuel) e.operands with
        | some operands => Draft.insertCopy (.nth i) (.expression { e with operands }) p
        | none => Draft.dropCopy (.nth i)
      | n => Draft.insertCopy (.nth i) n p) d r d' →
      Runs (Draft.copyWith (fuel + 1) (.nth i)) d r d' := by
  obtain ⟨entry, hentry, rfl⟩ := Option.map_eq_some_iff.1 hn
  refine ⟨entry.provenance, fun r d' hr => ?_⟩
  rw [Draft.copyWith, runs_get_bind, if_neg (by simp [h.removed]), h.mapped?_eq,
    if_neg (Nat.not_lt.2 hi), h.input, hentry]
  exact hr

/-- Copying a rung copies the rungs below it first. The induction is on the number of the rung. -/
theorem copyWith (hl : Ladder k g) {fuel : ℕ} (h : Begun g c d) (hi : i ≤ k) (hfuel : i < fuel) :
    ∃ d', Runs (Draft.copyWith fuel (.nth i)) d (some (.nth i)) d' ∧ Begun g (max c (i + 1)) d' := by
  obtain ⟨fuel, rfl⟩ := Nat.exists_eq_add_of_le' (Nat.one_le_of_lt hfuel)
  by_cases hc : i < c
  · exact ⟨d, h.runs_copied hc, by rwa [max_eq_left hc]⟩
  rw [max_eq_right (by omega : c ≤ i + 1)]
  induction i generalizing fuel with
  | zero =>
    obtain rfl : c = 0 := by omega
    obtain ⟨p, hp⟩ := h.runs_copyWith fuel le_rfl hl.ground
    obtain ⟨d', hr, h'⟩ := h.insertCopy hl.ground (by simp [Node.operands]) p
    exact ⟨d', hp _ _ hr, h'⟩
  | succ i ih =>
    obtain ⟨p, hp⟩ := h.runs_copyWith fuel (by omega) (hl.rung (by omega : i < k))
    obtain ⟨fuel, rfl⟩ := Nat.exists_eq_add_of_le' (by omega : 1 ≤ fuel)
    obtain ⟨d₁, hr₁, h₁⟩ : ∃ d₁, Runs (Draft.copyWith (fuel + 1) (.nth i)) d (some (.nth i)) d₁ ∧
        Begun g (i + 1) d₁ := by
      by_cases hc' : i < c
      · obtain rfl : c = i + 1 := by omega
        exact ⟨d, h.runs_copied hc', h⟩
      · exact ih (by omega) fuel (by omega) hc'
    obtain ⟨d₂, hr₂, h₂⟩ := h₁.insertCopy (hl.rung (by omega : i < k))
      (fun o ho => ⟨i, Nat.lt_succ_self i, List.mem_singleton.1 ho⟩) p
    refine ⟨d₂, hp _ _ (runs_bind.2 ⟨some [.nth i], d₁, runs_bind.2 ⟨_, d₁, hr₁, ?_⟩, hr₂⟩), h₂⟩
    exact runs_map.2 ⟨some [], runs_pure.2 ⟨rfl, rfl⟩, rfl⟩

theorem resolveAll {m : ℕ} (hl : Ladder k g) (h : Begun g c d) (hm : m ≤ k) (p : Provenance) :
    ∃ d', Runs (collect (Draft.resolve p) ((rungs m).map .input)) d (some (rungs m)) d' ∧
      Begun g (max c (m + 1)) d' := by
  have hcopy : ∀ {c d} i, Begun g c d → i ≤ k → ∃ d', Runs (Draft.resolve p (.input (.nth i))) d
      (some (.nth i)) d' ∧ Begun g (max c (i + 1)) d' := by
    intro c d i h hi
    have hfuel : i < d.input.size + 1 := by
      rw [h.input]
      have := hl.lt_size
      omega
    obtain ⟨d', hr, h'⟩ := h.copyWith hl hi hfuel
    exact ⟨d', runs_get_bind.2 hr, h'⟩
  induction m generalizing c d with
  | zero =>
    obtain ⟨d', hr, h'⟩ := hcopy 0 h hm
    exact ⟨d', runs_bind.2 ⟨_, d', hr, runs_map.2 ⟨some [], runs_pure.2 ⟨rfl, rfl⟩, rfl⟩⟩, h'⟩
  | succ m ih =>
    obtain ⟨d₁, hr₁, h₁⟩ := hcopy (m + 1) h hm
    obtain ⟨d₂, hr₂, h₂⟩ := ih h₁ (by omega)
    refine ⟨d₂, runs_bind.2 ⟨_, d₁, hr₁, runs_map.2 ⟨some (rungs m), hr₂, rfl⟩⟩, ?_⟩
    rwa [max_assoc, max_eq_left (by omega : m + 1 ≤ m + 1 + 1)] at h₂

end Begun

/-- The content of the draft once the top is written. -/
theorem Ladder.node?_of_begun (h : Ladder (k + 1) g) (hd : Begun g (k + 1) d) {o' : Generation α}
    (ho : ∀ j, o'.node? j = if j = .nth (k + 1) then some (.expression ⟨.or, rungs k, false⟩)
      else d.output.node? j) (id : NodeId) : o'.node? id = ladderNode k id := by
  rw [ho]
  have hold : ∀ i < k + 1, d.output.node? (.nth i) = ladderNode (k + 1) (.nth i) := by
    intro i hi
    obtain ⟨n, hn, hn'⟩ := hd.node? i hi
    rw [hn', ← hn, h.node?]
  cases id with
  | null => rfl
  | nth i =>
    simp only [NodeId.nth.injEq]
    rcases Nat.lt_trichotomy i (k + 1) with hi | rfl | hi
    · rw [if_neg (Nat.ne_of_lt hi), hold i hi]
      cases i with
      | zero => rfl
      | succ i => rw [ladderNode, ladderNode, if_pos (by omega), if_pos (by omega)]
    · rw [if_pos rfl, ladderNode, if_neg (Nat.lt_irrefl k), if_pos rfl]
    · have hnone : d.output.node? (.nth i) = none := by
        by_contra hsome
        obtain ⟨n, hn⟩ := Option.ne_none_iff_exists'.1 hsome
        have hlt : i < d.output.entries.cells.size :=
          Generation.issued_of_contains (Generation.contains_of_node? hn)
        rw [hd.size] at hlt
        omega
      rw [if_neg (by omega), hnone]
      obtain ⟨i, rfl⟩ := Nat.exists_eq_add_of_le' (by omega : 1 ≤ i)
      rw [ladderNode, if_neg (by omega), if_neg (by omega)]

/-- The draft once the top is written. -/
structure Capped (g : Generation α) (k : ℕ) (d : Draft α) : Prop where
  input : d.input = g
  node? : ∀ id, d.output.node? id = ladderNode k id
  low : ∀ i ≤ k, d.mapping.get? (.nth i) = some (.nth i)
  merged : d.mapping.get? (.nth (k + 1)) = none
  top : d.mapping.get? (.nth (k + 2)) = some (.nth (k + 1))

/-- The rungs that stay are copied, and the top is written after them. -/
theorem Ladder.runs_editExpression (h : Ladder (k + 1) g) (hd : Begun g 0 d) :
    ∃ d', Runs (Draft.editExpression (.nth (k + 2)) { operands := some ((rungs k).map .input) }) d
      (some (.nth (k + 1))) d' ∧ Capped g k d' := by
  obtain ⟨p, -, hp⟩ := runs_inputProvenance h.sound.toOrderly hd.input
    (Generation.contains_of_node? h.top)
  obtain ⟨d₁, hr₁, h₁⟩ := hd.resolveAll h (Nat.le_succ k) p
  rw [Nat.zero_max] at h₁
  obtain ⟨o', hr₂, -, ho⟩ : ∃ o', Runs (Draft.insert (.expression ⟨.or, rungs k, false⟩) p)
      { d₁ with dirty := true } (.nth (k + 1)) { d₁ with dirty := true, output := o' } ∧ _ :=
    Begun.insert (g := g) (d := { d₁ with dirty := true })
      ⟨h₁.input, h₁.size, h₁.node?, h₁.mapping, h₁.removed⟩ (fun o ho => by
        obtain ⟨i, hi, rfl⟩ := mem_rungs.1 ho
        exact ⟨i, Nat.lt_succ_of_le hi, rfl⟩) p
  have hget : ∀ i, (d₁.mapping.insert (.nth (k + 2)) (.nth (k + 1))).get? (.nth i)
      = if i = k + 2 then some (.nth (k + 1)) else if i < k + 1 then some (.nth i) else none := by
    intro i
    rw [NodeMap.get?_insert, h₁.mapping]
    simp only [NodeId.nth.injEq]
  refine ⟨{ d₁ with
    dirty := true, output := o', mapping := d₁.mapping.insert (.nth (k + 2)) (.nth (k + 1)) }, ?_,
    ⟨h₁.input, h.node?_of_begun h₁ ho, fun i hi => ?_, ?_, ?_⟩⟩
  · have he : d.input.expression? (.nth (k + 2)) = some ⟨.or, rungs (k + 1), false⟩ := by
      rw [hd.input]
      exact Generation.expression?_eq.2 h.top
    have hnew : isInputs ((rungs k).map (Operand.input (α := α))) (rungs (k + 1)) = false :=
      Bool.eq_false_iff.2 fun hsame => rungs_ne_succ (isInputs_inputs hsame)
    have hmap : Draft.mapped? { d₁ with dirty := true } (.nth (k + 2)) = none :=
      (h₁.mapped?_eq (k + 2)).trans (if_neg (by omega))
    unfold Draft.editExpression Draft.emit markDirty
    rw [runs_get_bind, if_neg (by simp [hd.removed]), he]
    simp only [Option.getD_none, Option.all_some, hnew, Bool.and_false, Bool.false_eq_true, if_false,
      Option.getD_some]
    refine runs_bind.2 ⟨p, d, hp, runs_bind.2 ⟨some (rungs k), d₁, hr₁, runs_map.2 ⟨_, ?_, rfl⟩⟩⟩
    rw [runs_modify_bind, runs_get_bind, hmap]
    exact runs_bind.2 ⟨_, _, hr₂, runs_modify_bind.2 (runs_pure.2 ⟨rfl, rfl⟩)⟩
  · exact (hget i).trans (by rw [if_neg (by omega), if_pos (by omega)])
  · exact (hget (k + 1)).trans (by rw [if_neg (by omega), if_neg (by omega)])
  · exact (hget (k + 2)).trans (if_pos rfl)

/-- The draft of a ladder with one rung less, with nothing left to copy. -/
structure Shortened (g : Generation α) (k : ℕ) (d : Draft α) : Prop where
  input : d.input = g
  dirty : d.dirty
  node? : ∀ id, d.output.node? id = ladderNode k id
  settled : ∀ id, g.contains id → d.isRemoved id ∨ ∃ j, d.mapped? id = some j

/-- The highest rung has no copy, so nothing else goes with it. -/
theorem Ladder.runs_dropMerged (h : Ladder (k + 1) g) (hd : Capped g k d) :
    ∃ d', Runs (dropMerged (.nth (k + 1)) [.nth (k + 1)]) d ⟨⟩ d' ∧ Shortened g k d' := by
  obtain ⟨p, -, hp⟩ := runs_provenanceOf h.sound.toOrderly hd.input (List.cons_ne_nil _ [])
    (fun i hi => (List.mem_singleton.1 hi) ▸
      Generation.contains_of_node? (h.rung (Nat.lt_succ_self k)))
  have hnode : ∀ id, (d.output.addProvenance (.nth (k + 1)) p).node? id = ladderNode k id := by
    intro id
    rw [Generation.node?_addProvenance, hd.node?]
  have hmapped : ∀ i j, d.mapping.get? (.nth i) = some (.nth j) → j ≤ k + 1 →
      (Option.filter (d.output.addProvenance (.nth (k + 1)) p).contains (d.mapping.get? (.nth i)))
        = some (.nth j) := by
    intro i j hij hj
    obtain ⟨n, hn⟩ := exists_ladderNode (α := α) hj
    rw [hij, Option.filter, Generation.contains_of_node? ((hnode _).trans hn)]
    rfl
  refine ⟨{ d with
    output := d.output.addProvenance (.nth (k + 1)) p
    dirty := true
    removed := d.removed.insert (.nth (k + 1)) ()
    journal := d.journal.add .trace source ("removed " ++ d.input.describe (.nth (k + 1))) }, ?_,
    hd.input, rfl, hnode, fun id hid => ?_⟩
  · refine runs_bind.2 ⟨⟨⟩, _, runs_bind.2 ⟨p, d, hp, runs_modify.2 rfl⟩, ?_⟩
    refine runs_bind.2 ⟨⟨⟩, _, ?_, runs_pure.2 ⟨rfl, rfl⟩⟩
    unfold Draft.remove markDirty markRemoved
    simp only [runs_modify_bind, hd.merged, runs_get_bind]
    exact runs_modify.2 rfl
  · obtain ⟨i, hi, rfl⟩ := h.contains_iff.1 hid
    rcases (by omega : i ≤ k ∨ i = k + 1 ∨ i = k + 2) with hi | rfl | rfl
    · exact Or.inr ⟨.nth i, hmapped i i (hd.low i hi) (by omega)⟩
    · have hnull : NodeId.nth (k + 1) ≠ .null := by simp
      exact Or.inl ((NodeMap.contains_insert (m := d.removed) hnull).2 (Or.inr rfl))
    · exact Or.inr ⟨.nth (k + 1), hmapped (k + 2) (k + 1) hd.top le_rfl⟩

theorem Ladder.runs_compress_top (h : Ladder (k + 1) g) (hd : Begun g 0 d) :
    ∃ d', Runs (compress (.nth (k + 2)) ⟨.or, rungs (k + 1), false⟩) d ⟨⟩ d' ∧ Shortened g k d' := by
  obtain ⟨d₁, hr₁, h₁⟩ := h.runs_editExpression hd
  obtain ⟨d₂, hr₂, h₂⟩ := h.runs_dropMerged h₁
  refine ⟨d₂, ?_, h₂⟩
  rw [compress_eq, runs_get_bind]
  simp only [hd.input, h.keptOperands_top, h.flattened_top, h.isAbsorbed_top]
  rw [if_neg (by decide), if_neg rungs_ne_succ]
  exact runs_bind.2 ⟨_, d₁, hr₁, hr₂⟩

theorem Shortened.close (h : Shortened g k d) :
    Runs Draft.close d ⟨d.output, d.dirty, d.mapping⟩ d := by
  unfold Draft.close
  rw [runs_get_bind, h.input]
  refine runs_bind.2 ⟨⟨⟩, d, runs_forM_idle fun id hid => ?_, runs_get_bind.2 (runs_pure.2 ⟨rfl, rfl⟩)⟩
  unfold Draft.copy
  simp only [runs_discard, runs_get_bind, Draft.copyWith]
  rcases h.settled id (NodeMap.mem_keys.1 hid) with hremoved | ⟨j, hj⟩
  · exact ⟨none, by rw [if_pos hremoved]; exact runs_pure.2 ⟨rfl, rfl⟩⟩
  · split_ifs
    · exact ⟨none, runs_pure.2 ⟨rfl, rfl⟩⟩
    · exact ⟨some j, by rw [hj]; exact runs_pure.2 ⟨rfl, rfl⟩⟩

namespace Ladder

/-- The pass works on the top only. -/
theorem runs_nesting (h : Ladder (k + 1) g) (deduplicate : Bool) (journal : Journal) :
    ∃ d, Runs (nesting : Pass α).run (Draft.start g deduplicate journal) ⟨⟩ d ∧ Shortened g k d := by
  obtain ⟨d, hr, hd⟩ := exists_runs_forM (l := g.expressions) (f := fun x => compress x.1 x.2)
    (d := Draft.start g deduplicate journal)
    (P := fun (done : List (NodeId × Expression)) d => d.input = g ∧
      if NodeId.nth (k + 2) ∈ done.map (·.1) then Shortened g k d else Begun g 0 d)
    (fun done ⟨id, e⟩ rest hl d ⟨hinput, hd⟩ => by
      have hn : g.node? id = some (.expression e) :=
        Generation.mem_expressions.1 (hl ▸ by simp : (id, e) ∈ g.expressions)
      by_cases hid : id = .nth (k + 2)
      · subst hid
        have hnd := Generation.nodup_expressions (g := g)
        rw [← hl, List.map_append, List.nodup_append] at hnd
        rw [if_neg fun hmem => hnd.2.2 _ hmem _ (by simp) rfl] at hd
        obtain ⟨d', hr, h'⟩ := h.runs_compress_top hd
        cases h.top.symm.trans hn
        exact ⟨d', hr, h'.input, by rwa [if_pos (by simp)]⟩
      · have hmem : NodeId.nth (k + 2) ∈ (done ++ [(id, e)]).map (·.1) ↔
            NodeId.nth (k + 2) ∈ done.map (·.1) := by
          simp [Ne.symm hid]
        refine ⟨d, h.runs_compress_idle hinput hn (Or.inl hid), hinput, ?_⟩
        simp only [hmem]
        exact hd)
    ⟨rfl, by simpa using Begun.start g deduplicate journal⟩
  refine ⟨d, runs_get_bind.2 hr, ?_⟩
  rw [if_pos (List.mem_map.2 ⟨_, Generation.mem_expressions.2 h.top, rfl⟩)] at hd
  exact hd.2

theorem not_foreign (h : Ladder k g) (id : NodeId) : ¬ g.Foreign id := by
  rintro ⟨e, hn, hop⟩
  rcases h.expression_cases hn with ⟨i, -, -, rfl⟩ | ⟨-, rfl⟩ <;> cases hop

theorem gives_nesting (h : Ladder (k + 1) g) : (nesting : Pass α).Gives g fun rev =>
    rev.dirty = true ∧ Ladder k rev.generation := by
  intro deduplicate journal
  obtain ⟨rev, journal', hap, hsound, -⟩ := Pass.gives_nesting h.sound h.not_foreign deduplicate
    journal
  refine ⟨rev, journal', hap, hsound, ?_⟩
  obtain ⟨d₀, d₁, hr, hc⟩ := Pass.runs_of_apply hap
  obtain ⟨d, hr', hd⟩ := h.runs_nesting deduplicate journal
  obtain ⟨-, rfl⟩ := hr.unique hr'
  obtain ⟨rfl, -⟩ := hc.unique hd.close
  exact ⟨hd.dirty, hsound, hd.node?⟩

theorem runs_domains (h : Ladder k g) (hd : d.input = g) : Runs (domains : Pass α).run d ⟨⟩ d := by
  refine runs_get_bind.2 (runs_forM_idle fun x hx => ?_)
  rw [hd] at hx
  have hn := Generation.mem_parameters.1 hx
  rw [h.node?] at hn
  unfold ladderNode at hn
  split at hn
  · cases hn
  · cases hn
  · split_ifs at hn <;> cases hn

theorem runs_assertions (h : Ladder k g) (hd : d.input = g) :
    Runs (assertions : Pass α).run d ⟨⟩ d := by
  refine runs_get_bind.2 (runs_forM_idle fun x hx => ?_)
  rw [hd] at hx
  have hasserted : x.2.asserted = false := by
    rcases h.expression_cases (Generation.mem_expressions.1 hx) with ⟨i, -, -, he⟩ | ⟨-, he⟩ <;>
      rw [he]
  unfold wrapAssertion
  rw [runs_get_bind, if_pos (by simp [hasserted])]
  exact runs_pure.2 ⟨rfl, rfl⟩

theorem runs_leaves (h : Ladder k g) (hd : d.input = g) : Runs (leaves : Pass α).run d ⟨⟩ d := by
  refine runs_get_bind.2 (runs_forM_idle fun x hx => ?_)
  rw [hd] at hx
  have hn : g.node? x.1 = some x.2.node := by
    rw [Generation.node?, Generation.mem_toList.1 hx]
    rfl
  rw [h.node?] at hn
  change Runs (stripLeaf x.1 x.2.node) d ⟨⟩ d
  unfold ladderNode at hn
  split at hn
  · cases hn
  · rw [← Option.some.inj hn]
    exact runs_pure.2 ⟨rfl, rfl⟩
  · split_ifs at hn <;> rw [← Option.some.inj hn] <;> exact runs_pure.2 ⟨rfl, rfl⟩

theorem runs_operators (h : Ladder k g) (hd : d.input = g) :
    Runs (operators : Pass α).run d ⟨⟩ d := by
  refine runs_get_bind.2 (runs_forM_idle fun x hx => ?_)
  rw [hd] at hx
  have hop : x.2.op.isCanonical := by
    by_contra hforeign
    exact h.not_foreign x.1 ⟨x.2, Generation.mem_expressions.1 hx, Bool.eq_false_iff.2 hforeign⟩
  unfold canonize
  rw [runs_get_bind, if_pos (by simp [hop])]
  exact runs_pure.2 ⟨rfl, rfl⟩

theorem runs_nesting_idle (h : Ladder 0 g) (hd : d.input = g) :
    Runs (nesting : Pass α).run d ⟨⟩ d := by
  refine runs_get_bind.2 (runs_forM_idle fun x hx => ?_)
  rw [hd] at hx
  exact h.runs_compress_idle hd (Generation.mem_expressions.1 hx) (Or.inr rfl)

end Ladder

/-- A pass that does not fail and does nothing. -/
theorem Pass.Gives.idle {pass : Pass α} {Q : Revision α → Prop} (h : pass.Gives g Q)
    (hidle : ∀ d : Draft α, d.input = g → Runs pass.run d ⟨⟩ d) :
    pass.Gives g fun rev => rev.dirty = false := by
  intro deduplicate journal
  obtain ⟨rev, journal', hap, hsound, -⟩ := h deduplicate journal
  exact ⟨rev, journal', hap, hsound, Pass.dirty_of_idle (hidle _ rfl) hap⟩

namespace Progress

variable {p : Progress α}

/-- Before the last pass of a round nothing happens to a ladder. -/
theorem Healthy.runRound_ladder (h : Healthy p) (hl : Ladder k p.current) (deduplicate : Bool)
    {Q : Revision α → Prop}
    (hlast : ∀ g : Generation α, Ladder k g → (nesting : Pass α).Gives g Q) :
    ∃ p' rev, p.runRound deduplicate = .ok (p', rev.dirty) ∧ Healthy p' ∧ Q rev ∧
      (rev.dirty = true → p'.current = rev.generation) := by
  obtain ⟨p₁, rev₁, hr₁, h₁, hd₁, hc₁⟩ := h.runPass deduplicate
    ((gives_domains h.current).idle fun _ => hl.runs_domains)
  rw [hd₁] at hr₁ hc₁
  have hl₁ : Ladder k p₁.current := hc₁ ▸ hl
  obtain ⟨p₂, rev₂, hr₂, h₂, hd₂, hc₂⟩ := h₁.runPass deduplicate
    ((gives_assertions h₁.current).idle fun _ => hl₁.runs_assertions)
  rw [hd₂] at hr₂ hc₂
  have hl₂ : Ladder k p₂.current := hc₂ ▸ hl₁
  obtain ⟨p₃, rev₃, hr₃, h₃, hd₃, hc₃⟩ := h₂.runPass deduplicate
    ((gives_leaves h₂.current).idle fun _ => hl₂.runs_leaves)
  rw [hd₃] at hr₃ hc₃
  have hl₃ : Ladder k p₃.current := hc₃ ▸ hl₂
  obtain ⟨p₄, rev₄, hr₄, h₄, hd₄, hc₄⟩ := h₃.runPass deduplicate
    ((gives_operators h₃.current).idle fun _ => hl₃.runs_operators)
  rw [hd₄] at hr₄ hc₄
  have hl₄ : Ladder k p₄.current := hc₄ ▸ hl₃
  obtain ⟨p₅, rev₅, hr₅, h₅, hQ, hc₅⟩ := h₄.runPass deduplicate (hlast _ hl₄)
  exact ⟨p₅, rev₅, runRound_of_passes hr₁ hr₂ hr₃ hr₄ hr₅, h₅, hQ, fun hd => by rw [hc₅, if_pos hd]⟩

/-- A ladder takes a round for every rung, and one more to see that nothing is left to do. -/
theorem Healthy.runRounds_ladder (h : Healthy p) (hl : Ladder k p.current) (deduplicate : Bool)
    (budget rounds : ℕ) :
    if budget ≤ k then
      p.runRounds deduplicate budget rounds = .error (.budgetExceeded (rounds + budget))
    else ∃ p', p.runRounds deduplicate budget rounds = .ok (p', rounds + k + 1) := by
  induction budget generalizing k rounds p with
  | zero =>
    rw [if_pos (Nat.zero_le k)]
    rfl
  | succ budget ih =>
    cases k with
    | zero =>
      rw [if_neg (by omega)]
      obtain ⟨p', rev, hr, -, hdirty, -⟩ := h.runRound_ladder hl deduplicate fun g hg =>
        (Pass.gives_nesting hg.sound hg.not_foreign).idle fun _ => hg.runs_nesting_idle
      rw [hdirty] at hr
      refine ⟨p', ?_⟩
      rw [Progress.runRounds, hr]
      rfl
    | succ k =>
      obtain ⟨p', rev, hr, h', ⟨hdirty, hl'⟩, hc⟩ := h.runRound_ladder hl deduplicate fun g hg =>
        hg.gives_nesting
      rw [hdirty] at hr
      have hrest := ih h' (hc hdirty ▸ hl') (rounds + 1)
      rw [Progress.runRounds, hr]
      by_cases hb : budget ≤ k
      · rw [if_pos hb, Nat.add_right_comm, Nat.add_assoc] at hrest
        rw [if_pos (Nat.succ_le_succ hb)]
        exact hrest
      · rw [if_neg hb, Nat.add_right_comm _ 1 k] at hrest
        rw [if_neg (fun hle => hb (Nat.le_of_succ_le_succ hle))]
        exact hrest

end Progress

/-! Building ladders. -/

namespace Blueprint

/-- The rungs of a ladder. -/
def ladderBase : ℕ → Blueprint α
  | 0 => (Blueprint.empty.addLiteral (.truth true)).2
  | k + 1 => ((ladderBase k).addExpression .or [.nth k]).2

def ladder (k : ℕ) : Blueprint α := ((ladderBase k).addExpression .or (rungs k)).2

theorem reachable_ladderBase : ∀ k, (ladderBase k : Blueprint α).Reachable
  | 0 => .literal .empty _
  | k + 1 => .expression (reachable_ladderBase k) _ _

theorem reachable_ladder (k : ℕ) : (ladder k : Blueprint α).Reachable :=
  .expression (reachable_ladderBase k) _ _

/-- A graph under construction without faults that has this content. -/
structure Holds (b : Blueprint α) (c : ℕ) (node : NodeId → Option (Node α)) : Prop where
  faults : b.faults = []
  size : b.generation.entries.cells.size = c
  node? : ∀ id, b.generation.node? id = node id

omit [Scalar α] in
theorem Holds.addExpression {b : Blueprint α} {c : ℕ} {node : NodeId → Option (Node α)}
    (h : b.Holds c node) (op : Operator) (operands : List NodeId)
    (harity : op.arity.accepts operands.length) (hops : ∀ o ∈ operands, ∃ n, node o = some n) :
    (b.addExpression op operands).2.Holds (c + 1) fun id =>
      if id = .nth c then some (.expression ⟨op, operands, false⟩) else node id := by
  have hcontains : ∀ o ∈ operands, b.generation.contains o := fun o ho => by
    rw [Generation.contains_iff, h.node?]
    exact hops o ho
  have hfaults : b.addFaults (arityFaults op operands) = b := by
    simp [Blueprint.addFaults, arityFaults, harity]
  have hins : b.generation.insert (.expression ⟨op, operands, false⟩)
      (.singleton b.generation.origins.size) = .ok (.nth c, { b.generation with
        entries := Generation.link (b.generation.entries.push ⟨.expression ⟨op, operands, false⟩,
          .singleton b.generation.origins.size, []⟩) (.nth c) operands }) := by
    rw [Generation.insert, Generation.missing?_of_contains (g := b.generation)
      (n := .expression ⟨op, operands, false⟩) hcontains, NodeMap.fresh, h.size]
    rfl
  rw [Blueprint.addExpression, hfaults, Blueprint.add, hins]
  refine ⟨h.faults, ?_, fun id => ?_⟩
  · simp [Generation.link, Generation.size_foldl_modify, NodeMap.push, h.size]
  · rw [← h.node?]
    exact (Generation.inserted_of_insert hins).node? id

omit [Scalar α] in
theorem Holds.congr {b : Blueprint α} {c : ℕ} {node node' : NodeId → Option (Node α)}
    (h : b.Holds c node) (heq : ∀ id, node id = node' id) : b.Holds c node' :=
  ⟨h.faults, h.size, fun id => (h.node? id).trans (heq id)⟩

omit [Scalar α] in
theorem holds_ladderBase (k : ℕ) : (ladderBase k : Blueprint α).Holds (k + 1) fun id =>
    if id = .nth (k + 1) then none else ladderNode k id := by
  induction k with
  | zero =>
    refine ⟨rfl, rfl, fun id => ?_⟩
    rcases id with _ | _ | _ | i
    · rfl
    · rfl
    · rfl
    · simp [ladderBase, addLiteral, Blueprint.add, Generation.insert, Generation.missing?, Node.operands,
        Generation.node?, Generation.get?, Generation.link, NodeMap.get?, NodeMap.push,
        Blueprint.empty, Generation.empty, NodeMap.empty, ladderNode]
  | succ k ih =>
    refine (ih.addExpression .or [.nth k] rfl ?_).congr fun id => ?_
    · intro o ho
      cases List.mem_singleton.1 ho
      rw [if_neg (by simp)]
      exact exists_ladderNode (Nat.le_succ k)
    · rcases id with _ | _ | i
      · rfl
      · rfl
      · simp only [NodeId.nth.injEq, Nat.add_right_cancel_iff, ladderNode]
        split_ifs <;> first | rfl | omega | simp_all

omit [Scalar α] in
theorem holds_ladder (k : ℕ) : (ladder k : Blueprint α).Holds (k + 2) (ladderNode k) := by
  refine ((holds_ladderBase k).addExpression .or (rungs k) ?_ ?_).congr
    fun id => ?_
  · cases k <;> simp [rungs, Operator.arity, Arity.accepts]
  · intro o ho
    obtain ⟨i, hi, rfl⟩ := mem_rungs.1 ho
    rw [if_neg (by simp; omega)]
    exact exists_ladderNode (hi.trans (Nat.le_succ k))
  · split_ifs with hid
    · rw [hid, ladderNode, if_neg (Nat.lt_irrefl k), if_pos rfl]
    · rfl

/-- A graph in which nothing has a unit has no faults of units. -/
theorem faults_checkUnits {g : Generation α}
    (h : ∀ id n, g.node? id = some n → ∀ units, nodeUnit units n = (none, [])) :
    (checkUnits g).faults = [] := by
  have hfold : ∀ (l : List NodeId) (c : UnitCheck α), c.faults = [] →
      (l.foldl (UnitCheck.step g) c).faults = [] := by
    intro l
    induction l with
    | nil => exact fun c hc => hc
    | cons id l ih =>
      refine fun c hc => ih _ ?_
      unfold UnitCheck.step
      split
      · exact hc
      · rename_i n hn
        simp [h id n hn, hc]
  exact hfold _ _ rfl

theorem build_ladder (k : ℕ) : (ladder k : Blueprint α).build = .ok (ladder k).generation := by
  have hholds : (ladder k : Blueprint α).Holds (k + 2) (ladderNode k) := holds_ladder k
  have hunits : (checkUnits (ladder k : Blueprint α).generation).faults = [] := by
    refine faults_checkUnits fun id n hn units => ?_
    rw [hholds.node?] at hn
    unfold ladderNode at hn
    split at hn
    · cases hn
    · rw [← Option.some.inj hn]
      rfl
    · split_ifs at hn <;> rw [← Option.some.inj hn] <;> rfl
  have hvalid := ((sane_of_reachable (reachable_ladder k)).orderly hholds.faults).validate
  unfold build
  simp only [hholds.faults, hunits, hvalid]
  rfl

theorem ladder_of_build (k : ℕ) : Ladder k (ladder k : Blueprint α).generation :=
  ⟨(reachable_ladder k).sound (build_ladder k), (holds_ladder k).node?⟩

end Blueprint

/-- A solve of a ladder. -/
theorem Ladder.solve (h : Ladder k g) (config : Config) :
    ParameterSolver.solve config g = .error (.budgetExceeded config.maxRounds) ↔
      config.maxRounds ≤ k := by
  have hrounds := Progress.Healthy.runRounds_ladder (p := ⟨g, [], [], .empty⟩)
    ⟨h.sound, by simp⟩ h config.deduplicate config.maxRounds 0
  unfold ParameterSolver.solve
  rw [h.sound.validate]
  split_ifs at hrounds with hb
  · rw [Nat.zero_add] at hrounds
    refine iff_of_true ?_ hb
    simp only [bind, Except.bind, hrounds]
  · obtain ⟨p', hr⟩ := hrounds
    refine iff_of_false ?_ hb
    simp only [bind, Except.bind, hr]
    split <;> rintro ⟨⟩

/-- No number of rounds is enough for all graphs: a ladder can be built, and a solve of it runs out of
rounds exactly if there are no more of them than rungs. -/
theorem solve_ladder_iff (config : Config) (k : ℕ) :
    (Blueprint.ladder k : Blueprint α).Reachable ∧
    (Blueprint.ladder k : Blueprint α).build = .ok (Blueprint.ladder k).generation ∧
    (solve config (Blueprint.ladder k : Blueprint α).generation
      = .error (.budgetExceeded config.maxRounds) ↔ config.maxRounds ≤ k) :=
  ⟨Blueprint.reachable_ladder k, Blueprint.build_ladder k, (Blueprint.ladder_of_build k).solve config⟩

/-- The default number of rounds is not enough for a ladder with as many rungs. -/
theorem budgetExceeded_of_default : ∃ b : Blueprint Float, b.Reachable ∧ ∃ g, b.build = .ok g ∧
    solve {} g = .error (.budgetExceeded 32) :=
  ⟨Blueprint.ladder 32, Blueprint.reachable_ladder 32, _, Blueprint.build_ladder 32,
    ((Blueprint.ladder_of_build 32).solve {}).2 le_rfl⟩

end ParameterSolver
