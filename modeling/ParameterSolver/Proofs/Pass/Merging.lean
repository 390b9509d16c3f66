import Mathlib.Data.List.Perm.Subperm
import ParameterSolver.Pass.Nesting
import ParameterSolver.Proofs.Draft.Runs

/-! Merging expressions into the expression that uses them. The merged nodes are used by nothing else,
so every chain of them leads up to it without meeting a node twice and the bound on their depth is
never reached. -/

namespace ParameterSolver

variable {α : Type}

namespace Pass

variable {g : Generation α} {e c : Expression} {o p root id : NodeId}
  {acc : List NodeId × List NodeId}

theorem absorbable?_eq_some : absorbable? g o e = some c ↔ g.node? o = some (.expression c) ∧
    c.op = e.op ∧ c.asserted = false ∧ flattens c.op ∧ (g.users o).length = 1 := by
  rw [absorbable?, Option.filter_eq_some_iff, Generation.expression?_eq]
  simp [and_assoc]

/-- What is merged into an expression has no other user. -/
theorem users_of_absorbable (hg : g.Linked) (hp : g.node? p = some (.expression e))
    (ho : o ∈ e.operands) (h : absorbable? g o e = some c) : g.users o = [p] := by
  have hmem : p ∈ g.users o := (hg.users o p).2 (by rwa [Generation.operands_of_node? hp])
  obtain ⟨u, hu⟩ := List.length_eq_one_iff.1 (absorbable?_eq_some.1 h).2.2.2.2
  rw [hu] at hmem ⊢
  rw [List.mem_singleton.1 hmem]

theorem exists_of_isAbsorbed (h : isAbsorbed g o) : ∃ p e c, g.users o = [p] ∧
    g.node? p = some (.expression e) ∧ absorbable? g o e = some c := by
  unfold isAbsorbed at h
  split at h
  · rename_i p hp
    obtain ⟨e, he, hsome⟩ := (Option.any_eq_true _ _).1 h
    obtain ⟨c, hc⟩ := Option.isSome_iff_exists.1 hsome
    exact ⟨p, e, c, hp, Generation.expression?_eq.1 he, hc⟩
  · cases h

theorem isAbsorbed_of_absorbable (hg : g.Linked) (hp : g.node? p = some (.expression e))
    (ho : o ∈ e.operands) (h : absorbable? g o e = some c) : isAbsorbed g o := by
  rw [isAbsorbed, users_of_absorbable hg hp ho h]
  simp [Generation.expression?_eq.2 hp, h]

theorem absorbable_of_isAbsorbed (hg : g.Linked) (hp : g.node? p = some (.expression e))
    (ho : o ∈ e.operands) (h : isAbsorbed g o) : ∃ c, absorbable? g o e = some c := by
  obtain ⟨p', e', c, hu, hp', hc⟩ := exists_of_isAbsorbed h
  have hmem : p ∈ g.users o := (hg.users o p).2 (by rwa [Generation.operands_of_node? hp])
  rw [hu] at hmem
  obtain rfl := List.mem_singleton.1 hmem
  rw [hp] at hp'
  cases hp'
  exact ⟨c, hc⟩

theorem not_isAbsorbed_of_absorbable?_eq_none (hg : g.Linked)
    (hp : g.node? p = some (.expression e)) (ho : o ∈ e.operands) (h : absorbable? g o e = none) :
    isAbsorbed g o = false := by
  rw [Bool.eq_false_iff]
  intro habs
  obtain ⟨c, hc⟩ := absorbable_of_isAbsorbed hg hp ho habs
  simp [h] at hc

/-! Chains of merged nodes. -/

/-- The node is reached from `root` through this many merged nodes. -/
def Below (g : Generation α) (root : NodeId) : ℕ → NodeId → Prop
  | 0, x => x = root
  | k + 1, x => isAbsorbed g x ∧ ∃ p, g.users x = [p] ∧ Below g root k p

theorem Below.unique (hroot : isAbsorbed g root = false) {k l : ℕ} {x : NodeId}
    (h : Below g root k x) (h' : Below g root l x) : k = l := by
  induction k generalizing l x with
  | zero =>
    cases l with
    | zero => rfl
    | succ l =>
      obtain rfl : x = root := h
      rw [h'.1] at hroot
      cases hroot
  | succ k ih =>
    cases l with
    | zero =>
      obtain rfl : x = root := h'
      rw [h.1] at hroot
      cases hroot
    | succ l =>
      obtain ⟨-, p, hp, h⟩ := h
      obtain ⟨-, q, hq, h'⟩ := h'
      rw [hp] at hq
      cases hq
      rw [ih h h']

/-- The nodes on the way up are all different. -/
theorem Below.exists_nodup (hg : g.Linked) (hroot : isAbsorbed g root = false)
    (hc : g.contains root) {k : ℕ} {x : NodeId} (h : Below g root k x) :
    ∃ l : List NodeId, l.length = k + 1 ∧ l.Nodup ∧ ∀ y ∈ l, g.contains y ∧
      ∃ j ≤ k, Below g root j y := by
  induction k generalizing x with
  | zero =>
    obtain rfl : x = root := h
    exact ⟨[x], rfl, by simp, fun y hy => ⟨List.mem_singleton.1 hy ▸ hc, 0, Nat.le_refl 0,
      List.mem_singleton.1 hy⟩⟩
  | succ k ih =>
    obtain ⟨habs, p, hp, hbelow⟩ := h
    obtain ⟨l, hlen, hnd, hl⟩ := ih hbelow
    refine ⟨x :: l, by simp [hlen], List.nodup_cons.2 ⟨fun hx => ?_, hnd⟩, fun y hy => ?_⟩
    · obtain ⟨-, j, hj, hxj⟩ := hl x hx
      have := Below.unique hroot hxj (l := k + 1) ⟨habs, p, hp, hbelow⟩
      omega
    · rcases List.mem_cons.1 hy with rfl | hy
      · have hmem : y ∈ g.operands p := (hg.users y p).1 (by simp [hp])
        exact ⟨hg.closed p y hmem, k + 1, Nat.le_refl _, habs, p, hp, hbelow⟩
      · obtain ⟨hcy, j, hj, hyj⟩ := hl y hy
        exact ⟨hcy, j, by omega, hyj⟩

theorem Below.lt_size (hg : g.Linked) (hroot : isAbsorbed g root = false) (hc : g.contains root)
    {k : ℕ} {x : NodeId} (h : Below g root k x) : k < g.size := by
  obtain ⟨l, hlen, hnd, hl⟩ := h.exists_nodup hg hroot hc
  have hsub : l ⊆ g.order := fun y hy => NodeMap.mem_keys.2 (hl y hy).1
  have := (List.subperm_of_subset hnd hsub).length_le
  rw [Generation.size]
  omega

/-! The operands and the merged nodes that flattening collects. -/

/-- Notes that a node is merged. -/
def mark (acc : List NodeId × List NodeId) (o : NodeId) : List NodeId × List NodeId :=
  (acc.1, if o ∈ acc.2 then acc.2 else acc.2 ++ [o])

/-- What flattening does with one operand. -/
def flattenStep (g : Generation α) (fuel : ℕ) (e : Expression)
    (acc : List NodeId × List NodeId) (o : NodeId) : List NodeId × List NodeId :=
  match absorbable? g o e with
  | some child => flatten g fuel (mark acc o) child
  | none => (acc.1 ++ [o], acc.2)

theorem flatten_succ (fuel : ℕ) :
    flatten g (fuel + 1) acc e = e.operands.foldl (flattenStep g fuel e) acc := rfl

theorem flattenStep_of_none {fuel : ℕ} (h : absorbable? g o e = none) :
    flattenStep g fuel e acc o = (acc.1 ++ [o], acc.2) := by rw [flattenStep, h]

theorem flattenStep_of_some {fuel : ℕ} (h : absorbable? g o e = some c) :
    flattenStep g fuel e acc o = flatten g fuel (mark acc o) c := by rw [flattenStep, h]

/-- What has been collected stays. -/
structure Accrues (acc acc' : List NodeId × List NodeId) : Prop where
  operands : acc.1 ⊆ acc'.1
  absorbed : acc.2 ⊆ acc'.2

theorem Accrues.refl (acc : List NodeId × List NodeId) : Accrues acc acc := ⟨fun _ h => h, fun _ h => h⟩

theorem Accrues.trans {acc' acc'' : List NodeId × List NodeId} (h : Accrues acc acc')
    (h' : Accrues acc' acc'') : Accrues acc acc'' :=
  ⟨fun _ hx => h'.operands (h.operands hx), fun _ hx => h'.absorbed (h.absorbed hx)⟩

theorem mem_mark {x : NodeId} : x ∈ (mark acc o).2 ↔ x ∈ acc.2 ∨ x = o := by
  unfold mark
  dsimp only
  split_ifs with h
  · exact ⟨Or.inl, fun hx => hx.elim id fun hx => hx ▸ h⟩
  · simp

theorem accrues_mark : Accrues acc (mark acc o) := ⟨fun _ h => h, fun _ h => mem_mark.2 (Or.inl h)⟩

theorem accrues_foldl {fuel : ℕ} (h : ∀ acc o, Accrues acc (flattenStep g fuel e acc o))
    (l : List NodeId) (acc : List NodeId × List NodeId) :
    Accrues acc (l.foldl (flattenStep g fuel e) acc) := by
  induction l generalizing acc with
  | nil => exact .refl _
  | cons o l ih => exact (h acc o).trans (ih _)

theorem accrues_flatten (fuel : ℕ) (acc : List NodeId × List NodeId) (e : Expression) :
    Accrues acc (flatten g fuel acc e) := by
  induction fuel generalizing acc e with
  | zero => exact .refl _
  | succ fuel ih =>
    refine accrues_foldl (fun acc o => ?_) e.operands acc
    cases h : absorbable? g o e with
    | none =>
      rw [flattenStep_of_none h]
      exact ⟨fun _ hx => List.mem_append_left _ hx, fun _ hx => hx⟩
    | some c =>
      rw [flattenStep_of_some h]
      exact accrues_mark.trans (ih _ _)

theorem accrues_flattenStep (fuel : ℕ) (acc : List NodeId × List NodeId) (e : Expression)
    (o : NodeId) : Accrues acc (flattenStep g fuel e acc o) := by
  cases h : absorbable? g o e with
  | none =>
    rw [flattenStep_of_none h]
    exact ⟨fun _ hx => List.mem_append_left _ hx, fun _ hx => hx⟩
  | some c =>
    rw [flattenStep_of_some h]
    exact accrues_mark.trans (accrues_flatten _ _ _)

/-- No operand that is left is merged into another node, and the merged nodes have the operator and
come after the only node that uses them. -/
structure Collected (g : Generation α) (root : NodeId) (op : Operator)
    (acc : List NodeId × List NodeId) : Prop where
  operands : ∀ x ∈ acc.1, isAbsorbed g x = false ∧ g.contains x
  same : ∀ x ∈ acc.2, ∃ c, g.node? x = some (.expression c) ∧ c.op = op
  absorbed : ∀ pre x, pre ++ [x] <+: acc.2 → isAbsorbed g x ∧ x ∉ pre ∧
    ∀ u ∈ g.users x, u = root ∨ u ∈ pre

theorem Collected.mark {op : Operator} (h : Collected g root op acc) (hg : g.Linked)
    (hp : g.node? p = some (.expression e)) (hop : e.op = op) (hpr : p = root ∨ p ∈ acc.2)
    (ho : o ∈ e.operands) (hc : absorbable? g o e = some c) :
    Collected g root op (mark acc o) := by
  refine ⟨h.operands, fun x hx => ?_, fun pre x hpre => ?_⟩
  · rcases mem_mark.1 hx with hx | rfl
    · exact h.same x hx
    · obtain ⟨hn, hcop, -⟩ := absorbable?_eq_some.1 hc
      exact ⟨c, hn, hcop.trans hop⟩
  · unfold Pass.mark at hpre
    dsimp only at hpre
    split_ifs at hpre with hmem
    · exact h.absorbed pre x hpre
    · rcases List.prefix_concat_iff.1 hpre with heq | hpre
      · obtain ⟨rfl, hx⟩ := List.append_inj' heq rfl
        cases hx
        refine ⟨isAbsorbed_of_absorbable hg hp ho hc, hmem, fun u hu => ?_⟩
        rw [users_of_absorbable hg hp ho hc] at hu
        rwa [List.mem_singleton.1 hu]
      · exact h.absorbed pre x hpre

theorem Collected.flatten {op : Operator} (hg : g.Linked) (fuel : ℕ) (h : Collected g root op acc)
    (hp : g.node? p = some (.expression e)) (hop : e.op = op) (hpr : p = root ∨ p ∈ acc.2) :
    Collected g root op (flatten g fuel acc e) := by
  induction fuel generalizing acc e p with
  | zero => exact h
  | succ fuel ih =>
    have hfold : ∀ (l : List NodeId) (acc : List NodeId × List NodeId), (∀ o ∈ l, o ∈ e.operands) →
        Collected g root op acc → (p = root ∨ p ∈ acc.2) →
        Collected g root op (l.foldl (flattenStep g fuel e) acc) := by
      intro l
      induction l with
      | nil => exact fun acc _ h _ => h
      | cons o l ihl =>
        intro acc hl h hpr
        have ho := hl o (by simp)
        refine ihl _ (fun x hx => hl x (by simp [hx])) ?_
          (hpr.imp_right fun hx => (accrues_flattenStep fuel acc e o).absorbed hx)
        cases hc : absorbable? g o e with
        | none =>
          rw [flattenStep_of_none hc]
          refine ⟨fun x hx => ?_, h.same, h.absorbed⟩
          rcases List.mem_append.1 hx with hx | hx
          · exact h.operands x hx
          · rw [List.mem_singleton.1 hx]
            exact ⟨not_isAbsorbed_of_absorbable?_eq_none hg hp ho hc, hg.contains hp ho⟩
        | some c =>
          rw [flattenStep_of_some hc]
          obtain ⟨hn, hcop, -⟩ := absorbable?_eq_some.1 hc
          exact ih (h.mark hg hp hop hpr ho hc) hn (hcop.trans hop)
            (Or.inr (mem_mark.2 (Or.inr rfl)))
    exact hfold e.operands acc (fun _ h => h) h hpr

/-- Chains of merged nodes below the expression are shorter than the number. -/
def Shallow (g : Generation α) : ℕ → Expression → Prop
  | 0, _ => False
  | k + 1, e => ∀ o ∈ e.operands, ∀ c, absorbable? g o e = some c → Shallow g k c

theorem shallow_of_below (hg : g.Linked) (hroot : isAbsorbed g root = false)
    (hc : g.contains root) {k n : ℕ} (h : Below g root k p) (hp : g.node? p = some (.expression e))
    (hle : g.size ≤ k + n) : Shallow g n e := by
  induction n generalizing k p e with
  | zero =>
    have := h.lt_size hg hroot hc
    omega
  | succ n ih =>
    intro o ho c hoc
    exact ih (k := k + 1) ⟨isAbsorbed_of_absorbable hg hp ho hoc, p, users_of_absorbable hg hp ho hoc, h⟩
      (absorbable?_eq_some.1 hoc).1 (by omega)

/-- Every operand of the expression is among those that are left or has been merged. -/
def Covers (acc : List NodeId × List NodeId) (l : List NodeId) : Prop :=
  ∀ o ∈ l, o ∈ acc.1 ∨ o ∈ acc.2

theorem Covers.mono {acc' : List NodeId × List NodeId} {l : List NodeId} (h : Covers acc l)
    (hg : Accrues acc acc') : Covers acc' l := fun o ho =>
  (h o ho).imp (fun h => hg.operands h) fun h => hg.absorbed h

/-- All operands of the expression are covered, and those of every node that is newly merged. -/
theorem covers_flatten {fuel : ℕ} (hs : Shallow g fuel e) :
    Covers (flatten g fuel acc e) e.operands ∧ ∀ q ∈ (flatten g fuel acc e).2, q ∉ acc.2 →
      Covers (flatten g fuel acc e) (g.operands q) := by
  induction fuel generalizing acc e with
  | zero => exact absurd hs id
  | succ fuel ih =>
    have hfold : ∀ (l : List NodeId) (acc : List NodeId × List NodeId), (∀ o ∈ l, o ∈ e.operands) →
        Covers (l.foldl (flattenStep g fuel e) acc) l ∧
          ∀ q ∈ (l.foldl (flattenStep g fuel e) acc).2, q ∉ acc.2 →
            Covers (l.foldl (flattenStep g fuel e) acc) (g.operands q) := by
      intro l
      induction l with
      | nil => exact fun acc _ => ⟨by simp [Covers], fun q hq hqa => absurd hq hqa⟩
      | cons o l ihl =>
        intro acc hl
        obtain ⟨hcov, hnew⟩ := ihl (flattenStep g fuel e acc o) fun x hx => hl x (by simp [hx])
        have haccrue := accrues_foldl (g := g) (accrues_flattenStep fuel · e) l (flattenStep g fuel e acc o)
        -- the operand itself, and what is merged with it
        obtain ⟨ho, hstep⟩ : Covers (flattenStep g fuel e acc o) [o] ∧
            ∀ q ∈ (flattenStep g fuel e acc o).2, q ∉ acc.2 →
              Covers (flattenStep g fuel e acc o) (g.operands q) := by
          cases hc : absorbable? g o e with
          | none =>
            rw [flattenStep_of_none hc]
            exact ⟨by simp [Covers], fun q hq hqa => absurd hq hqa⟩
          | some c =>
            rw [flattenStep_of_some hc]
            obtain ⟨hcov, hnew⟩ : Covers (flatten g fuel (mark acc o) c) c.operands ∧ _ :=
              ih (hs o (hl o (by simp)) c hc)
            have hmem := (accrues_flatten (g := g) fuel (mark acc o) c).absorbed
              (mem_mark.2 (Or.inr rfl))
            refine ⟨fun x hx => Or.inr (List.mem_singleton.1 hx ▸ hmem), fun q hq hqa => ?_⟩
            by_cases hqo : q = o
            · rw [hqo, Generation.operands_of_node? (absorbable?_eq_some.1 hc).1]
              exact hcov
            · exact hnew q hq fun hq' => hqa ((mem_mark.1 hq').resolve_right hqo)
        refine ⟨List.forall_mem_cons.2 ⟨ho.mono haccrue o (by simp), hcov⟩, fun q hq hqa => ?_⟩
        by_cases hq' : q ∈ (flattenStep g fuel e acc o).2
        · exact (hstep q hq' hqa).mono haccrue
        · exact hnew q hq hq'
    exact hfold e.operands acc fun _ h => h

/-! What the pass does with an expression. -/

/-- The operands that an expression is left with. -/
def keptOperands (g : Generation α) (e : Expression) : List NodeId :=
  if e.op.has .idempotent then (flattened g e).1.eraseDups else (flattened g e).1

theorem mem_keptOperands {o : NodeId} : o ∈ keptOperands g e ↔ o ∈ (flattened g e).1 := by
  unfold keptOperands
  split_ifs
  · exact List.mem_eraseDups
  · rfl

theorem foldl_flattenStep {fuel : ℕ} {l : List NodeId} (h : ∀ o ∈ l, absorbable? g o e = none)
    (acc : List NodeId × List NodeId) :
    l.foldl (flattenStep g fuel e) acc = (acc.1 ++ l, acc.2) := by
  induction l generalizing acc with
  | nil => simp
  | cons o l ih =>
    rw [List.foldl_cons, ih fun x hx => h x (.tail _ hx), flattenStep_of_none (h o (by simp))]
    simp

theorem flatten_of_none {fuel : ℕ} {acc : List NodeId × List NodeId}
    (h : ∀ o ∈ e.operands, absorbable? g o e = none) :
    flatten g (fuel + 1) acc e = (acc.1 ++ e.operands, acc.2) := foldl_flattenStep h acc

/-- What holds of the operands and passes from nodes to their operands holds of all that flattening
collects. -/
theorem forall_flatten {R : NodeId → Prop} (hR : ∀ o, R o → ∀ m ∈ g.operands o, R m) (fuel : ℕ)
    (he : ∀ o ∈ e.operands, R o) (hacc : ∀ x, x ∈ acc.1 ∨ x ∈ acc.2 → R x) :
    ∀ x, x ∈ (flatten g fuel acc e).1 ∨ x ∈ (flatten g fuel acc e).2 → R x := by
  induction fuel generalizing acc e with
  | zero => exact hacc
  | succ fuel ih =>
    have hfold : ∀ (l : List NodeId) (acc : List NodeId × List NodeId), (∀ o ∈ l, R o) →
        (∀ x, x ∈ acc.1 ∨ x ∈ acc.2 → R x) →
        ∀ x, x ∈ (l.foldl (flattenStep g fuel e) acc).1 ∨ x ∈ (l.foldl (flattenStep g fuel e) acc).2 →
          R x := by
      intro l
      induction l with
      | nil => exact fun acc _ hacc => hacc
      | cons o l ihl =>
        intro acc hl hacc
        refine ihl _ (fun x hx => hl x (.tail _ hx)) ?_
        have ho := hl o (by simp)
        cases hc : absorbable? g o e with
        | none =>
          rw [flattenStep_of_none hc]
          rintro x (hx | hx)
          · rcases List.mem_append.1 hx with hx | hx
            · exact hacc x (Or.inl hx)
            · exact List.mem_singleton.1 hx ▸ ho
          · exact hacc x (Or.inr hx)
        | some c =>
          rw [flattenStep_of_some hc]
          refine ih (fun m hm => hR o ho m ?_) ?_
          · rw [Generation.operands_of_node? (absorbable?_eq_some.1 hc).1]
            exact hm
          · rintro x (hx | hx)
            · exact hacc x (Or.inl hx)
            · rcases mem_mark.1 hx with hx | rfl
              · exact hacc x (Or.inr hx)
              · exact ho
    exact hfold e.operands acc he hacc

theorem exists_size_eq (hn : g.contains id) : ∃ k, g.size = k + 1 := by
  have : 0 < g.size := List.length_pos_of_mem (NodeMap.mem_keys.2 hn)
  exact ⟨g.size - 1, by omega⟩

theorem flattened_of_none (hn : g.node? id = some (.expression e))
    (h : ∀ o ∈ e.operands, absorbable? g o e = none) : flattened g e = (e.operands, []) := by
  obtain ⟨k, hk⟩ := exists_size_eq (Generation.contains_of_node? hn)
  unfold flattened
  split_ifs
  · rw [hk, flatten_of_none h]
    rfl
  · rfl

theorem absorbable?_of_not_flattens (h : ¬ flattens e.op) (o : NodeId) :
    absorbable? g o e = none := by
  rw [Option.eq_none_iff_forall_not_mem]
  intro c hc
  obtain ⟨-, hop, -, hf, -⟩ := absorbable?_eq_some.1 hc
  rw [hop] at hf
  exact h hf

theorem shallow_size (hg : g.Linked) (hn : g.node? id = some (.expression e))
    (hroot : isAbsorbed g id = false) : Shallow g g.size e :=
  shallow_of_below hg hroot (Generation.contains_of_node? hn) (k := 0) rfl hn (by omega)

/-- What flattening gives for an expression that is not merged itself. -/
theorem collected_flattened (hg : g.Linked) (hn : g.node? id = some (.expression e)) :
    Collected g id e.op (flattened g e) := by
  by_cases hf : flattens e.op
  · rw [flattened, if_pos hf]
    exact Collected.flatten hg _ ⟨by simp, by simp, by simp⟩ hn rfl (Or.inl rfl)
  · rw [flattened, if_neg hf]
    refine ⟨fun o ho => ⟨?_, hg.contains hn ho⟩, by simp, by simp⟩
    exact not_isAbsorbed_of_absorbable?_eq_none hg hn ho (absorbable?_of_not_flattens hf o)

theorem covers_operands (hg : g.Linked) (hn : g.node? id = some (.expression e))
    (hroot : isAbsorbed g id = false) : Covers (flattened g e) e.operands := by
  unfold flattened
  split_ifs
  · exact (covers_flatten (shallow_size hg hn hroot)).1
  · exact fun _ ho => Or.inl ho

theorem covers_flattened (hg : g.Linked) (hn : g.node? id = some (.expression e))
    (hroot : isAbsorbed g id = false) {o : NodeId} (ho : o ∈ (flattened g e).2) :
    Covers (flattened g e) (g.operands o) := by
  unfold flattened at ho ⊢
  split_ifs at ho ⊢
  · exact (covers_flatten (shallow_size hg hn hroot)).2 o ho (by simp)
  · cases ho

theorem isInputs_inputs {l l' : List NodeId}
    (h : Draft.isInputs (l.map (Operand.input (α := α))) l' = true) : l = l' := by
  unfold Draft.isInputs at h
  rw [List.map_map] at h
  exact List.map_inj_right (fun _ _ => Option.some.inj) |>.1 (eq_of_beq h)

variable [Scalar α]

/-- The end of the flattening of an expression. -/
def dropMerged (out : NodeId) (merged : List NodeId) : Edit α Unit := do
  if !merged.isEmpty then Draft.absorb out merged
  merged.forM Draft.remove

theorem compress_eq (id : NodeId) (e : Expression) : compress id e = (do
    let g := (← get).input
    if !(flattens e.op || e.op.has .idempotent) || isAbsorbed g id then return
    if keptOperands g e = e.operands then return
    match ← Draft.editExpression id { operands := some ((keptOperands g e).map .input) } with
    | none => return
    | some out => dropMerged out (flattened g e).2 : Edit α Unit) := rfl

end Pass

end ParameterSolver
