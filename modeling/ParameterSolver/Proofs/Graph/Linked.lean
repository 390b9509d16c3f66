import Mathlib.Tactic.Common
import ParameterSolver.Graph.Generation

/-! What the operations on a graph do to its nodes and to the lists of users. In a linked graph every
operand is there and a node is a user exactly of its operands; every operation keeps it linked. -/

namespace ParameterSolver

/-- The place of a node in the order of creation. -/
def NodeId.rank : NodeId → ℕ
  | null => 0
  | nth k => k

namespace NodeMap

variable {β γ : Type} {m : NodeMap β} {id j : NodeId} {x y : β}

theorem contains_iff : m.contains id ↔ ∃ x, m.get? id = some x := Option.isSome_iff_exists

theorem ne_null_of_get? (h : m.get? id = some x) : id ≠ .null := by
  rintro rfl
  cases h

theorem get?_fresh (m : NodeMap β) : m.get? m.fresh = none := by
  simp [fresh, get?]

theorem get?_insert_of_ne (h : id ≠ .null) (j : NodeId) :
    (m.insert id x).get? j = if j = id then some x else m.get? j := by
  cases id with
  | null => exact absurd rfl h
  | nth k => exact get?_insert m k x j

theorem get?_insert_self (h : id ≠ .null) : (m.insert id x).get? id = some x :=
  (get?_insert_of_ne h id).trans (if_pos rfl)

theorem contains_insert (h : id ≠ .null) :
    (m.insert id x).contains j ↔ m.contains j ∨ j = id := by
  rw [contains, get?_insert_of_ne h, contains]
  by_cases hj : j = id <;> simp [hj]

theorem insert_eq_self (h : m.get? id = some x) : m.insert id x = m := by
  cases id with
  | null => rfl
  | nth n =>
    obtain ⟨cells⟩ := m
    have hcell : cells[n]? = some (some x) := Option.join_eq_some_iff.1 h
    obtain ⟨hn, hx⟩ := Array.getElem?_eq_some_iff.1 hcell
    have hreserve : (NodeMap.mk cells).reserve n = cells := by
      unfold reserve
      rw [show n + 1 - cells.size = 0 by omega, Array.replicate_zero, Array.append_empty]
    change NodeMap.mk (((NodeMap.mk cells).reserve n).setIfInBounds n (some x)) = ⟨cells⟩
    rw [hreserve, ← hx, Array.setIfInBounds_def, dif_pos hn, Array.set_getElem_self]

theorem insert_insert : (m.insert id x).insert id x = m.insert id x := by
  cases id with
  | null => rfl
  | nth k => exact insert_eq_self ((get?_insert m k x _).trans (if_pos rfl))

theorem get?_insert_other (h : j ≠ id) : (m.insert id x).get? j = m.get? j := by
  cases id with
  | null => rfl
  | nth n => rw [get?_insert, if_neg h]

theorem get?_insert_cases (h : (m.insert id x).get? j = some y) :
    (j = id ∧ y = x) ∨ m.get? j = some y := by
  cases id with
  | null => exact Or.inr h
  | nth k =>
    rw [get?_insert] at h
    split_ifs at h with hk
    · exact Or.inl ⟨hk, (Option.some.inj h).symm⟩
    · exact Or.inr h

/-- The map `m'` gives `x` for `id` and what `m` gives for all others. -/
def Binds (m : NodeMap β) (id : NodeId) (x : β) (m' : NodeMap β) : Prop :=
  ∀ j, m'.get? j = if j = id then some x else m.get? j

theorem binds_insert (h : id ≠ .null) : m.Binds id x (m.insert id x) := get?_insert_of_ne h

namespace Binds

variable {m' : NodeMap β} {i : NodeId} (h : m.Binds id x m')

include h

theorem self : m'.get? id = some x := (h id).trans (if_pos rfl)

theorem of_ne (hj : j ≠ id) : m'.get? j = m.get? j := (h j).trans (if_neg hj)

theorem cases (hj : m'.get? j = some y) : (j = id ∧ y = x) ∨ (j ≠ id ∧ m.get? j = some y) := by
  rw [h] at hj
  split_ifs at hj with hid
  · exact Or.inl ⟨hid, (Option.some.inj hj).symm⟩
  · exact Or.inr ⟨hid, hj⟩

/-- What is in the map stays, if nothing was there for `id`. -/
theorem keeps (hnone : m.get? id = none) (hj : m.get? j = some y) : m'.get? j = some y := by
  have hne : j ≠ id := by
    rintro rfl
    cases hnone.symm.trans hj
  rw [h.of_ne hne, hj]

theorem exists_get? (hj : ∃ y, m.get? j = some y) : ∃ y, m'.get? j = some y := by
  rw [h]
  split_ifs
  · exact ⟨x, rfl⟩
  · exact hj

/-- A map without repetitions stays so with a value that is new to it. -/
theorem injective (hfree : ∀ j, m.get? j ≠ some x)
    (hm : ∀ i j y, m.get? i = some y → m.get? j = some y → i = j)
    (hi : m'.get? i = some y) (hj : m'.get? j = some y) : i = j := by
  rcases h.cases hi with ⟨rfl, rfl⟩ | ⟨-, hi⟩
  · rcases h.cases hj with ⟨rfl, -⟩ | ⟨-, hj⟩
    · rfl
    · exact absurd hj (hfree j)
  · rcases h.cases hj with ⟨rfl, rfl⟩ | ⟨-, hj⟩
    · exact absurd hi (hfree i)
    · exact hm i j y hi hj

/-- In a map without repetitions the value that `id` had is gone. -/
theorem cases_of_injective (hm : ∀ i j y, m.get? i = some y → m.get? j = some y → i = j)
    (hj : m'.get? j = some y) :
    (j = id ∧ y = x) ∨ (j ≠ id ∧ m.get? j = some y ∧ m.get? id ≠ some y) :=
  (h.cases hj).imp_right fun ⟨hne, hj⟩ => ⟨hne, hj, fun hid => hne (hm j id y hj hid)⟩

theorem gone (hm : ∀ i j y, m.get? i = some y → m.get? j = some y → i = j)
    (hold : m.get? id = some y) (hne : y ≠ x) (j : NodeId) : m'.get? j ≠ some y := by
  intro hj
  rcases h.cases_of_injective hm hj with ⟨-, rfl⟩ | ⟨-, -, hid⟩
  · exact hne rfl
  · exact hid hold

end Binds

theorem mem_toList {m : NodeMap β} : (id, x) ∈ m.toList ↔ m.get? id = some x := by
  simp only [toList, List.mem_filterMap, Option.map_eq_some_iff, Prod.mk.injEq]
  constructor
  · rintro ⟨j, -, y, hy, rfl, rfl⟩
    exact hy
  · intro h
    exact ⟨id, mem_keys.2 (by rw [h]; rfl), x, h, rfl, rfl⟩

theorem get?_erase_of_ne (h : id ≠ .null) (j : NodeId) :
    (m.erase id).get? j = if j = id then none else m.get? j := by
  cases id with
  | null => exact absurd rfl h
  | nth k => exact get?_erase m k j

theorem get?_of_erase (h : (m.erase id).get? j = some x) : m.get? j = some x := by
  cases id with
  | null => exact h
  | nth k =>
    rw [get?_erase] at h
    split_ifs at h
    exact h

theorem get?_eraseAll (l : List (NodeId × γ)) (m : NodeMap β) (j : NodeId) :
    (l.foldl (fun m x => m.erase x.1) m).get? j = if j ∈ l.map (·.1) then none else m.get? j := by
  induction l generalizing m with
  | nil => simp
  | cons x l ih =>
    have hx : (m.erase x.1).get? j = if j = x.1 then none else m.get? j := by
      cases hx : x.1 with
      | null => cases j <;> simp [erase]
      | nth k => exact get?_erase m k j
    rw [List.foldl_cons, ih, hx, List.map_cons]
    by_cases hj : j = x.1
    · simp [hj]
    · simp only [hj, if_false, List.mem_cons, false_or]

theorem contains_insertAll {l : List (NodeId × γ)} (hl : ∀ x ∈ l, x.1 ≠ .null) (y : β)
    (m : NodeMap β) (j : NodeId) : (l.foldl (fun m x => m.insert x.1 y) m).contains j ↔
      m.contains j ∨ j ∈ l.map (·.1) := by
  induction l generalizing m with
  | nil => simp
  | cons x l ih =>
    rw [List.foldl_cons, ih fun z hz => hl z (.tail _ hz),
      contains_insert (hl x List.mem_cons_self), List.map_cons, List.mem_cons, or_assoc]

theorem get?_filterMap (m : NodeMap β) (f : NodeId → β → Option γ) (id : NodeId) :
    (m.filterMap f).get? id = (m.get? id).bind (f id) := by
  cases id with
  | null => rfl
  | nth k =>
    simp only [get?, filterMap, Array.getElem?_mapIdx]
    cases m.cells[k]? with
    | none => rfl
    | some cell => cases cell <;> rfl

end NodeMap

variable {α : Type}

namespace Entry

variable {e : Entry α} {u user : NodeId}

@[simp] theorem node_addUser : (e.addUser user).node = e.node := by
  unfold addUser
  split <;> rfl

@[simp] theorem mem_users_addUser : u ∈ (e.addUser user).users ↔ u ∈ e.users ∨ u = user := by
  unfold addUser
  split_ifs with h
  · exact ⟨Or.inl, fun hu => hu.elim id fun hu => hu ▸ h⟩
  · simp

@[simp] theorem node_dropUser : (e.dropUser user).node = e.node := rfl

@[simp] theorem mem_users_dropUser : u ∈ (e.dropUser user).users ↔ u ∈ e.users ∧ u ≠ user := by
  simp [dropUser]

end Entry

namespace Generation

variable {g g' : Generation α} {id j o u : NodeId} {n : Node α} {p : Provenance}

theorem contains_iff : g.contains id ↔ ∃ n, g.node? id = some n := by
  rw [contains, NodeMap.contains_iff]
  constructor
  · rintro ⟨e, he⟩
    exact ⟨e.node, by rw [node?, get?, he]; rfl⟩
  · rintro ⟨n, hn⟩
    obtain ⟨e, he, -⟩ := Option.map_eq_some_iff.1 hn
    exact ⟨e, he⟩

/-- The content of a graph, oldest first. -/
def nodes (g : Generation α) : List (NodeId × Node α) := g.toList.map fun (id, e) => (id, e.node)

theorem mem_nodes : (id, n) ∈ g.nodes ↔ g.node? id = some n := by
  simp only [nodes, toList, List.mem_map, Prod.mk.injEq, node?, get?, Option.map_eq_some_iff]
  constructor
  · rintro ⟨⟨j, e⟩, hmem, rfl, rfl⟩
    exact ⟨e, NodeMap.mem_toList.1 hmem, rfl⟩
  · rintro ⟨e, he, rfl⟩
    exact ⟨(id, e), NodeMap.mem_toList.2 he, rfl, rfl⟩

theorem contains_of_node? (h : g.node? id = some n) : g.contains id := contains_iff.2 ⟨n, h⟩

theorem expression?_eq {e : Expression} :
    g.expression? id = some e ↔ g.node? id = some (.expression e) := by
  unfold expression?
  cases h : g.node? id with
  | none => simp
  | some n => cases n <;> simp [Node.expression?]

theorem parameter?_eq {p : Parameter α} :
    g.parameter? id = some p ↔ g.node? id = some (.parameter p) := by
  unfold parameter?
  cases h : g.node? id with
  | none => simp
  | some n => cases n <;> simp [Node.parameter?]

theorem ne_null_of_contains (h : g.contains id) : id ≠ .null := by
  obtain ⟨e, he⟩ := NodeMap.contains_iff.1 h
  exact NodeMap.ne_null_of_get? he

theorem operands_of_node? (h : g.node? id = some n) : g.operands id = n.operands := by
  obtain ⟨e, he, rfl⟩ := Option.map_eq_some_iff.1 h
  rw [operands, he]

theorem operands_of_not_node? (h : g.node? id = none) : g.operands id = [] := by
  rw [node?, Option.map_eq_none_iff] at h
  rw [operands, h]

theorem node?_of_mem_operands (h : o ∈ g.operands id) : ∃ n, g.node? id = some n := by
  cases hn : g.node? id with
  | none =>
    rw [operands_of_not_node? hn] at h
    cases h
  | some n => exact ⟨n, rfl⟩

theorem mem_operands_iff :
    o ∈ g.operands id ↔ ∃ e, g.expression? id = some e ∧ o ∈ e.operands := by
  constructor
  · intro ho
    obtain ⟨n, hn⟩ := node?_of_mem_operands ho
    rw [operands_of_node? hn] at ho
    cases n with
    | expression e => exact ⟨e, expression?_eq.2 hn, ho⟩
    | _ => cases ho
  · rintro ⟨e, he, ho⟩
    rwa [operands_of_node? (expression?_eq.1 he)]

theorem mem_users_iff : u ∈ g.users id ↔ ∃ e, g.get? id = some e ∧ u ∈ e.users := by
  unfold users
  cases g.get? id <;> simp

/-- The operands are there, and users and operands say the same. -/
structure Linked (g : Generation α) : Prop where
  closed : ∀ id, ∀ o ∈ g.operands id, g.contains o
  users : ∀ o u, u ∈ g.users o ↔ o ∈ g.operands u

theorem Linked.contains (hg : g.Linked) (h : g.node? id = some n) (ho : o ∈ n.operands) :
    g.contains o := hg.closed id o (by rwa [operands_of_node? h])

/-- Changing some entries one after the other, when changing one twice is no more than once. -/
theorem get?_foldl_modify {f : Entry α → Entry α} (hf : ∀ e, f (f e) = f e)
    (m : NodeMap (Entry α)) (l : List NodeId) (id : NodeId) :
    (l.foldl (fun m o => m.modify o f) m).get? id
      = (m.get? id).map fun e => if id ∈ l then f e else e := by
  induction l generalizing m with
  | nil => simp
  | cons o l ih =>
    rw [List.foldl_cons, ih, NodeMap.get?_modify]
    by_cases ho : id = o
    · subst ho
      cases m.get? id with
      | none => simp
      | some e =>
        simp only [if_pos, Option.map_some, List.mem_cons, true_or]
        split_ifs
        · rw [hf]
        · rfl
    · simp [ho]

theorem get?_link (m : NodeMap (Entry α)) (user : NodeId) (l : List NodeId) (id : NodeId) :
    (link m user l).get? id = (m.get? id).map fun e => if id ∈ l then e.addUser user else e := by
  refine get?_foldl_modify (fun e => ?_) m l id
  simp only [Entry.addUser]
  split_ifs <;> simp_all

theorem get?_unlink (m : NodeMap (Entry α)) (user : NodeId) (l : List NodeId) (id : NodeId) :
    (unlink m user l).get? id
      = (m.get? id).map fun e => if id ∈ l then e.dropUser user else e :=
  get?_foldl_modify (fun e => by simp [Entry.dropUser]) m l id

theorem missing?_eq_none (h : g.missing? n = none) : ∀ o ∈ n.operands, g.contains o := by
  intro o ho
  simpa using List.find?_eq_none.1 h o ho

/-- The id has been given to a node, which may be gone. -/
def Issued (g : Generation α) : NodeId → Prop
  | .null => False
  | .nth k => k < g.entries.cells.size

theorem issued_of_contains (h : g.contains id) : g.Issued id := by
  cases id with
  | null => cases h
  | nth k =>
    by_contra hk
    have hnone := Array.getElem?_eq_none (Nat.le_of_not_lt hk)
    simp [contains, NodeMap.contains, NodeMap.get?, hnone] at h

theorem Issued.mono (h : g.Issued id) (hs : g.entries.cells.size ≤ g'.entries.cells.size) :
    g'.Issued id := by
  cases id with
  | null => exact h
  | nth k => exact Nat.lt_of_lt_of_le h hs

theorem size_modify {f : Entry α → Entry α} (m : NodeMap (Entry α)) (id : NodeId) :
    (m.modify id f).cells.size = m.cells.size := by
  cases id <;> simp [NodeMap.modify]

theorem size_foldl_modify {f : Entry α → Entry α} (m : NodeMap (Entry α)) (l : List NodeId) :
    (l.foldl (fun m o => m.modify o f) m).cells.size = m.cells.size := by
  induction l generalizing m with
  | nil => rfl
  | cons o l ih =>
    rw [List.foldl_cons, ih, size_modify]

/-- What an insertion does. -/
structure Inserted (g : Generation α) (id : NodeId) (n : Node α) (g' : Generation α) : Prop where
  fresh : g.node? id = none
  not_issued : ¬ g.Issued id
  issued : ∀ o, g.Issued o → g'.Issued o
  ne_null : id ≠ .null
  operands : ∀ o ∈ n.operands, g.contains o
  node? : ∀ j, g'.node? j = if j = id then some n else g.node? j
  users : ∀ o u, u ∈ g'.users o ↔ u ∈ g.users o ∨ u = id ∧ o ∈ n.operands

theorem inserted_of_insert (h : g.insert n p = .ok (id, g')) : g.Inserted id n g' := by
  unfold insert at h
  split at h
  · cases h
  · rename_i hm
    simp only [Except.ok.injEq, Prod.mk.injEq] at h
    obtain ⟨rfl, rfl⟩ := h
    have hop := missing?_eq_none hm
    have hget : g.get? g.entries.fresh = none := g.entries.get?_fresh
    have hself : g.entries.fresh ∉ n.operands := by
      intro hmem
      have hc := hop _ hmem
      rw [contains, NodeMap.contains, NodeMap.get?_fresh] at hc
      cases hc
    refine ⟨by rw [node?, hget]; rfl, by simp [NodeMap.fresh, Issued], fun o ho => ho.mono ?_,
      by simp [NodeMap.fresh], hop, fun j => ?_, fun o u => ?_⟩
    · simp [link, size_foldl_modify, NodeMap.push]
    · rw [node?, get?, get?_link, NodeMap.get?_push]
      by_cases hj : j = g.entries.fresh
      · simp [hj, hself]
      · rw [if_neg hj, if_neg hj, Option.map_map, node?, get?]
        congr 1
        funext e
        simp only [Function.comp_apply]
        split_ifs
        · exact Entry.node_addUser
        · rfl
    · simp only [mem_users_iff]
      rw [get?, get?_link, NodeMap.get?_push]
      by_cases ho : o = g.entries.fresh
      · subst ho
        simp [hself, hget]
      · rw [if_neg ho, ← get?]
        cases hg : g.get? o with
        | none =>
          have hno : o ∉ n.operands := by
            intro hmem
            have hc := hop _ hmem
            rw [contains, NodeMap.contains, ← get?, hg] at hc
            cases hc
          simp [hno]
        | some e =>
          by_cases hmem : o ∈ n.operands <;> simp [hmem]

/-- What putting other content into a node does. -/
structure Replaced (g : Generation α) (id : NodeId) (n : Node α) (g' : Generation α) : Prop where
  contains : g.contains id
  issued : ∀ o, g.Issued o → g'.Issued o
  operands : ∀ o ∈ n.operands, g.contains o
  node? : ∀ j, g'.node? j = if j = id then some n else g.node? j
  users : ∀ o u, u ∈ g'.users o ↔
    u ∈ g.users o ∧ (u ≠ id ∨ o ∉ g.operands id) ∨ u = id ∧ o ∈ n.operands

theorem replaced_of_replace (h : g.replace id n p = .ok g') : g.Replaced id n g' := by
  unfold replace at h
  split_ifs at h with hc
  split at h
  · cases h
  · rename_i hm
    cases h
    rw [Bool.not_eq_true', Bool.not_eq_false] at hc
    have hop := missing?_eq_none hm
    have hgc : ∀ {o}, g.get? o = none → ¬ g.contains o := by
      intro o ho hc
      rw [Generation.contains, NodeMap.contains, ← get?, ho] at hc
      cases hc
    refine ⟨hc, fun o ho => ho.mono ?_, hop, fun j => ?_, fun o u => ?_⟩
    · simp [link, unlink, size_foldl_modify, size_modify]
    · rw [node?, get?, get?_link, NodeMap.get?_modify, get?_unlink, ← get?]
      cases hj : g.get? j with
      | none =>
        have hne : j ≠ id := fun h => hgc hj (h ▸ hc)
        simp [hne, node?, hj]
      | some e =>
        rw [node?, hj]
        split_ifs <;> simp
    · simp only [mem_users_iff]
      rw [get?, get?_link, NodeMap.get?_modify, get?_unlink, ← get?]
      cases ho : g.get? o with
      | none =>
        have hno : o ∉ n.operands := fun h => hgc ho (hop o h)
        simp [hno]
      | some e =>
        by_cases hoid : o = id <;> by_cases h1 : o ∈ g.operands id <;>
          by_cases h2 : o ∈ n.operands <;> simp_all

/-- What taking a node out does that nothing uses. -/
structure Removed (g : Generation α) (id : NodeId) (g' : Generation α) : Prop where
  issued : ∀ o, g.Issued o → g'.Issued o
  node? : ∀ j, g'.node? j = if j = id then none else g.node? j
  users : ∀ o u, u ∈ g'.users o ↔ u ∈ g.users o ∧ u ≠ id ∧ o ≠ id

theorem remove_fst (hc : g.contains id) (hu : g.users id = []) : (g.remove id).1 = [id] := by
  have hmem : id ∈ g.order := NodeMap.mem_keys.2 hc
  have hsize : g.size = (g.size - 1) + 1 := by
    have : 0 < g.size := List.length_pos_of_mem hmem
    omega
  change g.dependents g.size [] id = [id]
  rw [hsize, dependents, hu]
  simp [hc]

theorem removed_of_remove (hc : g.contains id) (hu : g.users id = []) :
    g.Removed id (g.remove id).2 := by
  have hget : ∀ j, (g.remove id).2.get? j = (g.get? j).bind fun e =>
      if j ∈ [id] then none else some { e with users := e.users.filter (· ∉ [id]) } := by
    intro j
    have hgone := remove_fst hc hu
    unfold remove at hgone ⊢
    dsimp only at hgone ⊢
    rw [get?, NodeMap.get?_filterMap, hgone, get?]
  refine ⟨fun o ho => ho.mono ?_, fun j => ?_, fun o u => ?_⟩
  · simp [remove, NodeMap.filterMap]
  · rw [node?, hget, node?]
    cases g.get? j with
    | none => simp
    | some e => by_cases hj : j = id <;> simp [hj]
  · simp only [mem_users_iff, hget]
    cases g.get? o with
    | none => simp
    | some e => by_cases ho : o = id <;> simp [ho]

theorem node?_addProvenance (j : NodeId) : (g.addProvenance id p).node? j = g.node? j := by
  rw [node?, get?, addProvenance, NodeMap.get?_modify, node?, get?]
  split_ifs
  · rw [Option.map_map]
    rfl
  · rfl

theorem contains_addProvenance (j : NodeId) : (g.addProvenance id p).contains j = g.contains j := by
  rw [Bool.eq_iff_iff, contains_iff, contains_iff, node?_addProvenance]

theorem Issued.addProvenance (h : g.Issued o) : (g.addProvenance id p).Issued o :=
  h.mono (by simp [Generation.addProvenance, size_modify])

theorem mem_users_addProvenance : u ∈ (g.addProvenance id p).users o ↔ u ∈ g.users o := by
  simp only [mem_users_iff]
  rw [get?, addProvenance, NodeMap.get?_modify, get?]
  split_ifs
  · cases g.entries.get? o <;> simp
  · rfl

theorem operands_congr (h : g'.node? id = g.node? j) : g'.operands id = g.operands j := by
  cases hn : g.node? j with
  | none => rw [operands_of_not_node? hn, operands_of_not_node? (h.trans hn)]
  | some n => rw [operands_of_node? hn, operands_of_node? (h.trans hn)]

namespace Inserted

variable (h : g.Inserted id n g')

include h

theorem node?_self : g'.node? id = some n := by rw [h.node?, if_pos rfl]

theorem node?_of_ne (hj : j ≠ id) : g'.node? j = g.node? j := by rw [h.node?, if_neg hj]

theorem ne_of_contains (hj : g.contains j) : j ≠ id := by
  rintro rfl
  obtain ⟨n, hn⟩ := contains_iff.1 hj
  simp [h.fresh] at hn

theorem ne_of_issued (hj : g.Issued j) : j ≠ id := by
  rintro rfl
  exact h.not_issued hj

theorem contains (hj : g.contains j) : g'.contains j := by
  obtain ⟨n, hn⟩ := contains_iff.1 hj
  exact contains_iff.2 ⟨n, by rwa [h.node?_of_ne (h.ne_of_contains hj)]⟩

theorem rank_lt_of_issued (ho : g.Issued o) : o.rank < id.rank := by
  have hnot := h.not_issued
  have hnull := h.ne_null
  cases o with
  | null => exact ho.elim
  | nth k =>
    cases id with
    | null => exact absurd rfl hnull
    | nth l => exact Nat.lt_of_lt_of_le ho (Nat.le_of_not_lt hnot)

theorem rank_lt (ho : o ∈ n.operands) : o.rank < id.rank :=
  h.rank_lt_of_issued (issued_of_contains (h.operands o ho))

theorem linked (hg : g.Linked) : g'.Linked := by
  have hself := operands_of_node? h.node?_self
  have hold : ∀ {u}, u ≠ id → g'.operands u = g.operands u := fun hu =>
    operands_congr (h.node?_of_ne hu)
  refine ⟨fun j o ho => ?_, fun o u => ?_⟩
  · by_cases hj : j = id
    · subst hj
      rw [hself] at ho
      exact h.contains (h.operands o ho)
    · rw [hold hj] at ho
      exact h.contains (hg.closed j o ho)
  · rw [h.users, hg.users]
    by_cases hu : u = id
    · subst hu
      simp [hself, operands_of_not_node? h.fresh]
    · simp [hu, hold hu]

end Inserted

namespace Replaced

variable (h : g.Replaced id n g')

include h

theorem node?_self : g'.node? id = some n := by rw [h.node?, if_pos rfl]

theorem node?_of_ne (hj : j ≠ id) : g'.node? j = g.node? j := by rw [h.node?, if_neg hj]

theorem contains_iff : g'.contains j ↔ g.contains j := by
  by_cases hj : j = id
  · subst hj
    exact iff_of_true (contains_of_node? h.node?_self) h.contains
  · rw [Generation.contains_iff, Generation.contains_iff, h.node?_of_ne hj]

theorem linked (hg : g.Linked) : g'.Linked := by
  have hself := operands_of_node? h.node?_self
  have hold : ∀ {u}, u ≠ id → g'.operands u = g.operands u := fun hu =>
    operands_congr (h.node?_of_ne hu)
  refine ⟨fun j o ho => ?_, fun o u => ?_⟩
  · rw [h.contains_iff]
    by_cases hj : j = id
    · subst hj
      rw [hself] at ho
      exact h.operands o ho
    · rw [hold hj] at ho
      exact hg.closed j o ho
  · rw [h.users, hg.users]
    by_cases hu : u = id
    · subst hu
      simp [hself]
    · simp [hu, hold hu]

end Replaced

theorem Removed.linked (h : g.Removed id g') (hu : g.users id = []) (hg : g.Linked) :
    g'.Linked := by
  have hold : ∀ {u}, u ≠ id → g'.operands u = g.operands u := fun hu =>
    operands_congr (by rw [h.node?, if_neg hu])
  have hgone : g'.operands id = [] := operands_of_not_node? (by rw [h.node?, if_pos rfl])
  have hunused : ∀ u, id ∉ g.operands u := fun u hmem => by
    have := (hg.users id u).2 hmem
    simp [hu] at this
  refine ⟨fun j o ho => ?_, fun o u => ?_⟩
  · by_cases hj : j = id
    · subst hj
      simp [hgone] at ho
    · rw [hold hj] at ho
      have hne : o ≠ id := fun h => hunused j (h ▸ ho)
      obtain ⟨n, hn⟩ := contains_iff.1 (hg.closed j o ho)
      exact contains_iff.2 ⟨n, by rwa [h.node?, if_neg hne]⟩
  · rw [h.users, hg.users]
    by_cases hu : u = id
    · subst hu
      simp [hgone]
    · rw [hold hu]
      exact ⟨fun h => h.1, fun ho => ⟨ho, hu, fun h => hunused u (h ▸ ho)⟩⟩

theorem Linked.addProvenance (hg : g.Linked) : (g.addProvenance id p).Linked := by
  have hold : ∀ u, (g.addProvenance id p).operands u = g.operands u := fun u =>
    operands_congr (node?_addProvenance u)
  refine ⟨fun j o ho => ?_, fun o u => ?_⟩
  · rw [hold] at ho
    obtain ⟨n, hn⟩ := contains_iff.1 (hg.closed j o ho)
    exact contains_iff.2 ⟨n, by rwa [node?_addProvenance]⟩
  · rw [mem_users_addProvenance, hold, hg.users]

theorem linked_empty (index : ℕ) (origins : OriginTable) :
    (Generation.empty index origins : Generation α).Linked := by
  have hn : ∀ id, (Generation.empty index origins : Generation α).node? id = none := fun id => by
    simp [node?, get?, Generation.empty]
  refine ⟨fun id o ho => ?_, fun o u => ?_⟩
  · simp [operands_of_not_node? (hn id)] at ho
  · rw [operands_of_not_node? (hn u), mem_users_iff]
    simp [get?, Generation.empty]

end Generation

end ParameterSolver
