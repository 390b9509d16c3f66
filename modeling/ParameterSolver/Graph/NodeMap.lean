/-!
Nodes are numbered in the order they enter a graph, and tables keyed by nodes hold one cell per
number. `get?` says what a table holds; every other operation is described by what `get?` gives
after it.
-/

namespace ParameterSolver

/-- A node of one graph, or the id of no node. -/
inductive NodeId where
  | null
  | nth (k : Nat)
deriving DecidableEq, Repr, Inhabited

/-- Nodes are counted from one. -/
def NodeId.text : NodeId → String
  | null => "NodeId(null)"
  | nth k => "NodeId(" ++ toString (k + 1) ++ "v1)"

structure NodeMap (β : Type) where
  cells : Array (Option β)

namespace NodeMap

variable {β : Type}

def empty : NodeMap β := ⟨#[]⟩

instance : Inhabited (NodeMap β) := ⟨empty⟩

def get? (m : NodeMap β) : NodeId → Option β
  | .null => none
  | .nth k => m.cells[k]?.join

def contains (m : NodeMap β) (id : NodeId) : Bool := (m.get? id).isSome

/-- The nodes that have an entry, in increasing order. -/
def keys (m : NodeMap β) : List NodeId :=
  ((List.range m.cells.size).map NodeId.nth).filter m.contains

def toList (m : NodeMap β) : List (NodeId × β) :=
  m.keys.filterMap fun id => (m.get? id).map (id, ·)

/-- The id that the next new node gets. -/
def fresh (m : NodeMap β) : NodeId := .nth m.cells.size

/-- Adds an entry for a new node. -/
def push (m : NodeMap β) (x : β) : NodeMap β := ⟨m.cells.push (some x)⟩

/-- Cells up to number `k`. -/
def reserve (m : NodeMap β) (k : Nat) : Array (Option β) :=
  m.cells ++ Array.replicate (k + 1 - m.cells.size) none

/-- Sets the entry of a node. The id of no node never has one. -/
def insert (m : NodeMap β) (id : NodeId) (x : β) : NodeMap β :=
  match id with
  | .null => m
  | .nth k => ⟨(m.reserve k).setIfInBounds k (some x)⟩

def erase (m : NodeMap β) (id : NodeId) : NodeMap β :=
  match id with
  | .null => m
  | .nth k => ⟨m.cells.setIfInBounds k none⟩

/-- Changes the entry of a node that has one. -/
def modify (m : NodeMap β) (id : NodeId) (f : β → β) : NodeMap β :=
  match id with
  | .null => m
  | .nth k => ⟨m.cells.modify k (Option.map f)⟩

/-- Changes or drops every entry. -/
def filterMap {γ : Type} (m : NodeMap β) (f : NodeId → β → Option γ) : NodeMap γ :=
  ⟨m.cells.mapIdx fun k cell => cell.bind (f (.nth k))⟩

@[simp] theorem get?_null (m : NodeMap β) : m.get? .null = none := rfl

@[simp] theorem get?_empty (id : NodeId) : (empty : NodeMap β).get? id = none := by
  cases id <;> simp [get?, empty]

theorem get?_push (m : NodeMap β) (x : β) (id : NodeId) :
    (m.push x).get? id = if id = m.fresh then some x else m.get? id := by
  cases id with
  | null => simp [fresh]
  | nth k =>
    simp only [get?, push, fresh, NodeId.nth.injEq, Array.getElem?_push]
    split <;> simp

theorem get?_insert (m : NodeMap β) (k : Nat) (x : β) (id : NodeId) :
    (m.insert (.nth k) x).get? id = if id = .nth k then some x else m.get? id := by
  cases id with
  | null => simp
  | nth j =>
    simp only [get?, insert, reserve, NodeId.nth.injEq, Array.getElem?_setIfInBounds,
      Array.size_append, Array.size_replicate, Array.getElem?_append, Array.getElem?_replicate]
    by_cases h : j = k
    · subst h
      rw [if_pos rfl, if_pos (by omega), if_pos rfl, Option.join_some]
    · rw [if_neg (Ne.symm h), if_neg h]
      split
      · rfl
      · rename_i hj
        rw [Array.getElem?_eq_none (by omega)]
        split <;> simp

theorem get?_erase (m : NodeMap β) (k : Nat) (id : NodeId) :
    (m.erase (.nth k)).get? id = if id = .nth k then none else m.get? id := by
  cases id with
  | null => simp
  | nth j =>
    simp only [get?, erase, NodeId.nth.injEq, Array.getElem?_setIfInBounds]
    by_cases h : k = j
    · subst h
      simp
      split <;> simp
    · rw [if_neg h, if_neg (Ne.symm h)]

theorem get?_modify (m : NodeMap β) (id id' : NodeId) (f : β → β) :
    (m.modify id f).get? id' = if id' = id then (m.get? id').map f else m.get? id' := by
  cases id with
  | null => cases id' <;> simp [modify]
  | nth k =>
    cases id' with
    | null => simp
    | nth j =>
      simp only [get?, modify, NodeId.nth.injEq, Array.getElem?_modify]
      by_cases h : k = j
      · subst h
        simp only [if_true]
        cases h : m.cells[k]? <;> simp
      · rw [if_neg h, if_neg (Ne.symm h)]

theorem mem_keys {m : NodeMap β} {id : NodeId} : id ∈ m.keys ↔ (m.get? id).isSome := by
  cases id with
  | null => simp [keys, contains]
  | nth k =>
    simp only [keys, contains, List.mem_filter, List.mem_map, List.mem_range, NodeId.nth.injEq,
      exists_eq_right, and_iff_right_iff_imp]
    intro h
    simp only [get?] at h
    cases hk : m.cells[k]? with
    | none => simp [hk] at h
    | some x => exact (Array.getElem?_eq_some_iff.1 hk).1

end NodeMap

end ParameterSolver
