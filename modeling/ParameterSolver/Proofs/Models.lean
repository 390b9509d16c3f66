import ParameterSolver.Proofs.Graph.Linked
import ParameterSolver.Proofs.Valuation

/-! Models of a graph. A model gives every node a value that the node can have, with the assertions
true and the strict comparisons taken loosely. What holds at a node depends only on the readings of
its operands, so models carry over between graphs whose nodes read alike. -/

namespace ParameterSolver

open Exact ParameterSolver.Valuation

/-- A strict comparison taken loosely. -/
def Operator.relaxed : Operator → Operator
  | .greaterThan => .greaterOrEqual
  | .lessThan => .lessOrEqual
  | op => op

def Node.rename (f : NodeId → NodeId) : Node Exact → Node Exact
  | .expression e => .expression { e with operands := e.operands.map f }
  | n => n

/-- The value is one that the node can have, and true if the node is asserted. -/
def Node.Holds (n : Node Exact) (read : NodeId → Reading) (x : Value ℚ) : Prop :=
  match n with
  | .expression e =>
    e.op.relaxed.Denotes (e.operands.map read) x ∧ (e.asserted → x = .boolean true)
  | n => n.Allows read x

namespace Node

variable {n : Node Exact} {f : NodeId → NodeId} {r r' : NodeId → Reading} {x : Value ℚ}

@[simp] theorem operands_rename : (n.rename f).operands = n.operands.map f := by
  cases n <;> rfl

theorem rename_congr {f' : NodeId → NodeId} (h : ∀ o ∈ n.operands, f o = f' o) :
    n.rename f = n.rename f' := by
  cases n with
  | expression e =>
    simp only [rename, expression.injEq, Expression.mk.injEq, and_true, true_and]
    exact List.map_congr_left h
  | _ => rfl

theorem holds_rename : (n.rename f).Holds r x ↔ n.Holds (r ∘ f) x := by
  cases n <;> simp [rename, Holds, Allows]

theorem Holds.congr (h : n.Holds r x) (hr : ∀ o ∈ n.operands, r' o = r o) : n.Holds r' x := by
  cases n with
  | expression e =>
    have hmap : e.operands.map r' = e.operands.map r := List.map_congr_left hr
    rw [Holds, hmap]
    exact h
  | parameter p => exact h
  | literal s u => exact h
  | constant c => exact h

theorem given?_rename : (n.rename f).given? = n.given? := by
  cases n <;> rfl

end Node

/-- The elements of a given node. -/
def Generation.givenSet? (g : Generation Exact) (id : NodeId) : Option (Set (Value ℚ)) :=
  (g.given? id).map fun s => { x | x ∈ s }

namespace Valuation

/-- What is read of a node when a union is the collection of the values of its operands. -/
def listed (g : Generation Exact) (v : Valuation) (id : NodeId) : Reading :=
  ⟨v id, (g.givenSet? id).getD (spread g v id), spread g v id⟩

/-- The nodes other than those in `S` have values that they can have. -/
def ModelsOff (S : Set NodeId) (g : Generation Exact) (v : Valuation) : Prop :=
  ∀ id n, g.node? id = some n → id ∉ S → n.Holds (listed g v) (v id)

def Models (g : Generation Exact) (v : Valuation) : Prop :=
  ∀ id n, g.node? id = some n → n.Holds (listed g v) (v id)

variable {g g' : Generation Exact} {v w : Valuation} {id id' j : NodeId} {n : Node Exact}

theorem Models.modelsOff (h : Models g v) (S : Set NodeId) : ModelsOff S g v :=
  fun id n hn _ => h id n hn

/-- What `f` does to a node is no change for what is read of it: the node `f id` has the same given
set, and the same members up to `f`. -/
structure Outlines (g g' : Generation Exact) (f : NodeId → NodeId) (id : NodeId) : Prop where
  given : g'.givenSet? (f id) = g.givenSet? id
  members : ∀ y, y ∈ Knowledge.members g' (f id) ↔ ∃ m ∈ Knowledge.members g id, f m = y

theorem Outlines.listed {f : NodeId → NodeId} (h : Outlines g g' f id) (hid : w (f id) = v id)
    (hm : ∀ m ∈ Knowledge.members g id, w (f m) = v m) : listed g' w (f id) = listed g v id := by
  have hs : spread g' w (f id) = spread g v id := by
    ext x
    constructor
    · rintro ⟨y, hy, rfl⟩
      obtain ⟨m, hmem, rfl⟩ := (h.members y).1 hy
      exact ⟨m, hmem, hm m hmem⟩
    · rintro ⟨m, hmem, rfl⟩
      exact ⟨f m, (h.members _).2 ⟨m, hmem, rfl⟩, (hm m hmem).symm⟩
  rw [Valuation.listed, Valuation.listed, hid, hs, h.given]

theorem givenSet?_congr (h : g'.node? id' = g.node? id) : g'.givenSet? id' = g.givenSet? id := by
  rw [Generation.givenSet?, Generation.given?, h, Generation.givenSet?, Generation.given?]

theorem expression?_congr (h : g'.node? id' = g.node? id) :
    g'.expression? id' = g.expression? id := by
  rw [Generation.expression?, h, Generation.expression?]

theorem outlines_of_node? (h : g'.node? id = g.node? id) : Outlines g g' (fun j => j) id := by
  refine ⟨givenSet?_congr h, fun y => ?_⟩
  rw [Knowledge.members, expression?_congr h, ← Knowledge.members]
  constructor
  · exact fun hy => ⟨y, hy, rfl⟩
  · rintro ⟨m, hm, rfl⟩
    exact hm

theorem mem_members_of_not_isUnion (h : ¬ g.isUnion id) : j ∈ Knowledge.members g id ↔ j = id := by
  rw [members_of_not_isUnion h, List.mem_singleton]

theorem contains_members (hg : g.Linked) (hid : g.contains id) (hj : j ∈ Knowledge.members g id) :
    g.contains j := by
  by_cases hu : g.isUnion id
  · obtain ⟨e, he, hop⟩ := hu
    rw [members_of_isUnion he hop] at hj
    refine hg.closed id j ?_
    rwa [Generation.operands_of_node? (Generation.expression?_eq.1 he)]
  · rw [mem_members_of_not_isUnion hu] at hj
    rwa [hj]

/-- What is read of a node depends on the values of the nodes that are there. -/
theorem listed_congr (hg : g.Linked) (hid : g.contains id)
    (h : ∀ j, g.contains j → w j = v j) : listed g w id = listed g v id :=
  (outlines_of_node? (show g.node? id = g.node? id from rfl)).listed (h id hid)
    fun m hm => h m (contains_members hg hid hm)

theorem Models.congr (hm : Models g v) (hg : g.Linked) (h : ∀ j, g.contains j → w j = v j) :
    Models g w := by
  intro id n hn
  rw [h id (Generation.contains_of_node? hn)]
  exact (hm id n hn).congr fun o ho => listed_congr hg (hg.contains hn ho) h

theorem models_of_inserted (h : g.Inserted id n g') (hg : g.Linked) :
    Models g' v ↔ Models g v ∧ n.Holds (listed g v) (v id) := by
  have hread : ∀ o, g.contains o → listed g' v o = listed g v o := fun o ho =>
    (outlines_of_node? (h.node?_of_ne (h.ne_of_contains ho))).listed rfl fun _ _ => rfl
  constructor
  · intro hm
    refine ⟨fun j m hj => ?_, ?_⟩
    · have hne := h.ne_of_contains (Generation.contains_of_node? hj)
      refine (hm j m (by rw [h.node?_of_ne hne, hj])).congr fun o ho => ?_
      exact (hread o (hg.contains hj ho)).symm
    · exact (hm id n h.node?_self).congr fun o ho => (hread o (h.operands o ho)).symm
  · rintro ⟨hm, hn⟩ j m hj
    rw [h.node?] at hj
    split_ifs at hj with hid
    · cases hj
      subst hid
      exact hn.congr fun o ho => hread o (h.operands o ho)
    · exact (hm j m hj).congr fun o ho => hread o (hg.contains hj ho)

/-- Other content in a node that is read as before. -/
theorem models_of_replaced (h : g.Replaced id n g') (hg : g.Linked)
    (hout : Outlines g g' (fun j => j) id) :
    Models g' v ↔ ModelsOff {id} g v ∧ n.Holds (listed g v) (v id) := by
  have hread : ∀ o, g.contains o → listed g' v o = listed g v o := fun o _ => by
    by_cases ho : o = id
    · subst ho
      exact hout.listed rfl fun _ _ => rfl
    · exact (outlines_of_node? (h.node?_of_ne ho)).listed rfl fun _ _ => rfl
  constructor
  · intro hm
    refine ⟨fun j m hj hne => ?_, ?_⟩
    · refine (hm j m (by rw [h.node?_of_ne hne, hj])).congr fun o ho => ?_
      exact (hread o (hg.contains hj ho)).symm
    · exact (hm id n h.node?_self).congr fun o ho => (hread o (h.operands o ho)).symm
  · rintro ⟨hm, hn⟩ j m hj
    rw [h.node?] at hj
    split_ifs at hj with hid
    · cases hj
      subst hid
      exact hn.congr fun o ho => hread o (h.operands o ho)
    · exact (hm j m hj hid).congr fun o ho => hread o (hg.contains hj ho)

/-- A model of what is left after a node is gone that nothing used. -/
theorem models_of_removed (h : g.Removed id g') (hg : g.Linked) (hu : g.users id = []) :
    Models g' v ↔ ModelsOff {id} g v := by
  have hread : ∀ o, o ≠ id → listed g' v o = listed g v o := fun o ho =>
    (outlines_of_node? (by rw [h.node?, if_neg ho])).listed rfl fun _ _ => rfl
  have hne : ∀ {j m}, g.node? j = some m → ∀ o ∈ m.operands, o ≠ id := by
    rintro j m hj o ho rfl
    have hmem := (hg.users o j).2 (by rwa [Generation.operands_of_node? hj])
    simp [hu] at hmem
  constructor
  · intro hm j m hj hjid
    exact (hm j m (by rw [h.node?, if_neg (by exact hjid), hj])).congr fun o ho =>
      (hread o (hne hj o ho)).symm
  · intro hm j m hj
    rw [h.node?] at hj
    split_ifs at hj with hjid
    exact (hm j m hj hjid).congr fun o ho => hread o (hne hj o ho)

end Valuation

end ParameterSolver
